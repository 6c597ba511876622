/-
# Server-sent events

The receiving end of an event stream, character by character: a line ends at a line feed, at a carriage
return or at both, a `data` field adds a line to the event, and a blank line dispatches it.  Comments and
the other fields are skipped.

A payload of one line is sent as one `data` field and a blank line (`frame`).  The payloads sent are
the events dispatched (`feed_frames`), and what has arrived so far dispatches the first of them
(`events_of_prefix`).
-/

import Mathlib.Data.List.Basic
import Mathlib.Data.List.Induction
import Mathlib.Tactic.Common

namespace Sse

/-- The receiving end: whether the last character was a carriage return, the line so far, the lines of
the event so far, and the events dispatched. -/
structure Client where
  cr : Bool
  line : List Char
  data : List (List Char)
  events : List (List Char)

namespace Client

/-- Before the first character. -/
def start : Client := ⟨false, [], [], []⟩

/-- The name of the field in a line. -/
def fieldName (line : List Char) : List Char := line.takeWhile (· ≠ ':')

/-- The value of the field in a line, without the space that may stand before it. -/
def fieldValue (line : List Char) : List Char :=
  let value := line.drop ((fieldName line).length + 1)
  if value.head? = some ' ' then value.tail else value

/-- The end of a line. -/
def endLine (s : Client) : Client :=
  if s.line = [] then
    if s.data = [] then s
    else { s with data := [], events := s.events ++ [['\n'].intercalate s.data] }
  else if fieldName s.line = "data".toList then { s with line := [], data := s.data ++ [fieldValue s.line] }
  else { s with line := [] }

/-- One character. -/
def feed1 (s : Client) (c : Char) : Client :=
  if c = '\n' then if s.cr then { s with cr := false } else s.endLine
  else if c = '\r' then { s.endLine with cr := true }
  else { s with cr := false, line := s.line ++ [c] }

/-- A text. -/
def feed (s : Client) (text : List Char) : Client := text.foldl feed1 s

end Client

/-- A payload as an event of one `data` field. -/
def frame (payload : List Char) : List Char := "data: ".toList ++ (payload ++ "\n\n".toList)

/-- A text within one line. -/
def OneLine (text : List Char) : Prop := ∀ c ∈ text, c ≠ '\n' ∧ c ≠ '\r'

namespace Client

variable {s : Client}

theorem feed_append (s : Client) (text text' : List Char) :
    s.feed (text ++ text') = (s.feed text).feed text' :=
  List.foldl_append

/-- **Events are never taken back.** -/
theorem events_feed (s : Client) (text : List Char) : s.events <+: (s.feed text).events := by
  have hline : ∀ s : Client, s.events <+: s.endLine.events := by
    intro s
    rw [endLine]
    split_ifs
    · exact List.prefix_rfl
    · exact List.prefix_append _ _
    · exact List.prefix_rfl
    · exact List.prefix_rfl
  induction text generalizing s with
  | nil => exact List.prefix_rfl
  | cons c text ih =>
    refine List.IsPrefix.trans ?_ (ih (s.feed1 c))
    rw [feed1]
    split_ifs
    · exact List.prefix_rfl
    · exact hline s
    · exact hline s
    · exact List.prefix_rfl

/-- A text within one line. -/
theorem feed_oneLine (s : Client) {text : List Char} (h : OneLine text) (hcr : s.cr = false) :
    s.feed text = { s with line := s.line ++ text } := by
  induction text generalizing s with
  | nil => rw [List.append_nil, feed, List.foldl_nil]
  | cons c text ih =>
    obtain ⟨hn, hr⟩ := h c (List.mem_cons_self ..)
    have hc : s.feed1 c = { s with line := s.line ++ [c] } := by
      rw [feed1, if_neg hn, if_neg hr, hcr]
    show (s.feed1 c).feed text = _
    rw [hc, ih { s with line := s.line ++ [c] } (fun d hd => h d (List.mem_cons_of_mem _ hd)) hcr]
    dsimp only
    rw [List.append_assoc, List.singleton_append]

/-- The line of a frame is a `data` field. -/
theorem field_data (payload : List Char) :
    fieldName ("data: ".toList ++ payload) = "data".toList ∧
      fieldValue ("data: ".toList ++ payload) = payload := by
  have hname : fieldName ("data: ".toList ++ payload) = "data".toList := by simp [fieldName]
  exact ⟨hname, by rw [fieldValue, hname]; rfl⟩

/-- **A frame** dispatches its payload, between events. -/
theorem feed_frame {payload : List Char} (h : OneLine payload) (hcr : s.cr = false) (hline : s.line = [])
    (hdata : s.data = []) : s.feed (frame payload) = { s with events := s.events ++ [payload] } := by
  have htext : OneLine ("data: ".toList ++ payload) := by
    intro c hc
    rcases List.mem_append.1 hc with hc | hc
    · exact (show ∀ c ∈ "data: ".toList, c ≠ '\n' ∧ c ≠ '\r' by simp) c hc
    · exact h c hc
  rw [frame, ← List.append_assoc, feed_append, feed_oneLine s htext hcr]
  obtain ⟨cr, line, data, events⟩ := s
  subst hcr hline hdata
  have hfield : endLine ⟨false, [] ++ ("data: ".toList ++ payload), [], events⟩ =
      ⟨false, [], [payload], events⟩ := by
    obtain ⟨hname, hvalue⟩ := field_data payload
    rw [List.nil_append, endLine]
    dsimp only
    rw [if_neg (by simp), if_pos hname, hvalue, List.nil_append]
  show feed1 (endLine ⟨false, [] ++ ("data: ".toList ++ payload), [], events⟩) '\n' = _
  rw [hfield]
  show Client.mk false [] [] (events ++ [['\n'].intercalate [payload]]) = _
  rw [List.intercalate_singleton]

end Client

/-- **The payloads sent are the events dispatched.** -/
theorem feed_frames {payloads : List (List Char)} (h : ∀ p ∈ payloads, OneLine p) :
    Client.start.feed (payloads.flatMap frame) = ⟨false, [], [], payloads⟩ := by
  induction payloads using List.reverseRecOn with
  | nil => rfl
  | append_singleton payloads p ih =>
    rw [List.flatMap_append, List.flatMap_singleton, Client.feed_append,
      ih fun q hq => h q (List.mem_append_left _ hq),
      Client.feed_frame (h p (List.mem_append_right _ (List.mem_singleton_self p))) rfl rfl rfl]

/-- **What has arrived so far** dispatches the first of the payloads sent. -/
theorem events_of_prefix {payloads : List (List Char)} (h : ∀ p ∈ payloads, OneLine p) {text : List Char}
    (htext : text <+: payloads.flatMap frame) : (Client.start.feed text).events <+: payloads := by
  obtain ⟨rest, hrest⟩ := htext
  have hevents := Client.events_feed (Client.start.feed text) rest
  rw [← Client.feed_append, hrest, feed_frames h] at hevents
  exact hevents

end Sse
