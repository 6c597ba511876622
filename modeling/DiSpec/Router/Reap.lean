/-
# What `_reap` gives one client

What a client of the server gets is a function of the output of its own request
(`reply`): nothing or the deltas so far while the request is pending, and then the
result, or the remaining deltas and one end sentinel.  The deltas are those of an output
that grows token by token (`streamed`).

`_reap` goes over the pending entries and then over the finished requests.  Its two loops
are described by what they do for one request (`reapRunning_spec`, `reapFinished_spec`,
`reap_spec`), in any state.
-/

import DiSpec.Router.Server

namespace DiSpec
namespace InferenceServer

open ContinuousBatchingEngine

variable {X D R G : Type} {s s' : InferenceServer D R G} {r : ℕ}

/-! ### The deltas of an output that grows token by token -/

/-- The pending entry and the queue of a request after a push for each prefix of its output. -/
def streamed (tok : Tokenizer) (ids : List ℕ) : Pending × List Event :=
  (List.range ids.length).foldl (fun st k =>
    let pushed := pushDelta tok st.1 (ids.take (k + 1))
    (pushed.1, st.2 ++ pushed.2)) (⟨true, []⟩, [])

/-- One token more is one push more. -/
theorem streamed_concat (tok : Tokenizer) (ids : List ℕ) (t : ℕ) :
    streamed tok (ids ++ [t]) =
      ((pushDelta tok (streamed tok ids).1 (ids ++ [t])).1,
        (streamed tok ids).2 ++ (pushDelta tok (streamed tok ids).1 (ids ++ [t])).2) := by
  have hfold : (List.range ids.length).foldl (fun st k =>
      let pushed := pushDelta tok st.1 ((ids ++ [t]).take (k + 1))
      (pushed.1, st.2 ++ pushed.2)) (⟨true, []⟩, []) = streamed tok ids := by
    refine List.foldl_ext _ _ _ fun st k hk => ?_
    rw [List.take_append_of_le_length (List.mem_range.1 hk)]
  rw [streamed, List.length_append, List.length_singleton, List.range_succ, List.foldl_append, hfold,
    List.foldl_cons, List.foldl_nil, List.take_of_length_le (by simp)]

/-- A push leaves the kind of the entry, and the text streamed is at least as long as the output's. -/
theorem pushDelta_decoded (tok : Tokenizer) (p : Pending) (ids : List ℕ) :
    (pushDelta tok p ids).1.queue = p.queue ∧
      (tok.decode ids).length ≤ (pushDelta tok p ids).1.decoded.length := by
  rw [pushDelta]
  by_cases h : p.decoded.length < (tok.decode ids).length
  · rw [if_pos h]
    exact ⟨rfl, le_rfl⟩
  · rw [if_neg h]
    exact ⟨rfl, not_lt.1 h⟩

theorem streamed_queue (tok : Tokenizer) (ids : List ℕ) : (streamed tok ids).1.queue = true := by
  induction ids using List.reverseRecOn with
  | nil => rfl
  | append_singleton ids t ih =>
    rw [streamed_concat]
    exact (pushDelta_decoded tok _ _).1.trans ih

/-- A push of the same output again does nothing. -/
theorem pushDelta_again (tok : Tokenizer) {ids : List ℕ} (h : ids ≠ []) :
    pushDelta tok (streamed tok ids).1 ids = ((streamed tok ids).1, []) := by
  rcases List.eq_nil_or_concat ids with hnil | ⟨l, t, rfl⟩
  · exact absurd hnil h
  rw [List.concat_eq_append, streamed_concat]
  have hle := (pushDelta_decoded tok (streamed tok l).1 (l ++ [t])).2
  rw [pushDelta]
  exact if_neg (not_lt.2 hle)

/-- A push after at most one more token. -/
theorem pushDelta_streamed (tok : Tokenizer) {old new : List ℕ} (h : new = old ∨ ∃ t, new = old ++ [t])
    (hne : new ≠ []) :
    (pushDelta tok (streamed tok old).1 new).1 = (streamed tok new).1 ∧
      (streamed tok old).2 ++ (pushDelta tok (streamed tok old).1 new).2 = (streamed tok new).2 := by
  rcases h with rfl | ⟨t, rfl⟩
  · rw [pushDelta_again tok hne]
    exact ⟨rfl, List.append_nil _⟩
  · rw [streamed_concat]
    exact ⟨rfl, rfl⟩

/-- Nothing but deltas is pushed. -/
theorem streamed_deltas (tok : Tokenizer) (ids : List ℕ) :
    ∀ ev ∈ (streamed tok ids).2, ∃ text, ev = .delta text := by
  induction ids using List.reverseRecOn with
  | nil => exact fun ev hev => absurd hev List.not_mem_nil
  | append_singleton ids t ih =>
    rw [streamed_concat]
    intro ev hev
    rcases List.mem_append.1 hev with hev | hev
    · exact ih ev hev
    · rw [pushDelta] at hev
      split at hev
      · exact ⟨_, List.mem_singleton.1 hev⟩
      · exact absurd hev List.not_mem_nil

/-- The pending entry of a request with this output. -/
def entry (tok : Tokenizer) (queue : Bool) (ids : List ℕ) : Pending :=
  if queue then (streamed tok ids).1 else ⟨false, []⟩

theorem entry_nil (tok : Tokenizer) (queue : Bool) : entry tok queue [] = ⟨queue, []⟩ := by
  cases queue with
  | false => rfl
  | true => rfl

theorem entry_queue (tok : Tokenizer) (queue : Bool) (ids : List ℕ) :
    (entry tok queue ids).queue = queue := by
  cases queue with
  | false => rfl
  | true => exact streamed_queue tok ids

/-- **What the future or the queue of a request holds**: by its kind, whether it is still pending,
and its output. -/
def reply (tok : Tokenizer) (queue pending : Bool) (ids : List ℕ) : List Event :=
  if queue then (streamed tok ids).2 ++ (if pending then [] else [.sentinel])
  else if pending then [] else [.result ids]

/-- Nothing is sent before the first token. -/
theorem reply_nil (tok : Tokenizer) (queue : Bool) : reply tok queue true [] = [] := by
  cases queue with
  | false => rfl
  | true => rfl

/-! ### `_reap`, for one request -/

/-- The running request with an id is found by it. -/
theorem byId_eq {e : ContinuousBatchingEngine D R G} (h : ∀ r, (e.req r).id = r) (rid : ℕ) :
    byId e rid = if rid ∈ e.running then some rid else none := by
  have hfind : ∀ l : List ℕ, (l.find? fun r => (e.req r).id = rid) = if rid ∈ l then some rid else none := by
    intro l
    induction l with
    | nil => rfl
    | cons r l ih =>
      rw [List.find?_cons, h r]
      rcases eq_or_ne r rid with rfl | hne
      · rw [decide_eq_true rfl, if_pos List.mem_cons_self]
      · rw [decide_eq_false hne]
        simp only
        rw [ih]
        simp only [List.mem_cons, hne.symm, false_or]
  rw [byId, hfind]
  simp only [List.mem_reverse]

/-- The entry of a request after the first loop of `_reap`, and what it pushes. -/
def pushed (s : InferenceServer D R G) (rid : ℕ) (p : Pending) : Pending × List Event :=
  match byId s.engine rid with
  | none => (p, [])
  | some r =>
    if (s.engine.req r).outputIds = [] ∨ p.queue = false then (p, [])
    else pushDelta s.tok p (s.engine.req r).outputIds

/-- One entry of the first loop. -/
theorem reapRunning_cons (s : InferenceServer D R G) {rid : ℕ} {p : Pending}
    (hp : s.pending.lookup rid = some p) (rest : List (ℕ × Pending)) :
    ∃ s₁ : InferenceServer D R G, s.reapRunning ((rid, p) :: rest) = s₁.reapRunning rest ∧
      s₁.engine = s.engine ∧
      s₁.tok = s.tok ∧ s₁.pending.lookup rid = some (s.pushed rid p).1 ∧
      s₁.sent rid = s.sent rid ++ (s.pushed rid p).2 ∧
      ∀ r, r ≠ rid → s₁.pending.lookup r = s.pending.lookup r ∧ s₁.sent r = s.sent r := by
  rw [reapRunning, pushed]
  cases byId s.engine rid with
  | none => exact ⟨s, rfl, rfl, rfl, hp, (List.append_nil _).symm, fun _ _ => ⟨rfl, rfl⟩⟩
  | some r =>
    simp only
    by_cases hout : (s.engine.req r).outputIds = []
    · rw [if_pos hout, if_pos (Or.inl hout)]
      exact ⟨s, rfl, rfl, rfl, hp, (List.append_nil _).symm, fun _ _ => ⟨rfl, rfl⟩⟩
    rw [if_neg hout]
    cases hq : p.queue with
    | false =>
      rw [if_pos (Or.inr rfl)]
      exact ⟨s, rfl, rfl, rfl, hp, (List.append_nil _).symm, fun _ _ => ⟨rfl, rfl⟩⟩
    | true =>
      rw [if_pos rfl, if_neg (not_or.2 ⟨hout, Bool.noConfusion⟩)]
      refine ⟨_, rfl, rfl, rfl, Dict.lookup_replace (Dict.mem_of_lookup hp) _, Function.update_self _ _ _,
        fun r' hr' => ⟨Dict.lookup_replace_ne hr' _, Function.update_of_ne hr' _ _⟩⟩

/-- **The first loop of `_reap`** pushes for each entry once. -/
theorem reapRunning_spec (l : List (ℕ × Pending)) (s : InferenceServer D R G) (hn : (l.map Prod.fst).Nodup)
    (hl : ∀ x ∈ l, s.pending.lookup x.1 = some x.2) :
    (s.reapRunning l).engine = s.engine ∧ (s.reapRunning l).tok = s.tok ∧
      (∀ r, r ∉ l.map Prod.fst → (s.reapRunning l).pending.lookup r = s.pending.lookup r ∧
        (s.reapRunning l).sent r = s.sent r) ∧
      ∀ x ∈ l, (s.reapRunning l).pending.lookup x.1 = some (s.pushed x.1 x.2).1 ∧
        (s.reapRunning l).sent x.1 = s.sent x.1 ++ (s.pushed x.1 x.2).2 := by
  induction l generalizing s with
  | nil => exact ⟨rfl, rfl, fun _ _ => ⟨rfl, rfl⟩, fun x hx => absurd hx List.not_mem_nil⟩
  | cons x l ih =>
    obtain ⟨rid, p⟩ := x
    rw [List.map_cons, List.nodup_cons] at hn
    have hp := hl (rid, p) List.mem_cons_self
    obtain ⟨s₁, heq, heng, htok, hlook, hsent, hother⟩ := reapRunning_cons s hp l
    have hne : ∀ x ∈ l, x.1 ≠ rid := fun x hx he => hn.1 (List.mem_map.2 ⟨x, hx, he⟩)
    have hpushed : ∀ r p, s₁.pushed r p = s.pushed r p := fun r p => by
      rw [pushed, pushed, heng, htok]
    obtain ⟨heng', htok', hkeep, hdone⟩ := ih s₁ hn.2 fun x hx => by
      rw [(hother x.1 (hne x hx)).1]
      exact hl x (List.mem_cons_of_mem _ hx)
    rw [heq]
    refine ⟨heng'.trans heng, htok'.trans htok, fun r hr => ?_, fun x hx => ?_⟩
    · rw [List.map_cons, List.mem_cons, not_or] at hr
      exact ⟨(hkeep r hr.2).1.trans (hother r hr.1).1, (hkeep r hr.2).2.trans (hother r hr.1).2⟩
    · rcases List.mem_cons.1 hx with rfl | hx
      · exact ⟨(hkeep rid hn.1).1.trans hlook, (hkeep rid hn.1).2.trans hsent⟩
      · obtain ⟨h₁, h₂⟩ := hdone x hx
        rw [hpushed] at h₁ h₂
        exact ⟨h₁, h₂.trans (by rw [(hother x.1 (hne x hx)).2])⟩

/-- What a finished request is sent last. -/
def closing (tok : Tokenizer) (p : Pending) (ids : List ℕ) : List Event :=
  if p.queue then (pushDelta tok p ids).2 ++ [.sentinel] else [.result ids]

/-- **The second loop of `_reap`** answers each finished request that is pending, once. -/
theorem reapFinished_spec (l : List ℕ) (s : InferenceServer D R G) (hn : l.Nodup)
    (hid : ∀ r, (s.engine.req r).id = r) :
    (s.reapFinished l).engine = s.engine ∧ (s.reapFinished l).tok = s.tok ∧
      (∀ r, r ∉ l ∨ s.pending.lookup r = none → (s.reapFinished l).pending.lookup r = s.pending.lookup r ∧
        (s.reapFinished l).sent r = s.sent r) ∧
      ∀ r ∈ l, ∀ p, s.pending.lookup r = some p → (s.reapFinished l).pending.lookup r = none ∧
        (s.reapFinished l).sent r = s.sent r ++ closing s.tok p (s.engine.req r).outputIds := by
  induction l generalizing s with
  | nil => exact ⟨rfl, rfl, fun _ _ => ⟨rfl, rfl⟩, fun r hr => absurd hr List.not_mem_nil⟩
  | cons x l ih =>
    rw [List.nodup_cons] at hn
    rw [reapFinished, hid]
    cases hx : s.pending.lookup x with
    | none =>
      obtain ⟨heng, htok, hkeep, hdone⟩ := ih s hn.2 hid
      simp only
      refine ⟨heng, htok, fun r hr => hkeep r (hr.imp_left fun hr hm => hr (List.mem_cons_of_mem _ hm)),
        fun r hr p hp => ?_⟩
      rcases List.mem_cons.1 hr with rfl | hr
      · rw [hx] at hp
        cases hp
      · exact hdone r hr p hp
    | some px =>
      simp only
      set s₁ : InferenceServer D R G := { s with pending := s.pending.erase x } with hs₁
      have hstep : (if px.queue = true then
            (s₁.post x ((pushDelta s₁.tok px (s₁.engine.req x).outputIds).2 ++ [.sentinel])).reapFinished l
          else (s₁.post x [.result (s₁.engine.req x).outputIds]).reapFinished l) =
          (s₁.post x (closing s.tok px (s.engine.req x).outputIds)).reapFinished l := by
        unfold closing
        split <;> rfl
      rw [hstep]
      obtain ⟨heng, htok, hkeep, hdone⟩ :=
        ih (s₁.post x (closing s.tok px (s.engine.req x).outputIds)) hn.2 hid
      have hother : ∀ r, r ≠ x → (s₁.post x (closing s.tok px (s.engine.req x).outputIds)).pending.lookup r =
          s.pending.lookup r ∧ (s₁.post x (closing s.tok px (s.engine.req x).outputIds)).sent r = s.sent r :=
        fun r hr => ⟨AList.lookup_erase_ne hr, Function.update_of_ne hr _ _⟩
      refine ⟨heng, htok, fun r hr => ?_, fun r hr p hp => ?_⟩
      · have hne : r ≠ x := by
          rintro rfl
          rcases hr with hr | hr
          · exact hr List.mem_cons_self
          · rw [hx] at hr
            cases hr
        obtain ⟨hlook, hsent⟩ := hother r hne
        obtain ⟨hlook', hsent'⟩ := hkeep r <| hr.imp (fun hr hm => hr (List.mem_cons_of_mem _ hm)) hlook.trans
        exact ⟨hlook'.trans hlook, hsent'.trans hsent⟩
      · rcases List.mem_cons.1 hr with rfl | hr
        · obtain rfl := Option.some.inj (hx.symm.trans hp)
          obtain ⟨hlook', hsent'⟩ := hkeep r (Or.inl hn.1)
          exact ⟨hlook'.trans (AList.lookup_erase _ _), hsent'.trans (Function.update_self _ _ _)⟩
        · have hne : r ≠ x := fun he => hn.1 (he ▸ hr)
          obtain ⟨h₁, h₂⟩ := hdone r hr p ((hother r hne).1.trans hp)
          exact ⟨h₁, h₂.trans (by rw [(hother r hne).2]; rfl)⟩

/-- A request that does not run is not pushed for. -/
theorem pushed_idle (s : InferenceServer D R G) (hid : ∀ r, (s.engine.req r).id = r)
    (hr : r ∉ s.engine.running) (p : Pending) : s.pushed r p = (p, []) := by
  rw [pushed, byId_eq hid, if_neg hr]

/-- A request that runs is pushed its new text if it streams. -/
theorem pushed_running (s : InferenceServer D R G) (hid : ∀ r, (s.engine.req r).id = r)
    (hr : r ∈ s.engine.running) (queue : Bool) {old : List ℕ}
    (h : (s.engine.req r).outputIds = old ∨ ∃ t, (s.engine.req r).outputIds = old ++ [t]) :
    (s.pushed r (entry s.tok queue old)).1 = entry s.tok queue (s.engine.req r).outputIds ∧
      reply s.tok queue true old ++ (s.pushed r (entry s.tok queue old)).2 =
        reply s.tok queue true (s.engine.req r).outputIds := by
  rw [pushed, byId_eq hid, if_pos hr]
  simp only [entry_queue]
  cases queue with
  | false =>
    rw [if_pos (Or.inr rfl)]
    exact ⟨rfl, rfl⟩
  | true =>
    by_cases hnil : (s.engine.req r).outputIds = []
    · rw [if_pos (Or.inl hnil)]
      obtain rfl : old = [] := by
        rcases h with h | ⟨t, h⟩
        · exact h.symm.trans hnil
        · rw [h] at hnil
          exact absurd hnil (by simp)
      rw [hnil]
      exact ⟨rfl, rfl⟩
    · rw [if_neg (not_or.2 ⟨hnil, Bool.noConfusion⟩)]
      obtain ⟨hentry, hevents⟩ := pushDelta_streamed s.tok h hnil
      refine ⟨hentry, ?_⟩
      rw [reply, reply, if_pos rfl, if_pos rfl, if_pos rfl, List.append_nil, List.append_nil]
      exact hevents

/-- A request that finishes is sent what was missing of its answer. -/
theorem closing_reply (tok : Tokenizer) (queue : Bool) {old new : List ℕ}
    (h : new = old ∨ ∃ t, new = old ++ [t]) (hne : new ≠ []) :
    reply tok queue true old ++ closing tok (entry tok queue old) new = reply tok queue false new := by
  rw [closing, entry_queue]
  cases queue with
  | false => rfl
  | true =>
    have hevents := (pushDelta_streamed tok h hne).2
    rw [reply, reply, if_pos rfl, if_pos rfl, if_pos rfl, if_pos rfl, if_neg Bool.false_ne_true,
      List.append_nil, ← hevents, List.append_assoc]
    rfl

/-- **`_reap`, for one request**: answered if it finished, and given its new text if it streams
and runs. -/
theorem reap_spec (s : InferenceServer D R G) (hid : ∀ r, (s.engine.req r).id = r)
    (hn : s.engine.finished.Nodup) :
    s.reap.engine = { s.engine with finished := [] } ∧ s.reap.tok = s.tok ∧
      (∀ r, s.pending.lookup r = none → s.reap.pending.lookup r = none ∧ s.reap.sent r = s.sent r) ∧
      ∀ r p, s.pending.lookup r = some p →
        if r ∈ s.engine.finished then s.reap.pending.lookup r = none ∧
          s.reap.sent r = s.sent r ++ (s.pushed r p).2 ++
            closing s.tok (s.pushed r p).1 (s.engine.req r).outputIds
        else s.reap.pending.lookup r = some (s.pushed r p).1 ∧
          s.reap.sent r = s.sent r ++ (s.pushed r p).2 := by
  obtain ⟨heng, htok, hkeep, hpush⟩ := reapRunning_spec s.pending.items s (Dict.nodup_items _)
    fun x hx => Dict.mem_items_iff.1 hx
  set s₁ := s.reapRunning s.pending.items with hs₁
  obtain ⟨heng', htok', hkeep', hdone⟩ := reapFinished_spec s.engine.finished s₁ hn fun r => by
    rw [heng]
    exact hid r
  set s₂ := s₁.reapFinished s.engine.finished with hs₂
  have hreap : s.reap = { s₂ with engine := { s₂.engine with finished := [] } } := by
    rw [reap]
    simp only [← hs₁, heng]
    by_cases hfin : s.engine.finished = []
    · have hs : s₂ = s₁ := by rw [hs₂, hfin, reapFinished]
      rw [if_pos hfin, hs, heng, ← hfin, ← heng]
    · rw [if_neg hfin, heng']
  rw [hreap]
  refine ⟨?_, htok'.trans htok, fun r hr => ?_, fun r p hp => ?_⟩
  · show { s₂.engine with finished := [] } = { s.engine with finished := [] }
    rw [heng', heng]
  · have hnone : r ∉ s.pending.items.map Prod.fst := fun hm => by
      obtain ⟨⟨r', p⟩, hx, rfl⟩ := List.mem_map.1 hm
      rw [Dict.mem_items_iff.1 hx] at hr
      cases hr
    obtain ⟨hlook, hsent⟩ := hkeep r hnone
    obtain ⟨hlook', hsent'⟩ := hkeep' r (Or.inr (hlook.trans hr))
    exact ⟨hlook'.trans (hlook.trans hr), hsent'.trans hsent⟩
  · obtain ⟨hlook, hsent⟩ := hpush (r, p) (Dict.mem_items_iff.2 hp)
    by_cases hfin : r ∈ s.engine.finished
    · rw [if_pos hfin]
      obtain ⟨hgone, hsent'⟩ := hdone r hfin _ hlook
      refine ⟨hgone, hsent'.trans ?_⟩
      rw [hsent, htok, heng]
    · rw [if_neg hfin]
      obtain ⟨hlook', hsent'⟩ := hkeep' r (Or.inl hfin)
      exact ⟨hlook'.trans hlook, hsent'.trans hsent⟩

end InferenceServer
end DiSpec
