/-
# The flat batch as slices

`step` builds one flat batch out of parallel lists.  Each request that takes part
contributes a `Slice`: positions `start`, …, `start + len - 1` of its table, and
whether a token is sampled from its last row.  `Describes` says that the parallel
lists are those of a list of slices; adding a request to the batch adds a slice
(`Describes.snoc`).

`indexRows_lastIdxs` is where the lists meet again: the rows that `last_idx` picks
out of the hidden rows are, in order, the last rows of the sampled slices.
-/

import DiSpec.Engine.Causal
import DiSpec.Sched.Scheduler

namespace DiSpec

/-- What one request contributes to a batch. -/
structure Slice where
  req : ℕ
  blockIds : List ℕ
  start : ℕ
  len : ℕ
  sampled : Bool

namespace Slice

variable {D : Type}

/-- The slice as a segment of the forward, `base` and `tok` giving the supplied KV and
the token string of each request. -/
def segment (base : ℕ → BaseKV D) (tok : ℕ → ℕ → ℕ) (s : Slice) : Segment D :=
  ⟨s.blockIds, s.start, s.len, base s.req, tok s.req⟩

/-- The number of tokens of a list of slices. -/
def total (sl : List Slice) : ℕ := (sl.map len).sum

theorem total_snoc (sl : List Slice) (s : Slice) : total (sl ++ [s]) = total sl + s.len := by
  simp [total]

/-- The flat indices of the last tokens of the sampled slices, `off` tokens being before
the first one. -/
def lastIdxs : ℕ → List Slice → List ℤ
  | _, [] => []
  | off, s :: sl =>
    if s.sampled then (((off + s.len : ℕ) : ℤ) - 1) :: lastIdxs (off + s.len) sl
    else lastIdxs (off + s.len) sl

theorem lastIdxs_snoc (off : ℕ) (sl : List Slice) (s : Slice) :
    lastIdxs off (sl ++ [s]) = lastIdxs off sl ++
      if s.sampled then [(((off + total sl + s.len : ℕ) : ℤ) - 1)] else [] := by
  induction sl generalizing off with
  | nil =>
    rw [List.nil_append, lastIdxs, lastIdxs, show off + total [] + s.len = off + s.len from rfl]
    rfl
  | cons s' sl ih =>
    have htot : off + s'.len + total sl + s.len = off + total (s' :: sl) + s.len := by
      rw [total, total, List.map_cons, List.sum_cons]
      omega
    rw [List.cons_append, lastIdxs, lastIdxs, ih, htot]
    split <;> rfl

end Slice

open Slice

/-- The parallel lists of the batch are those of the slices. -/
structure Describes {D : Type} (base : ℕ → BaseKV D) (tok : ℕ → ℕ → ℕ) (bs : ℕ) (b : Batch)
    (sl : List Slice) : Prop where
  batch : b.batch = sl.map Slice.req
  tokenIds : b.tokenIds = Segment.tokens (sl.map (segment base tok))
  positions : b.positions = Segment.positions (sl.map (segment base tok))
  writeSlots : b.writeSlots = Segment.slots bs (sl.map (segment base tok))
  seqMeta : b.seqMeta = (sl.map (segment base tok)).map Segment.info
  cursor : b.cursor = total sl
  lastIdx : b.lastIdx = lastIdxs 0 sl

section

variable {D : Type} {base : ℕ → BaseKV D} {tok : ℕ → ℕ → ℕ} {bs : ℕ} {b : Batch} {sl : List Slice}

theorem entries_append (segs segs' : List (Segment D)) :
    Segment.entries (segs ++ segs') = Segment.entries segs ++ Segment.entries segs' :=
  List.flatMap_append

/-- An empty batch has no slices. -/
theorem Describes.nil {G R : Type} (e : ContinuousBatchingEngine D R G) :
    Describes base tok bs e.emptyBatch [] := ⟨rfl, rfl, rfl, rfl, rfl, rfl, rfl⟩

/-- **One more request in the batch is one more slice.** -/
theorem Describes.snoc (h : Describes base tok bs b sl) (s : Slice) {b' : Batch}
    (hbatch : b'.batch = b.batch ++ [s.req])
    (htok : b'.tokenIds = b.tokenIds ++ (List.range' s.start s.len).map (tok s.req))
    (hpos : b'.positions = b.positions ++ List.range' s.start s.len)
    (hslots : b'.writeSlots = b.writeSlots ++
      (List.range' s.start s.len).map (Paging.slotAt bs s.blockIds))
    (hmeta : b'.seqMeta = b.seqMeta ++ [⟨s.blockIds, s.len, s.start + s.len⟩])
    (hcursor : b'.cursor = b.cursor + s.len)
    (hlast : b'.lastIdx = b.lastIdx ++
      if s.sampled then [(((b.cursor + s.len : ℕ) : ℤ) - 1)] else []) :
    Describes base tok bs b' (sl ++ [s]) := by
  have hone : Segment.entries [segment base tok s] =
      (List.range' s.start s.len).map (Prod.mk (segment base tok s)) := by
    rw [Segment.entries_cons]
    exact List.append_nil _
  refine ⟨?_, ?_, ?_, ?_, ?_, ?_, ?_⟩
  · rw [hbatch, h.batch, List.map_append]
    rfl
  · rw [htok, h.tokenIds, Segment.tokens, Segment.tokens, List.map_append, entries_append,
      List.map_append, List.map_singleton, hone, List.map_map]
    rfl
  · rw [hpos, h.positions, Segment.positions, Segment.positions, List.map_append, entries_append,
      List.map_append, List.map_singleton, hone, List.map_map]
    exact congrArg _ (List.map_id _).symm
  · rw [hslots, h.writeSlots, Segment.slots, Segment.slots, List.map_append, entries_append,
      List.map_append, List.map_singleton, hone, List.map_map]
    rfl
  · rw [hmeta, h.seqMeta, List.map_append, List.map_append]
    rfl
  · rw [hcursor, h.cursor, total_snoc]
  · rw [hlast, h.lastIdx, h.cursor, lastIdxs_snoc, Nat.zero_add]

/-- What `Describes` reads of a batch. -/
theorem Describes.congr (h : Describes base tok bs b sl) {b' : Batch} (h₁ : b'.batch = b.batch)
    (h₂ : b'.tokenIds = b.tokenIds) (h₃ : b'.positions = b.positions)
    (h₄ : b'.writeSlots = b.writeSlots) (h₅ : b'.seqMeta = b.seqMeta) (h₆ : b'.cursor = b.cursor)
    (h₇ : b'.lastIdx = b.lastIdx) : Describes base tok bs b' sl :=
  ⟨h₁.trans h.batch, h₂.trans h.tokenIds, h₃.trans h.positions, h₄.trans h.writeSlots,
    h₅.trans h.seqMeta, h₆.trans h.cursor, h₇.trans h.lastIdx⟩

/-- The loop of `hidden[idx]` from slice to slice, the rows `pre` being those of the slices
before. -/
theorem indexRows_lastIdxs_from {X : Type} (hid : Segment D × ℕ → X) (pre : List X)
    (hlen : ∀ s ∈ sl, 1 ≤ s.len) :
    indexRows (pre ++ (Segment.entries (sl.map (segment base tok))).map hid)
        (lastIdxs pre.length sl) =
      .ok ((sl.filter fun s => s.sampled).map fun s =>
        hid (segment base tok s, s.start + s.len - 1)) := by
  induction sl generalizing pre with
  | nil => rfl
  | cons s sl ih =>
    have hs := hlen s List.mem_cons_self
    set rows := (List.range' s.start s.len).map fun p => hid (segment base tok s, p) with hrows
    have hsplit : pre ++ (Segment.entries ((s :: sl).map (segment base tok))).map hid =
        (pre ++ rows) ++ (Segment.entries (sl.map (segment base tok))).map hid := by
      rw [List.map_cons, Segment.entries_cons, List.map_append, List.map_map, List.append_assoc]
      rfl
    have hrlen : (pre ++ rows).length = pre.length + s.len := by simp [hrows]
    have hih := ih (pre ++ rows) fun s' hs' => hlen s' (List.mem_cons_of_mem _ hs')
    rw [hrlen] at hih
    rw [hsplit, lastIdxs]
    cases hsam : s.sampled with
    | false =>
      rw [List.filter_cons_of_neg (by simp [hsam]), if_neg (by simp)]
      exact hih
    | true =>
      rw [List.filter_cons_of_pos (by simp [hsam]), List.map_cons, if_pos rfl, indexRows, hih]
      have hnat : (((pre.length + s.len : ℕ) : ℤ) - 1) = ((pre.length + s.len - 1 : ℕ) : ℤ) := by omega
      have hget : ((pre ++ rows) ++ (Segment.entries (sl.map (segment base tok))).map hid)[
          pre.length + s.len - 1]? = some (hid (segment base tok s, s.start + s.len - 1)) := by
        rw [List.getElem?_append_left (by omega), List.getElem?_append_right (by omega), hrows,
          List.getElem?_map, List.getElem?_range' (by omega)]
        simp only [Option.map_some]
        exact congrArg (fun p => some (hid (segment base tok s, p))) (by omega)
      rw [hnat, if_neg (by omega), Int.toNat_natCast, hget]
      simp only
      rw [if_neg (by omega)]

/-- **The rows that `last_idx` picks** are the last rows of the sampled slices, in order. -/
theorem indexRows_lastIdxs {X : Type} (base : ℕ → BaseKV D) (tok : ℕ → ℕ → ℕ)
    (hid : Segment D × ℕ → X) (hlen : ∀ s ∈ sl, 1 ≤ s.len) :
    indexRows ((Segment.entries (sl.map (segment base tok))).map hid) (lastIdxs 0 sl) =
      .ok ((sl.filter fun s => s.sampled).map fun s =>
        hid (segment base tok s, s.start + s.len - 1)) :=
  indexRows_lastIdxs_from hid [] hlen

/-- There is something to sample iff some slice is sampled. -/
theorem lastIdxs_eq_nil (off : ℕ) (sl : List Slice) :
    lastIdxs off sl = [] ↔ sl.filter (fun s => s.sampled) = [] := by
  induction sl generalizing off with
  | nil => simp [lastIdxs]
  | cons s sl ih =>
    rw [lastIdxs]
    cases hsam : s.sampled with
    | false => rw [List.filter_cons_of_neg (by simp [hsam]), if_neg (by simp), ih]
    | true => rw [List.filter_cons_of_pos (by simp [hsam]), if_pos rfl]; simp

/-- **The requests sampled from** are those of the sampled slices. -/
theorem sampleBatch_eq (hbatch : b.batch = sl.map Slice.req) (hsam : b.sampled = sl.map Slice.sampled) :
    ContinuousBatchingEngine.sampleBatch b = (sl.filter fun s => s.sampled).map Slice.req := by
  rw [ContinuousBatchingEngine.sampleBatch, hbatch, hsam]
  clear hbatch hsam
  induction sl with
  | nil => rfl
  | cons s sl ih =>
    rw [List.map_cons, List.map_cons, List.zip_cons_cons]
    cases hs : s.sampled with
    | false => rw [List.filter_cons_of_neg (by simp), List.filter_cons_of_neg (by simp [hs]), ih]
    | true =>
      rw [List.filter_cons_of_pos rfl, List.filter_cons_of_pos (by simp [hs]), List.map_cons, ih,
        List.map_cons]

end

end DiSpec
