/-
# The index of each request's last token

`step` samples from the rows that `last_idx` picks.  The batch is flat, so the k-th
entry has to lie in the k-th sampled request's slice and be its last index
(`Batch.Aligned`).  Each entry is the cursor less one, which is right for a slice that
is not empty.  None is: a prompt without tokens never becomes a slice, as its chunk
raises before an entry is made for it.

`lastIdx_aligned` says so for every state, and of the rows that a step picks.
-/

import DiSpec.Sched.Outputs

namespace DiSpec

open Slice

/-- The slices of a flat batch: request, offset and number of tokens. -/
def flatSlices : ℕ → List ℕ → List SeqMeta → List (ℕ × ℕ × ℕ)
  | off, r :: rs, info :: infos => (r, off, info.qLen) :: flatSlices (off + info.qLen) rs infos
  | _, _, _ => []

/-- The slices of the requests sampled from, in order. -/
def Batch.sampledSlices (b : Batch) : List (ℕ × ℕ × ℕ) :=
  (((flatSlices 0 b.batch b.seqMeta).zip b.sampled).filter fun p => p.2).map Prod.fst

/-- **Every entry of `last_idx` is its request's last token**: the k-th lies in the k-th sampled
slice `[offset, offset + q_len)` and is its last index. -/
def Batch.Aligned (b : Batch) : Prop :=
  List.Forall₂ (fun (i : ℤ) (s : ℕ × ℕ × ℕ) =>
    (s.2.1 : ℤ) ≤ i ∧ i < s.2.1 + s.2.2 ∧ i = s.2.1 + s.2.2 - 1) b.lastIdx b.sampledSlices

instance (b : Batch) : Decidable b.Aligned := inferInstanceAs (Decidable (List.Forall₂ _ _ _))

/-- The slices as triples, `off` tokens being before the first one. -/
def placed : ℕ → List Slice → List (ℕ × ℕ × ℕ)
  | _, [] => []
  | off, s :: sl => (s.req, off, s.len) :: placed (off + s.len) sl

theorem flatSlices_eq_placed (off : ℕ) (infos : List SeqMeta) (sl : List Slice)
    (h : infos.map SeqMeta.qLen = sl.map len) : flatSlices off (sl.map Slice.req) infos = placed off sl := by
  induction sl generalizing off infos with
  | nil => rfl
  | cons s sl ih =>
    cases infos with
    | nil => cases h
    | cons info infos =>
      obtain ⟨hlen, hrest⟩ := List.cons.inj h
      rw [List.map_cons, flatSlices, placed, hlen, ih _ _ hrest]

/-- The sampled ones among the placed slices. -/
def placedSampled (off : ℕ) (sl : List Slice) : List (ℕ × ℕ × ℕ) :=
  (((placed off sl).zip (sl.map Slice.sampled)).filter fun p => p.2).map Prod.fst

theorem placedSampled_cons (off : ℕ) (s : Slice) (sl : List Slice) :
    placedSampled off (s :: sl) =
      (if s.sampled then [(s.req, off, s.len)] else []) ++ placedSampled (off + s.len) sl := by
  unfold placedSampled
  rw [placed, List.map_cons, List.zip_cons_cons, List.filter_cons]
  split <;> rfl

theorem map_fst_placedSampled (off : ℕ) (sl : List Slice) :
    (placedSampled off sl).map Prod.fst = (sl.filter fun s => s.sampled).map Slice.req := by
  induction sl generalizing off with
  | nil => rfl
  | cons s sl ih =>
    rw [placedSampled_cons, List.map_append, ih, List.filter_cons]
    split <;> rfl

/-- A placed slice lies within the batch. -/
theorem placedSampled_bound (off : ℕ) (sl : List Slice) :
    ∀ s ∈ placedSampled off sl, s.2.1 + s.2.2 ≤ off + total sl := by
  induction sl generalizing off with
  | nil => simp [placedSampled, placed]
  | cons s sl ih =>
    intro s' hs'
    have htot : total (s :: sl) = s.len + total sl := by simp [total]
    rw [placedSampled_cons, List.mem_append] at hs'
    rcases hs' with hs' | hs'
    · split at hs'
      · obtain rfl := List.mem_singleton.1 hs'
        show off + s.len ≤ _
        omega
      · cases hs'
    · have := ih _ s' hs'
      omega

/-- **The entries are right**, as no slice is empty. -/
theorem lastIdxs_aligned (off : ℕ) (sl : List Slice) (h : ∀ s ∈ sl, 1 ≤ s.len) :
    List.Forall₂ (fun (i : ℤ) (s : ℕ × ℕ × ℕ) =>
        (s.2.1 : ℤ) ≤ i ∧ i < s.2.1 + s.2.2 ∧ i = s.2.1 + s.2.2 - 1)
      (lastIdxs off sl) (placedSampled off sl) := by
  induction sl generalizing off with
  | nil => exact .nil
  | cons s sl ih =>
    rw [List.forall_mem_cons] at h
    have hrest := ih (off + s.len) h.2
    rw [lastIdxs, placedSampled_cons]
    cases hs : s.sampled with
    | false => exact hrest
    | true =>
      rw [if_pos rfl, if_pos rfl, List.singleton_append]
      refine .cons ?_ hrest
      have hone := h.1
      show (off : ℤ) ≤ ((off + s.len : ℕ) : ℤ) - 1 ∧ ((off + s.len : ℕ) : ℤ) - 1 < off + s.len ∧
        ((off + s.len : ℕ) : ℤ) - 1 = off + s.len - 1
      omega

/-- **What alignment is for**: `hidden[idx]` exists and gives the last row of each slice. -/
theorem indexRows_of_aligned {Y : Type} (hidden : List Y) {is : List ℤ} {ss : List (ℕ × ℕ × ℕ)}
    (h : List.Forall₂ (fun (i : ℤ) (s : ℕ × ℕ × ℕ) =>
      (s.2.1 : ℤ) ≤ i ∧ i < s.2.1 + s.2.2 ∧ i = s.2.1 + s.2.2 - 1) is ss)
    (hin : ∀ s ∈ ss, s.2.1 + s.2.2 ≤ hidden.length) :
    ∃ rows, indexRows hidden is = .ok rows ∧
      List.Forall₂ (fun row s => hidden[s.2.1 + s.2.2 - 1]? = some row) rows ss := by
  induction h with
  | nil => exact ⟨[], rfl, .nil⟩
  | @cons i s is ss hi hrest ih =>
    obtain ⟨rows, hrows, hall⟩ := ih fun s' hs' => hin s' (List.mem_cons_of_mem _ hs')
    obtain ⟨hlo, hhi, heq⟩ := hi
    have hle := hin s List.mem_cons_self
    have hnat : i.toNat = s.2.1 + s.2.2 - 1 := by omega
    have hlt : s.2.1 + s.2.2 - 1 < hidden.length := by omega
    have hget : hidden[(if i < 0 then i + hidden.length else i).toNat]? =
        some hidden[s.2.1 + s.2.2 - 1] := by
      rw [if_neg (by omega), hnat]
      exact List.getElem?_eq_getElem hlt
    refine ⟨hidden[s.2.1 + s.2.2 - 1] :: rows, ?_, .cons (List.getElem?_eq_getElem hlt) hall⟩
    rw [indexRows, hget, hrows]
    exact if_neg (by omega)

namespace ContinuousBatchingEngine

variable {X D R G : Type} {e e₁ : ContinuousBatchingEngine D R G} {b : Batch} {dec new : List Slice}

theorem Schedules.sampledSlices (h : Schedules e (.ok ()) e₁ b dec new) :
    b.sampledSlices = placedSampled 0 (dec ++ new) := by
  rw [Batch.sampledSlices, h.parallel.batch, h.flags rfl, flatSlices_eq_placed _ _ _ h.parallel.widths]
  rfl

/-- The batch of a schedule that returns is aligned. -/
theorem Schedules.aligned (h : Schedules e (.ok ()) e₁ b dec new) : b.Aligned := by
  rw [Batch.Aligned, h.sampledSlices, h.parallel.lastIdx]
  refine lastIdxs_aligned 0 _ fun s hs => ?_
  rcases List.mem_append.1 hs with hs | hs
  · exact (h.one s hs).1.ge
  · exact h.positive s hs

end ContinuousBatchingEngine

open ContinuousBatchingEngine

variable {X D R G : Type} [Zero D] [Add X] [Field R] [LinearOrder R]

/-- **Every request is sampled from its own row.**  In every state that calls lead to, raising or not,
whatever their prompts are: the batch of a step is aligned, its k-th entry of `last_idx` being the last
index of the k-th sampled request's slice; and of the rows of its forward, `hidden[idx]` picks one for
each sampled request, the last one of its own. -/
theorem lastIdx_aligned (torch : Torch R) (src : Source R G) (T : Transformer X D R)
    (numBlocks blockSize maxBatchTokens : ℕ) (chunkSize : Option ℕ) (rng : G) (cs : List (Call D R)) :
    let e := leaves torch src T.runner (init T numBlocks blockSize maxBatchTokens chunkSize rng) cs
    ∀ e₁ b, e.schedule = (.ok (), e₁, b) →
      b.Aligned ∧ sampleBatch b = b.sampledSlices.map Prod.fst ∧
      ∀ hidden : List X, hidden.length = b.tokenIds.length →
        ∃ rows, indexRows hidden b.lastIdx = .ok rows ∧
          List.Forall₂ (fun row s => hidden[s.2.1 + s.2.2 - 1]? = some row) rows b.sampledSlices := by
  intro e e₁ b heq
  have hq : Queues e :=
    (init_queues T numBlocks blockSize maxBatchTokens chunkSize rng).leaves torch src T.runner cs
  obtain ⟨res, e₂, b', dec, new, heq', hs⟩ := schedule_any hq
  obtain ⟨rfl, h₁⟩ := Prod.mk.inj (heq'.symm.trans heq)
  obtain ⟨rfl, rfl⟩ := Prod.mk.inj h₁
  refine ⟨hs.aligned, ?_, fun hidden hlen => indexRows_of_aligned hidden hs.aligned fun s hs' => ?_⟩
  · rw [hs.sampleBatch, hs.sampledSlices, map_fst_placedSampled, hs.toSample rfl]
  · rw [hs.sampledSlices] at hs'
    have := placedSampled_bound 0 _ s hs'
    rw [hlen, hs.parallel.tokenIds]
    omega

/-- The hypotheses are satisfiable: a decode row, a prompt that ends and one that does not. -/
theorem lastIdx_aligned_mixed :
    let torch : Torch ℚ := ⟨id, fun _ => []⟩
    let src : Source ℚ Unit := ⟨fun g => (0, g), fun _ g => (0, g)⟩
    let cs : List (Call ℤ ℚ) := [.addRequest ⟨[0], 3, .default, none, 0, none⟩, .step,
      .addRequest ⟨[1, 2], 2, .default, none, 0, none⟩, .addRequest ⟨[0, 1, 2], 2, .default, none, 0, none⟩]
    let e := leaves torch src sumModel.runner (init sumModel 8 2 8 (some 2) ()) cs
    e.schedule.2.2.sampledSlices = [(0, 0, 1), (1, 1, 2)] ∧ e.schedule.2.2.Aligned :=
  ⟨by decide +kernel, (lastIdx_aligned ⟨id, fun _ => []⟩ ⟨fun g => (0, g), fun _ g => (0, g)⟩ sumModel 8 2 8
    (some 2) () [.addRequest ⟨[0], 3, .default, none, 0, none⟩, .step,
      .addRequest ⟨[1, 2], 2, .default, none, 0, none⟩, .addRequest ⟨[0, 1, 2], 2, .default, none, 0, none⟩]
    _ _ (Prod.ext (by decide +kernel) rfl)).1⟩

/-- A request without a prompt stops the step that reaches it, and no row is picked for it. -/
example : ((addRequest (G := Unit) (init sumModel 4 2 8 none ()) ⟨[], 2, .default, none, 0, none⟩).2.schedule).1 =
    .error .IndexError := by decide +kernel

end DiSpec
