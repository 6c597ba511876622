/-
# The batch of a step

`schedule_spec` puts the two phases together: `schedule` raises `OutOfBlocksError`
under a condition on the state before the step, or collects a batch that slices
describe.  Which requests a token will be sampled for is a function of the state
before the step too (`toSample`).
-/

import DiSpec.Sched.Prefill

namespace DiSpec
namespace ContinuousBatchingEngine

variable {X D R G : Type}
variable [Zero D] [Add X] {T : Transformer X D R} {base : ℕ → BaseKV D}
  {e : ContinuousBatchingEngine D R G} {sl : List Slice}

omit [Zero D] [Add X] in
/-- The order of the waiting queue depends on the requests only. -/
theorem admissionQueue_congr {e e' : ContinuousBatchingEngine D R G} (hreq : e'.req = e.req) (l : List ℕ) :
    l.insertionSort e'.admissionOrder = l.insertionSort e.admissionOrder := by
  have hany : ∀ (p q : ℕ → ℕ → Prop) [DecidableRel p] [DecidableRel q], p = q →
      l.insertionSort p = l.insertionSort q := by
    rintro p q _ _ rfl
    congr
  refine hany _ _ ?_
  unfold admissionOrder
  rw [hreq]

omit [Zero D] [Add X] in
/-- The running requests that get a decode token. -/
def decoding (e : ContinuousBatchingEngine D R G) : List ℕ := e.running.take e.maxBatchTokens

/-- The requests that a token will be sampled for: the running ones within the budget, and
then the prompts that end. -/
def toSample (e : ContinuousBatchingEngine D R G) : List ℕ :=
  e.decoding ++ e.finishing (e.maxBatchTokens - e.running.length)
    (e.cache.manager.freeList.length - e.decoding.countP e.onBoundary)
    (e.prefilling ++ e.waiting.insertionSort e.admissionOrder)

/-- **Phases 1 and 2** raise iff more of the requests that decode stand on a block boundary
than blocks are free, and then `OutOfBlocksError`.  Otherwise the batch is described by
slices, and those sampled from are known before the step. -/
theorem schedule_spec (h : Inv T base e [] []) :
    (e.cache.manager.freeList.length < e.decoding.countP e.onBoundary ∧
      ∃ msg e' b, e.schedule = (.error (.OutOfBlocksError msg), e', b)) ∨
    e.decoding.countP e.onBoundary ≤ e.cache.manager.freeList.length ∧
    ∃ e' b sl, e.schedule = (.ok (), e', b) ∧ Inv T base e' sl [] ∧
      Describes base e'.tokensOf e'.cache.blockSize b sl ∧ b.sampled = sl.map Slice.sampled ∧
      (∀ s ∈ sl, 1 ≤ s.len) ∧ Scheduled e e' ∧ Grows e e' sl ∧ Imported e sl b.imports ∧
      (sl.filter fun s => s.sampled).map Slice.req = e.toSample := by
  have hlists := h.lists
  simp only [List.nodup_append] at hlists
  obtain ⟨⟨⟨hnw, hnp, -⟩, hnr, -⟩, -⟩ := hlists
  rcases decodeLoop_spec e.running h hnr (fun r hr => ⟨hr, fun hm => by simp [Sliced] at hm⟩)
      (Describes.nil e) with ⟨hshort, msg, e', b', heq⟩ |
    ⟨henough, e₁, b₁, dec, heq, hinv, hd, hreqs, hone, hsched, hgrow, hw, hp, hrun, hq, hbud, himp, hfree⟩
  · refine Or.inl ⟨hshort, msg, e', b', ?_⟩
    rw [schedule, heq]
  rw [List.nil_append] at hinv hd
  set queue := e.waiting.insertionSort e.admissionOrder with hqueue
  have hperm : queue.Perm e.waiting := List.perm_insertionSort _ _
  have hsort : e₁.waiting.insertionSort e₁.admissionOrder = queue := by
    rw [hw, admissionQueue_congr hq]
  set e₂ : ContinuousBatchingEngine D R G := { e₁ with waiting := queue } with he₂
  set b₂ : Batch := { b₁ with sampled := List.replicate b₁.batch.length true } with hb₂
  have hinv₂ : Inv T base e₂ dec [] := hinv.congr rfl rfl (hw ▸ hperm) rfl rfl rfl rfl rfl rfl
  have hsched₂ : Scheduled e e₂ := hsched.trans
    ⟨fun _ => .refl _, fun _ h => h, rfl, rfl, rfl, rfl, rfl, rfl, rfl, rfl,
      fun _ t ht => ⟨t, ht, List.prefix_rfl, le_rfl⟩⟩
  have hdec : ∀ s ∈ dec, s.req ∈ e.running := fun s hs =>
    List.mem_of_mem_take (hreqs ▸ List.mem_map_of_mem hs)
  have hidle : ∀ r, r ∈ e.prefilling ∨ r ∈ e.waiting → ¬Sliced dec r := by
    rintro r hr ⟨s, hs, rfl⟩
    obtain ⟨hnw, hnp, -⟩ := h.only_running (hdec s hs)
    exact hr.elim hnp hnw
  have hnodup : (e.prefilling ++ queue).Nodup := by
    refine List.nodup_append.2 ⟨hnp, hperm.nodup_iff.2 hnw, fun a ha c hc hac => ?_⟩
    exact (h.only_prefilling ha).1 (hac ▸ hperm.mem_iff.1 hc)
  have hqueued : ∀ r ∈ e.prefilling ++ queue, r ∈ e.prefilling ∨ r ∈ e.waiting := fun r hr =>
    (List.mem_append.1 hr).imp_right hperm.mem_iff.1
  have hchunk : b₂.budget = 0 ∨ 0 < e₂.chunkSize := by
    rcases h.chunk with hc | hm
    · exact Or.inr (hsched₂.chunkSize ▸ hc)
    · have hm : e.emptyBatch.budget = 0 := hm
      exact Or.inl (by rw [show b₂.budget = b₁.budget from rfl, hbud]; omega)
  obtain ⟨e', b', new, hpre⟩ :=
    prefillLoop_spec (e.prefilling ++ queue) hinv₂ hnodup
      (fun r hr => by
        refine ⟨?_, hidle r (hqueued r hr)⟩
        rw [show e₂.prefilling = e.prefilling from hp]
        exact (hqueued r hr).imp_right hperm.mem_iff.2)
      (b := b₂) (hd.congr rfl rfl rfl rfl rfl rfl rfl) hchunk
  obtain ⟨l, himp', himported⟩ := hpre.imports
  refine Or.inr ⟨henough, e', b', dec ++ new, ?_, hpre.inv, hpre.describes, ?_, fun s hs => ?_,
    hsched₂.trans hpre.scheduled, ?_, fun ev => ?_, ?_⟩
  · rw [schedule, heq]
    simp only [hsort]
    have hok := hpre.ok
    rw [← hp] at hok
    exact hok
  · rw [hpre.sampled, hb₂, List.map_append, hd.batch, List.length_map]
    refine congrArg (· ++ _) (List.ext_getElem (by simp) fun i h₁ h₂ => ?_)
    rw [List.getElem_replicate, List.getElem_map, (hone _ (List.getElem_mem _)).2]
  · rcases List.mem_append.1 hs with hs | hs
    · exact (hone s hs).1.ge
    · exact (hpre.slices s hs).2
  · exact hgrow.append ⟨hpre.grows.starts, hpre.grows.same⟩ fun s hs =>
      hidle _ (hqueued _ (hpre.slices s hs).1)
  · rw [himp', show b₂.imports = [] from himp, List.nil_append, himported ev,
      show e₂.cache.blockSize = e.cache.blockSize from hsched₂.blockSize]
    constructor
    · rintro ⟨s, hs, hw, hrest⟩
      exact ⟨s, List.mem_append_right _ hs, hperm.mem_iff.1 hw, hrest⟩
    · rintro ⟨s, hs, hw, hrest⟩
      rcases List.mem_append.1 hs with hs | hs
      · exact absurd ⟨s, hs, rfl⟩ (hidle _ (Or.inr hw))
      · exact ⟨s, hs, hperm.mem_iff.2 hw, hrest⟩
  · have hall : dec.filter (fun s => s.sampled) = dec := List.filter_eq_self.2 fun s hs => (hone s hs).2
    have hleft : e₂.cache.manager.freeList.length =
        e.cache.manager.freeList.length - e.decoding.countP e.onBoundary := by
      rw [hfree]
      exact (Nat.add_sub_cancel _ _).symm
    rw [List.filter_append, List.map_append, hall, hreqs, hpre.finishing, toSample, hleft,
      show b₂.budget = e.maxBatchTokens - e.running.length from hbud]
    refine congrArg _ (finishing_congr (fun r _ => by rw [show e₂.req = e.req from hq]) hsched₂.chunkSize
      hsched₂.blockSize _ _)

end ContinuousBatchingEngine
end DiSpec
