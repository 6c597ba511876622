/-
# Reference counting over a finite pool

A pool `U` of resources is shared through references.  The implementation keeps
a free list and a dictionary of counts; the abstract state is the multiset
`refs` of references that are out.  `RefCount.Counted` says that the two agree:
the free list holds each resource without a reference once, and the dictionary
holds the multiplicity of each resource that has one.

Three things can happen to a resource and each of them keeps the agreement: a
free one is taken (`Counted.take`), a referenced one gets one more reference
(`Counted.incRef`), a reference is dropped, which frees the resource when it was
the last one (`Counted.decRef_last`, `Counted.decRef`).
-/

import DiSpec.Lib.Dict
import Mathlib.Data.Finset.Card
import Mathlib.Data.Multiset.Count

namespace RefCount

variable {α : Type} [DecidableEq α]

/-- The free list `free` and the counts `rc` record exactly the references `refs`
into the pool `U`. -/
structure Counted (U : Finset α) (free : List α) (rc : Dict α ℕ) (refs : Multiset α) : Prop where
  free_nodup : free.Nodup
  free_iff : ∀ b, b ∈ free ↔ b ∈ U ∧ b ∉ refs
  lookup : ∀ b, rc.lookup b = if b ∈ refs then some (refs.count b) else none
  bounded : ∀ b ∈ refs, b ∈ U

namespace Counted

variable {U : Finset α} {free : List α} {rc : Dict α ℕ} {refs : Multiset α}

/-- A resource has a count iff it has a reference. -/
theorem mem_iff (h : Counted U free rc refs) (b : α) : b ∈ rc ↔ b ∈ refs := by
  rw [← AList.lookup_isSome, h.lookup]
  split <;> simp_all

/-- A resource is free or counted, never both. -/
theorem mem_free_iff (h : Counted U free rc refs) {b : α} (hb : b ∈ U) : b ∈ free ↔ b ∉ rc := by
  rw [h.free_iff, h.mem_iff]
  exact ⟨fun hf => hf.2, fun hf => ⟨hb, hf⟩⟩

theorem lookup_of_mem (h : Counted U free rc refs) {b : α} (hb : b ∈ refs) :
    rc.lookup b = some (refs.count b) := by
  rw [h.lookup, if_pos hb]

/-- A full pool with nothing counted records no reference. -/
theorem init {free : List α} (hn : free.Nodup) : Counted free.toFinset free ∅ 0 where
  free_nodup := hn
  free_iff b := by simp
  lookup b := by simp
  bounded b hb := absurd hb (Multiset.notMem_zero b)

/-- **Taking the last free resource gives it its first reference.** -/
theorem take {b : α} (h : Counted U (free ++ [b]) rc refs) :
    Counted U free (rc.insert b 1) (b ::ₘ refs) := by
  obtain ⟨hn, hf, hl, hb⟩ := h
  have hbf := (hf b).1 (by simp)
  have hnb : b ∉ free := fun hm => by
    rw [List.nodup_append] at hn
    exact hn.2.2 b hm b (by simp) rfl
  refine ⟨hn.of_append_left, fun c => ?_, fun c => ?_, fun c hc => ?_⟩
  · rw [Multiset.mem_cons, not_or]
    by_cases hcb : c = b
    · subst hcb
      exact ⟨fun hm => absurd hm hnb, fun hm => absurd rfl hm.2.1⟩
    · have := hf c
      rw [List.mem_append, List.mem_singleton, or_iff_left hcb] at this
      rw [this]
      exact ⟨fun hm => ⟨hm.1, hcb, hm.2⟩, fun hm => ⟨hm.1, hm.2.2⟩⟩
  · by_cases hcb : c = b
    · subst hcb
      rw [AList.lookup_insert, if_pos (Multiset.mem_cons_self _ _), Multiset.count_cons_self,
        Multiset.count_eq_zero.2 hbf.2]
    · rw [AList.lookup_insert_ne hcb, hl, Multiset.count_cons_of_ne hcb]
      simp [Multiset.mem_cons, hcb]
  · rcases Multiset.mem_cons.1 hc with rfl | hc
    · exact hbf.1
    · exact hb c hc

/-- **One more reference to a referenced resource.** -/
theorem incRef {b : α} {k : ℕ} (h : Counted U free rc refs) (hk : rc.lookup b = some k) :
    Counted U free (rc.insert b (k + 1)) (b ::ₘ refs) := by
  have hbr : b ∈ refs := (h.mem_iff b).1 (Dict.mem_of_lookup hk)
  have hkc : k = refs.count b := Option.some.inj (hk.symm.trans (h.lookup_of_mem hbr))
  obtain ⟨hn, hf, hl, hb⟩ := h
  refine ⟨hn, fun c => ?_, fun c => ?_, fun c hc => ?_⟩
  · rw [hf, Multiset.mem_cons, not_or]
    refine ⟨fun hm => ⟨hm.1, ?_, hm.2⟩, fun hm => ⟨hm.1, hm.2.2⟩⟩
    rintro rfl
    exact hm.2 hbr
  · by_cases hcb : c = b
    · subst hcb
      rw [AList.lookup_insert, if_pos (Multiset.mem_cons_self _ _), Multiset.count_cons_self, hkc]
    · rw [AList.lookup_insert_ne hcb, hl, Multiset.count_cons_of_ne hcb]
      simp [Multiset.mem_cons, hcb]
  · rcases Multiset.mem_cons.1 hc with rfl | hc
    · exact hb c hbr
    · exact hb c hc

/-- **Dropping the only reference frees the resource.** -/
theorem decRef_last {b : α} (h : Counted U free rc (b ::ₘ refs)) (hk : rc.lookup b = some 1) :
    Counted U (free ++ [b]) (rc.erase b) refs := by
  obtain ⟨hn, hf, hl, hb⟩ := h
  have hbr : b ∉ refs := by
    have h1 : refs.count b + 1 = 1 := by
      have := hl b
      rw [hk, if_pos (Multiset.mem_cons_self _ _), Multiset.count_cons_self] at this
      exact (Option.some.inj this).symm
    exact Multiset.count_eq_zero.1 (by omega)
  have hbf : b ∉ free := fun hm => ((hf b).1 hm).2 (Multiset.mem_cons_self _ _)
  refine ⟨?_, fun c => ?_, fun c => ?_, fun c hc => hb c (Multiset.mem_cons_of_mem hc)⟩
  · rw [List.nodup_append]
    refine ⟨hn, List.nodup_singleton b, fun x hx y hy => ?_⟩
    rw [List.mem_singleton] at hy
    rintro rfl
    exact hbf (hy ▸ hx)
  · rw [List.mem_append, List.mem_singleton, hf, Multiset.mem_cons, not_or]
    by_cases hcb : c = b
    · subst hcb
      exact ⟨fun _ => ⟨hb c (Multiset.mem_cons_self _ _), hbr⟩, fun _ => Or.inr rfl⟩
    · exact ⟨fun hm => hm.elim (fun hm => ⟨hm.1, hm.2.2⟩) (fun hm => absurd hm hcb),
        fun hm => Or.inl ⟨hm.1, hcb, hm.2⟩⟩
  · by_cases hcb : c = b
    · subst hcb
      rw [AList.lookup_erase, if_neg hbr]
    · rw [AList.lookup_erase_ne hcb, hl, Multiset.count_cons_of_ne hcb]
      simp [Multiset.mem_cons, hcb]

/-- **Dropping one of several references keeps the resource out.** -/
theorem decRef {b : α} {k : ℕ} (h : Counted U free rc (b ::ₘ refs))
    (hk : rc.lookup b = some (k + 2)) : Counted U free (rc.insert b (k + 1)) refs := by
  obtain ⟨hn, hf, hl, hb⟩ := h
  have hkc : refs.count b = k + 1 := by
    have := hl b
    rw [hk, if_pos (Multiset.mem_cons_self _ _), Multiset.count_cons_self] at this
    have := Option.some.inj this
    omega
  have hbr : b ∈ refs := Multiset.count_pos.1 (by omega)
  refine ⟨hn, fun c => ?_, fun c => ?_, fun c hc => hb c (Multiset.mem_cons_of_mem hc)⟩
  · rw [hf, Multiset.mem_cons, not_or]
    refine ⟨fun hm => ⟨hm.1, hm.2.2⟩, fun hm => ⟨hm.1, ?_, hm.2⟩⟩
    rintro rfl
    exact hm.2 hbr
  · by_cases hcb : c = b
    · subst hcb
      rw [AList.lookup_insert, if_pos hbr, hkc]
    · rw [AList.lookup_insert_ne hcb, hl, Multiset.count_cons_of_ne hcb]
      simp [Multiset.mem_cons, hcb]

end Counted

end RefCount
