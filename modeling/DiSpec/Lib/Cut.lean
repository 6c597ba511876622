/-
# Cutting a list that is sorted by stamps

The first `n` entries of a list sorted by a stamp are taken off.  Either the cut falls
between two stamps, and what goes is exactly what is stamped before some time
(`take_countP`), or two entries of one stamp end up on different sides of it: one of the
two always holds (`cut_cases`).  More generally what satisfies a condition that, once it
fails, fails for the rest is a prefix (`filter_eq_take_countP`).

Which of two entries with the same stamp goes first is decided by the order they had
before sorting, because the sort is stable (`pair_of_insertionSort`).
-/

import Mathlib.Algebra.Order.BigOperators.Group.List
import Mathlib.Algebra.Order.Group.Nat
import Mathlib.Data.List.Sort

namespace Cut

variable {α : Type} {f : α → ℕ} {l : List α}

/-- **A condition that holds up to some entry** and then no longer: those that satisfy it come first. -/
theorem getElem_iff_lt_countP {P : α → Bool} (h : l.Pairwise fun a b => P b → P a) {i : ℕ}
    (hi : i < l.length) : P l[i] ↔ i < l.countP P := by
  induction l generalizing i with
  | nil => exact absurd hi (Nat.not_lt_zero i)
  | cons a l ih =>
    obtain ⟨ha, hl⟩ := List.pairwise_cons.1 h
    by_cases hP : P a
    · rw [List.countP_cons_of_pos hP]
      cases i with
      | zero => simpa using hP
      | succ i =>
        rw [List.getElem_cons_succ, ih hl (Nat.lt_of_succ_lt_succ hi)]
        omega
    · -- nothing after `a` satisfies it either
      have hnone : ∀ b ∈ a :: l, ¬P b := by
        intro b hb
        rcases List.mem_cons.1 hb with rfl | hb
        · exact hP
        · exact fun hPb => hP (ha b hb hPb)
      rw [List.countP_eq_zero.2 hnone]
      exact iff_of_false (hnone _ (List.getElem_mem hi)) (Nat.not_lt_zero i)

/-- Nothing behind the last of them satisfies it. -/
theorem not_of_mem_drop_countP {P : α → Bool} (h : l.Pairwise fun a b => P b → P a) {a : α}
    (ha : a ∈ l.drop (l.countP P)) : ¬P a := by
  obtain ⟨i, hi, rfl⟩ := List.mem_drop_iff_getElem.1 ha
  rw [getElem_iff_lt_countP h]
  omega

/-- The entries that satisfy such a condition are a prefix. -/
theorem filter_eq_take_countP {P : α → Bool} (h : l.Pairwise fun a b => P b → P a) :
    l.filter P = l.take (l.countP P) := by
  rw [← List.take_append_drop (l.countP P) l, List.filter_append, List.take_append_drop]
  have htake : (l.take (l.countP P)).filter P = l.take (l.countP P) := by
    refine List.filter_eq_self.2 fun a ha => ?_
    obtain ⟨i, hi, rfl⟩ := List.mem_take_iff_getElem.1 ha
    exact (getElem_iff_lt_countP h (by omega)).2 (by omega)
  rw [htake, List.filter_eq_nil_iff.2 fun a ha => not_of_mem_drop_countP h ha, List.append_nil]

/-- **A cut between two stamps** takes exactly the entries stamped before `s`. -/
theorem take_countP (h : l.Pairwise fun a b => f a ≤ f b) (s : ℕ) :
    l.take (l.countP fun a => f a < s) = l.filter fun a => f a < s := by
  refine (filter_eq_take_countP (h.imp fun hab hb => ?_)).symm
  rw [decide_eq_true_iff] at hb ⊢
  omega

/-- **Every cut** falls between two stamps or separates two entries of one stamp. -/
theorem cut_cases (h : l.Pairwise fun a b => f a ≤ f b) {n : ℕ} (hn : n ≤ l.length) :
    (∃ s, n = l.countP fun a => f a < s) ∨
      ∃ a ∈ l.take n, ∃ b ∈ l.drop n, f a = f b := by
  have hsplit := List.take_append_drop n l
  rw [← hsplit, List.pairwise_append] at h
  obtain ⟨-, hdrop, hacross⟩ := h
  have hcount : ∀ s, (∀ a ∈ l.take n, f a < s) → (∀ b ∈ l.drop n, ¬ f b < s) →
      n = l.countP fun a => f a < s := by
    intro s hlt hge
    have h₁ : (l.take n).countP (fun a => f a < s) = (l.take n).length :=
      List.countP_eq_length.2 (by simpa using hlt)
    have h₂ : (l.drop n).countP (fun a => f a < s) = 0 := List.countP_eq_zero.2 (by simpa using hge)
    rw [← hsplit, List.countP_append, h₁, h₂, List.length_take]
    omega
  by_cases hsame : ∃ a ∈ l.take n, ∃ b ∈ l.drop n, f a = f b
  · exact Or.inr hsame
  · left
    cases hd : l.drop n with
    | nil =>
      refine ⟨((l.take n).map f).sum + 1, hcount _ (fun a ha => ?_) (fun b hb => ?_)⟩
      · have := List.single_le_sum (by simp) (f a) (List.mem_map_of_mem (f := f) ha)
        omega
      · rw [hd] at hb
        exact absurd hb List.not_mem_nil
    | cons b rest =>
      have hb : b ∈ l.drop n := by rw [hd]; exact List.mem_cons_self
      refine ⟨f b, hcount _ (fun a ha => ?_) (fun b' hb' => ?_)⟩
      · exact lt_of_le_of_ne (hacross a ha b hb) fun heq => hsame ⟨a, ha, b, hb, heq⟩
      · rw [hd] at hdrop hb'
        rcases List.mem_cons.1 hb' with rfl | hb'
        · exact lt_irrefl _
        · exact not_lt.2 ((List.pairwise_cons.1 hdrop).1 b' hb')

/-- Two entries of a list are in one order or the other. -/
theorem pair_or_pair {a b : α} (ha : a ∈ l) (hb : b ∈ l) (hne : a ≠ b) :
    [a, b].Sublist l ∨ [b, a].Sublist l := by
  induction l with
  | nil => exact absurd ha List.not_mem_nil
  | cons c l ih =>
    rcases List.mem_cons.1 ha with rfl | ha'
    · have hb' : b ∈ l := (List.mem_cons.1 hb).resolve_left (Ne.symm hne)
      exact Or.inl ((List.singleton_sublist.2 hb').cons_cons a)
    · rcases List.mem_cons.1 hb with rfl | hb'
      · exact Or.inr ((List.singleton_sublist.2 ha').cons_cons b)
      · exact (ih ha' hb').imp (fun h => h.cons c) fun h => h.cons c

/-- Two entries of a list without repetition are in one order only. -/
theorem not_pair_of_pair {a b : α} (hn : l.Nodup) (h : [a, b].Sublist l) : ¬ [b, a].Sublist l := by
  induction l with
  | nil => exact absurd h (by simp)
  | cons c l ih =>
    intro h'
    obtain ⟨hc, hn⟩ := List.nodup_cons.1 hn
    cases h with
    | cons _ h =>
      cases h' with
      | cons _ h' => exact ih hn h h'
      | cons_cons _ h' => exact hc (h.mem (by simp))
    | cons_cons _ h =>
      cases h' with
      | cons _ h' => exact hc (h'.mem (by simp))
      | cons_cons _ h' => exact hc (List.singleton_sublist.1 h)

/-- **The sort is stable**: entries of one stamp keep their order. -/
theorem pair_of_insertionSort {a b : α} (hn : l.Nodup) (hab : f a = f b)
    (h : [a, b].Sublist (l.insertionSort fun x y => f x ≤ f y)) : [a, b].Sublist l := by
  have hperm := List.perm_insertionSort (fun x y => f x ≤ f y) l
  have hn' := hperm.nodup_iff.2 hn
  have hne : a ≠ b := by
    rintro rfl
    exact not_pair_of_pair hn' h h
  have ha : a ∈ l := hperm.mem_iff.1 (h.mem (by simp))
  have hb : b ∈ l := hperm.mem_iff.1 (h.mem (by simp))
  refine (pair_or_pair ha hb hne).resolve_right fun hba => ?_
  exact not_pair_of_pair hn' h (List.pair_sublist_insertionSort (le_of_eq hab.symm) hba)

end Cut
