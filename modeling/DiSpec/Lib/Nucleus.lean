/-
# The shortest prefix of a given mass

The entries of a list weigh something.  `Shortest p w m` says that the first `m` weights are the
shortest non-empty prefix that weighs more than `p`.  There is one if the whole list does
(`exists_shortest`), and with weights that are not negative it is what the shifted running sums
select: entry `j` is in it iff what comes before weighs at most `p` (`Shortest.lt_iff`).  It only
grows with `p` (`Shortest.mono`).
-/

import Mathlib.Algebra.Order.BigOperators.Group.List
import Mathlib.Data.Nat.Find

namespace Nucleus

variable {R : Type} [AddCommGroup R] [LinearOrder R] {p p' : R} {w : List R} {m m' : ℕ}

/-- **The shortest non-empty prefix** of `w` that weighs more than `p` has length `m`. -/
structure Shortest (p : R) (w : List R) (m : ℕ) : Prop where
  pos : 1 ≤ m
  exceeds : p < (w.take m).sum
  least : ∀ j, 1 ≤ j → j < m → (w.take j).sum ≤ p

/-- It exists if the whole list weighs more. -/
theorem exists_shortest (hp : 0 ≤ p) (h : p < w.sum) : ∃ m, Shortest p w m ∧ m ≤ w.length := by
  have hex : ∃ j, p < (w.take j).sum := ⟨w.length, by rwa [List.take_length]⟩
  refine ⟨Nat.find hex, ⟨?_, Nat.find_spec hex, fun j _ hj => not_lt.1 (Nat.find_min hex hj)⟩, ?_⟩
  · rw [Nat.one_le_iff_ne_zero, Ne, Nat.find_eq_zero, List.take_zero, List.sum_nil]
    exact not_lt.2 hp
  · exact Nat.find_min' hex (by rwa [List.take_length])

/-- No prefix that weighs more is shorter. -/
theorem Shortest.le (h : Shortest p w m) {j : ℕ} (hj : 1 ≤ j) (hw : p < (w.take j).sum) : m ≤ j := by
  by_contra hlt
  exact absurd hw (not_lt.2 (h.least j hj (not_le.1 hlt)))

/-- **More mass asks for a longer prefix.** -/
theorem Shortest.mono (h : Shortest p w m) (h' : Shortest p' w m') (hle : p ≤ p') : m ≤ m' :=
  h.le h'.pos (hle.trans_lt h'.exceeds)

/-- Weights further back do not matter. -/
theorem Shortest.append (h : Shortest p w m) (hm : m ≤ w.length) (w' : List R) : Shortest p (w ++ w') m where
  pos := h.pos
  exceeds := by
    rw [List.take_append_of_le_length hm]
    exact h.exceeds
  least j hj hlt := by
    rw [List.take_append_of_le_length (hlt.le.trans hm)]
    exact h.least j hj hlt

variable [IsOrderedAddMonoid R]

/-- A longer prefix weighs no less. -/
theorem sum_take_mono (hw : ∀ x ∈ w, 0 ≤ x) {i j : ℕ} (hij : i ≤ j) : (w.take i).sum ≤ (w.take j).sum := by
  obtain ⟨k, rfl⟩ := Nat.exists_eq_add_of_le hij
  rw [List.take_add, List.sum_append, le_add_iff_nonneg_right]
  exact List.sum_nonneg fun x hx => hw x (List.mem_of_mem_drop (List.mem_of_mem_take hx))

/-- **What the shifted running sums select.** -/
theorem Shortest.lt_iff (h : Shortest p w m) (hw : ∀ x ∈ w, 0 ≤ x) (hp : 0 ≤ p) (j : ℕ) :
    j < m ↔ (w.take j).sum ≤ p := by
  constructor
  · intro hj
    rcases Nat.eq_zero_or_pos j with rfl | hpos
    · rwa [List.take_zero, List.sum_nil]
    · exact h.least j hpos hj
  · intro hle
    by_contra hj
    have hmono := sum_take_mono hw (not_lt.1 hj)
    exact absurd (h.exceeds.trans_le hmono) (not_lt.2 hle)

end Nucleus
