/-
# A bounded counter that does not turn back settles

A counter goes through the values `u 0`, `u 1`, …, each a function of the one before, inside
`[lo, hi]`.  If it never turns back it settles: a value that is repeated is repeated for ever, and
there is room for `hi - lo` others (`Settles.of_noTurn`).
-/

import Mathlib.Algebra.Order.Ring.Int
import Mathlib.Data.Nat.Init

namespace Settle

variable {lo hi : ℤ} {f : ℤ → ℤ} {u : ℕ → ℤ}

/-- **The values settle**: they stay in `[lo, hi]`, never go both up and down, and do not change any more
from the `(hi - lo)`-th on. -/
structure Settles (lo hi : ℤ) (u : ℕ → ℤ) : Prop where
  inRange : ∀ n, lo ≤ u n ∧ u n ≤ hi
  oneWay : (∀ n, u n ≤ u (n + 1)) ∨ ∀ n, u (n + 1) ≤ u n
  still : ∀ n, (hi - lo).toNat ≤ n → u n = u (hi - lo).toNat

/-- A value that is repeated once is repeated for ever. -/
theorem const_of_repeat (hf : ∀ n, u (n + 1) = f (u n)) {m : ℕ} (h : u (m + 1) = u m) {n : ℕ} (hn : m ≤ n) :
    u n = u m := by
  induction n, hn using Nat.le_induction with
  | base => rfl
  | succ n _ ih => rw [hf n, ih, ← hf m, h]

/-- A counter that only goes up settles. -/
theorem still_of_mono (hf : ∀ n, u (n + 1) = f (u n)) (hrange : ∀ n, lo ≤ u n ∧ u n ≤ hi)
    (hmono : ∀ n, u n ≤ u (n + 1)) {n : ℕ} (hn : (hi - lo).toNat ≤ n) : u n = u (hi - lo).toNat := by
  by_cases hrep : ∃ m ≤ (hi - lo).toNat, u (m + 1) = u m
  · obtain ⟨m, hm, heq⟩ := hrep
    rw [const_of_repeat hf heq (hm.trans hn), const_of_repeat hf heq hm]
  · -- otherwise it has gone up at every step, and out of the range
    have hup : ∀ m ≤ (hi - lo).toNat + 1, u 0 + m ≤ u m := by
      intro m
      induction m with
      | zero => intro; simp
      | succ m ih =>
        intro hm
        have hle := ih (by omega)
        have hne : u (m + 1) ≠ u m := fun heq => hrep ⟨m, by omega, heq⟩
        have hge := hmono m
        push_cast
        omega
    have htop := hup _ le_rfl
    have hlo := (hrange 0).1
    have hhi := (hrange ((hi - lo).toNat + 1)).2
    push_cast at htop
    omega

/-- **A counter that never turns back settles.** -/
theorem Settles.of_noTurn (hf : ∀ n, u (n + 1) = f (u n)) (hrange : ∀ n, lo ≤ u n ∧ u n ≤ hi)
    (hup : ∀ x, lo ≤ x → x ≤ hi → x ≤ f x → f x ≤ f (f x))
    (hdown : ∀ x, lo ≤ x → x ≤ hi → f x ≤ x → f (f x) ≤ f x) : Settles lo hi u := by
  rcases le_total (u 0) (u 1) with h | h
  · have hmono : ∀ n, u n ≤ u (n + 1) := by
      intro n
      induction n with
      | zero => exact h
      | succ n ih =>
        rw [hf n] at ih
        rw [hf (n + 1), hf n]
        exact hup (u n) (hrange n).1 (hrange n).2 ih
    exact ⟨hrange, Or.inl hmono, fun n => still_of_mono hf hrange hmono⟩
  · have hanti : ∀ n, u (n + 1) ≤ u n := by
      intro n
      induction n with
      | zero => exact h
      | succ n ih =>
        rw [hf n] at ih
        rw [hf (n + 1), hf n]
        exact hdown (u n) (hrange n).1 (hrange n).2 ih
    refine ⟨hrange, Or.inr hanti, fun n hn => ?_⟩
    -- the counter seen from the other side only goes up
    have hmirror : -u n = -u (-lo - -hi).toNat :=
      @still_of_mono (-hi) (-lo) (fun x => -f (-x)) (fun n => -u n) (fun n => by rw [neg_neg, hf n])
        (fun n => ⟨neg_le_neg (hrange n).2, neg_le_neg (hrange n).1⟩) (fun n => neg_le_neg (hanti n)) n
        (by omega)
    rw [show -lo - -hi = hi - lo by omega] at hmirror
    exact neg_inj.1 hmirror

end Settle
