/-
# Stacked linear maps

A linear map is the list of the rows of its weight, with a bias or without, and its output is the list of
the products of the rows with the input.  The rows of several maps put under one another make one map, whose
output is that of the first followed by that of the second and so on (`linear_append`, `linear_append_bias`).
So one product does the work of several, and its output is cut apart again at the widths
(`splitLengths_flatten`).
-/

import Mathlib.Data.List.SplitLengths
import Mathlib.Data.Matrix.Mul

namespace Stacked

variable {R : Type} {n : ℕ}

/-- Cutting a concatenation at the lengths of its pieces gives the pieces. -/
theorem splitLengths_flatten {α : Type} (pieces : List (List α)) :
    (pieces.map List.length).splitLengths pieces.flatten = pieces := by
  induction pieces with
  | nil => rfl
  | cons p pieces ih =>
    rw [List.map_cons, List.flatten_cons, List.splitLengths_cons, List.take_left, List.drop_left, ih]

variable [Semiring R]

/-- The map with these rows and this bias at one input. -/
def linear (weight : List (Fin n → R)) (bias : Option (List R)) (x : Fin n → R) : List R :=
  let y := weight.map fun row => x ⬝ᵥ row
  match bias with
  | none => y
  | some b => List.zipWith (· + ·) y b

variable {v w : List (Fin n → R)} {b c : List R} (x : Fin n → R)

theorem length_linear {bias : Option (List R)} (h : ∀ b ∈ bias, b.length = w.length) :
    (linear w bias x).length = w.length := by
  cases bias with
  | none => exact List.length_map _
  | some b =>
    have hb := h b rfl
    unfold linear
    rw [List.length_zipWith, List.length_map, hb, Nat.min_self]

/-- **A stack without biases computes each of its maps.** -/
theorem linear_append : linear (v ++ w) none x = linear v none x ++ linear w none x := List.map_append

/-- **A stack with the biases put under one another computes each of its maps.** -/
theorem linear_append_bias (h : b.length = v.length) :
    linear (v ++ w) (some (b ++ c)) x = linear v (some b) x ++ linear w (some c) x := by
  unfold linear
  dsimp only
  rw [List.map_append, List.zipWith_append (by rw [List.length_map, h])]

end Stacked
