/-
# Programs that draw random numbers

A program that draws is a tree: it returns a value, or draws a number from the
unit interval, or draws an index from a row of weights, and goes on with what it
drew.  The tree has two readings.  `RandM.run` executes it against a generator,
any state that yields numbers and indices.  `RandM.expect`, in
`DiSpec.Lib.RandLaw`, is its expectation when the numbers are uniform on `[0, 1)`
and the indices are drawn with the weights as probabilities.
-/

import Mathlib.Data.Nat.Notation

/-- A program drawing from the numbers `R` and returning a value of type `α`. -/
inductive RandM (R α : Type)
  | pure (a : α)
  | rand (k : R → RandM R α)
  | multinomial (w : List R) (k : ℕ → RandM R α)

/-- A generator with states `G`: its next number of the unit interval, and the index
it draws from a row of weights. -/
structure Source (R G : Type) where
  rand : G → R × G
  multinomial : List R → G → ℕ × G

namespace RandM

variable {R G α β : Type}

/-- Run `x`, then go on with its value. -/
def bind : RandM R α → (α → RandM R β) → RandM R β
  | .pure a, f => f a
  | .rand k, f => .rand fun r => (k r).bind f
  | .multinomial w k, f => .multinomial w fun i => (k i).bind f

/-- Apply a function to the value. -/
def map (f : α → β) (x : RandM R α) : RandM R β := x.bind fun a => .pure (f a)

/-- Run the programs of a list one after the other. -/
def sequence : List (RandM R α) → RandM R (List α)
  | [] => .pure []
  | x :: xs => x.bind fun a => (sequence xs).map (a :: ·)

/-- Execute a program against a generator. -/
def run (src : Source R G) : RandM R α → G → α × G
  | .pure a, g => (a, g)
  | .rand k, g => (k (src.rand g).1).run src (src.rand g).2
  | .multinomial w k, g => (k (src.multinomial w g).1).run src (src.multinomial w g).2

@[simp] theorem run_pure (src : Source R G) (a : α) (g : G) :
    (pure a : RandM R α).run src g = (a, g) := rfl

/-- Running a sequence is running its parts in order. -/
theorem run_bind (src : Source R G) (x : RandM R α) (f : α → RandM R β) (g : G) :
    (x.bind f).run src g = (f (x.run src g).1).run src (x.run src g).2 := by
  induction x generalizing g with
  | pure a => rfl
  | rand k ih => exact ih _ _
  | multinomial w k ih => exact ih _ _

theorem run_map (src : Source R G) (f : α → β) (x : RandM R α) (g : G) :
    (x.map f).run src g = (f (x.run src g).1, (x.run src g).2) :=
  run_bind src x _ g

theorem map_pure (f : α → β) (a : α) : map f (pure a : RandM R α) = pure (f a) := rfl

/-- A sequence yields one value for each part. -/
theorem length_run_sequence (src : Source R G) (l : List (RandM R α)) (g : G) :
    ((sequence l).run src g).1.length = l.length := by
  induction l generalizing g with
  | nil => rfl
  | cons x l ih =>
    rw [sequence, run_bind, run_map, List.length_cons, ih, List.length_cons]

/-- Programs that draw nothing draw nothing in a row. -/
theorem sequence_pure (l : List α) : sequence (l.map (pure : α → RandM R α)) = pure l := by
  induction l with
  | nil => rfl
  | cons a l ih =>
    rw [List.map_cons, sequence, ih]
    rfl

end RandM
