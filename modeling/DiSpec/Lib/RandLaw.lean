/-
# The law of a program that draws

`RandM.expect` is the expectation of a function of the value of a program, when
the numbers are uniform on `[0, 1)` and an index is drawn with a probability
proportional to its weight; `RandM.prob` is the probability of an event.  The
rules are `expect_bind`, and `expect_rand_ite` for a draw that only decides
between two continuations.

`Lawful` says that the expectation is affine: it is linear and the total mass is
one.  Programs that draw indices from distributions are lawful (`lawful_multinomial`,
`Lawful.bind`), and so is decoding with such a program (`lawful_decode`).
-/

import DiSpec.Lib.Autoregressive
import Mathlib.Data.List.GetD
import Mathlib.MeasureTheory.Integral.Bochner.Set
import Mathlib.MeasureTheory.Measure.Lebesgue.Basic

namespace RandM

variable {α β : Type}

/-- The expectation of `f` of the value. -/
noncomputable def expect : RandM ℝ α → (α → ℝ) → ℝ
  | .pure a, f => f a
  | .rand k, f => ∫ r in Set.Ico (0 : ℝ) 1, (k r).expect f
  | .multinomial w k, f => ∑ i ∈ Finset.range w.length, w.getD i 0 / w.sum * (k i).expect f

/-- The probability of an event. -/
noncomputable def prob (x : RandM ℝ α) (E : Set α) : ℝ := x.expect (E.indicator 1)

@[simp] theorem expect_pure (a : α) (f : α → ℝ) : (pure a : RandM ℝ α).expect f = f a := rfl

/-- **The tower rule.** -/
theorem expect_bind (x : RandM ℝ α) (g : α → RandM ℝ β) (f : β → ℝ) :
    (x.bind g).expect f = x.expect fun a => (g a).expect f := by
  induction x with
  | pure a => rfl
  | rand k ih => simp only [bind, expect, ih]
  | multinomial w k ih => simp only [bind, expect, ih]

theorem expect_map (x : RandM ℝ α) (g : α → β) (f : β → ℝ) :
    (x.map g).expect f = x.expect fun a => f (g a) := expect_bind x _ f

/-- A number that only decides between two continuations. -/
theorem expect_rand_ite {c : ℝ} (h0 : 0 ≤ c) (h1 : c ≤ 1) (x y : RandM ℝ α) (f : α → ℝ) :
    (rand fun r => if r < c then x else y).expect f = c * x.expect f + (1 - c) * y.expect f := by
  have hval : ∀ r, (if r < c then x else y).expect f = if r < c then x.expect f else y.expect f :=
    fun r => by split <;> rfl
  have hcut : Set.Ico (0 : ℝ) 1 = Set.Ico 0 c ∪ Set.Ico c 1 := (Set.Ico_union_Ico_eq_Ico h0 h1).symm
  have hdisj : Disjoint (Set.Ico (0 : ℝ) c) (Set.Ico c 1) :=
    Set.disjoint_left.2 fun r hr hr' => absurd hr'.1 (not_le.2 hr.2)
  have hlow : Set.EqOn (fun r => if r < c then x.expect f else y.expect f) (fun _ => x.expect f)
      (Set.Ico 0 c) := fun r hr => if_pos hr.2
  have hhigh : Set.EqOn (fun r => if r < c then x.expect f else y.expect f) (fun _ => y.expect f)
      (Set.Ico c 1) := fun r hr => if_neg (not_lt.2 hr.1)
  have hconst : ∀ (a b z : ℝ), MeasureTheory.IntegrableOn (fun _ => z) (Set.Ico a b) := fun a b z =>
    MeasureTheory.integrableOn_const (by simp)
  rw [expect]
  simp only [hval]
  rw [hcut, MeasureTheory.setIntegral_union hdisj measurableSet_Ico
    ((MeasureTheory.integrableOn_congr_fun hlow measurableSet_Ico).2 (hconst 0 c _))
    ((MeasureTheory.integrableOn_congr_fun hhigh measurableSet_Ico).2 (hconst c 1 _)),
    MeasureTheory.setIntegral_congr_fun measurableSet_Ico hlow,
    MeasureTheory.setIntegral_congr_fun measurableSet_Ico hhigh,
    MeasureTheory.setIntegral_const, MeasureTheory.setIntegral_const]
  simp [MeasureTheory.measureReal_def, h0, h1]

/-- The expectation is linear and the total mass is one. -/
def Lawful (x : RandM ℝ α) : Prop :=
  ∀ (c d : ℝ) (f : α → ℝ), x.expect (fun a => c * f a + d) = c * x.expect f + d

theorem lawful_pure (a : α) : Lawful (pure a : RandM ℝ α) := fun _ _ _ => rfl

/-- One program after another. -/
theorem Lawful.bind {x : RandM ℝ α} {g : α → RandM ℝ β} (hx : x.Lawful) (hg : ∀ a, (g a).Lawful) :
    (x.bind g).Lawful := by
  intro c d f
  rw [expect_bind, expect_bind]
  simp only [hg _ c d f]
  exact hx c d _

theorem Lawful.map {x : RandM ℝ α} (hx : x.Lawful) (g : α → β) : (x.map g).Lawful :=
  hx.bind fun a => lawful_pure (g a)

/-- Drawing an index from weights that add up to one. -/
theorem lawful_multinomial {w : List ℝ} (hw : w.sum = 1) : Lawful (multinomial w pure) := by
  intro c d f
  have htotal : ∑ i ∈ Finset.range w.length, w.getD i 0 = 1 := by
    rw [← hw, ← Fin.sum_univ_eq_sum_range (fun i => w.getD i 0), ← Fin.sum_univ_getElem]
    exact Finset.sum_congr rfl fun i _ => List.getD_eq_getElem _ _ i.2
  simp only [expect, hw, div_one, mul_add, Finset.sum_add_distrib, Finset.mul_sum]
  rw [← Finset.sum_mul, htotal, one_mul]
  exact congrArg (· + d) (Finset.sum_congr rfl fun i _ => mul_left_comm _ _ _)

/-- Decoding by lawful draws. -/
theorem lawful_decode {next : List α → RandM ℝ α} (h : ∀ ctx, (next ctx).Lawful) (stop : α → Bool)
    (n : ℕ) (ctx : List α) : (Autoregressive.decode next stop n ctx).Lawful := by
  induction n generalizing ctx with
  | zero => exact lawful_pure []
  | succ n ih =>
    refine (h ctx).bind fun t => ?_
    split
    · exact lawful_pure _
    · exact (ih _).map _

end RandM
