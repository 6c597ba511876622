/-
# Drift of a randomised loop

`RandM.whileLoop` is a loop whose body draws and may leave it.  What its body keeps, the loop keeps
(`always_whileLoop`), and what its body does not lower on average, the loop does not lower
(`le_expect_whileLoop`): from the state at the head of one round to the state at the end.

The second rule needs expectations to be linear and monotone (`Averages`).  This is so for programs that
draw indices from distributions (`averages_multinomial`) and numbers only to decide between two
continuations (`averages_ite`).
-/

import DiSpec.Lib.Chunked

namespace RandM

variable {R G α β σ : Type}

/-- The expectation of the value is linear and monotone. -/
structure Averages (x : RandM ℝ α) : Prop where
  lawful : x.Lawful
  add : ∀ f f' : α → ℝ, (x.expect fun a => f a + f' a) = x.expect f + x.expect f'
  mono : Monotone x.expect

theorem averages_pure (a : α) : Averages (pure a : RandM ℝ α) where
  lawful := lawful_pure a
  add _ _ := rfl
  mono _ _ h := h a

/-- One program after another. -/
theorem Averages.bind {x : RandM ℝ α} {g : α → RandM ℝ β} (hx : x.Averages) (hg : ∀ a, (g a).Averages) :
    (x.bind g).Averages where
  lawful := hx.lawful.bind fun a => (hg a).lawful
  add f f' := by
    simp only [expect_bind, (hg _).add]
    exact hx.add _ _
  mono f f' h := by
    rw [expect_bind, expect_bind]
    exact hx.mono fun a => (hg a).mono h

theorem Averages.map {x : RandM ℝ α} (hx : x.Averages) (g : α → β) : (x.map g).Averages :=
  hx.bind fun a => averages_pure (g a)

/-- A number that only decides between two continuations. -/
theorem averages_ite {c : ℝ} (h0 : 0 ≤ c) (h1 : c ≤ 1) {x y : RandM ℝ α} (hx : x.Averages)
    (hy : y.Averages) : Averages (rand fun r => if r < c then x else y) where
  lawful a b f := by
    rw [expect_rand_ite h0 h1, expect_rand_ite h0 h1, hx.lawful, hy.lawful]
    ring
  add f f' := by
    rw [expect_rand_ite h0 h1, expect_rand_ite h0 h1, expect_rand_ite h0 h1, hx.add, hy.add]
    ring
  mono f f' h := by
    rw [expect_rand_ite h0 h1, expect_rand_ite h0 h1]
    exact add_le_add (mul_le_mul_of_nonneg_left (hx.mono h) h0)
      (mul_le_mul_of_nonneg_left (hy.mono h) (sub_nonneg.2 h1))

/-- Drawing an index from a distribution. -/
theorem averages_multinomial {w : List ℝ} (hnn : ∀ a ∈ w, 0 ≤ a) (hsum : w.sum = 1) :
    Averages (multinomial w pure) where
  lawful := lawful_multinomial hsum
  add f f' := by
    simp only [expect, mul_add, Finset.sum_add_distrib]
  mono f f' h := by
    refine Finset.sum_le_sum fun i hi => mul_le_mul_of_nonneg_left (h i) ?_
    rw [hsum, div_one, List.getD_eq_getElem _ _ (Finset.mem_range.1 hi)]
    exact hnn _ (List.getElem_mem _)

namespace Averages

variable {x : RandM ℝ α}

/-- What is smaller whatever is drawn is smaller on average. -/
theorem mono_of_always (hx : x.Averages) {P : α → Prop} (hP : x.Always P) {f f' : α → ℝ}
    (h : ∀ a, P a → f a ≤ f' a) : x.expect f ≤ x.expect f' := by
  have hmin : ∀ a, P a → f a = min (f a) (f' a) := fun a ha => (min_eq_left (h a ha)).symm
  rw [hP.expect_congr hmin]
  exact hx.mono fun a => min_le_right _ _

theorem smul (hx : x.Averages) (c : ℝ) (f : α → ℝ) : (x.expect fun a => c * f a) = c * x.expect f := by
  have h := hx.lawful c 0 f
  simpa using h

theorem sub_smul (hx : x.Averages) (f f' : α → ℝ) (c : ℝ) :
    (x.expect fun a => f a - c * f' a) = x.expect f - c * x.expect f' := by
  simp only [sub_eq_add_neg, ← neg_mul]
  rw [hx.add, hx.smul]

end Averages

/-! ### Loops -/

/-- `while cond: body`, whose body may leave it, in at most `fuel` rounds. -/
def whileLoop (cond : σ → Bool) (body : σ → RandM R (Bool × σ)) : (fuel : ℕ) → σ → RandM R σ
  | 0, s => .pure s
  | fuel + 1, s =>
    if cond s then (body s).bind fun r => if r.1 then .pure r.2 else whileLoop cond body fuel r.2
    else .pure s

variable {cond : σ → Bool}

/-- A round of a loop against a generator. -/
theorem run_whileLoop_succ (src : Source R G) (body : σ → RandM R (Bool × σ)) (fuel : ℕ) {s s' : σ}
    {done : Bool} {g g' : G} (hcond : cond s = true) (h : (body s).run src g = ((done, s'), g')) :
    (whileLoop cond body (fuel + 1) s).run src g =
      if done then (s', g') else (whileLoop cond body fuel s').run src g' := by
  rw [whileLoop, if_pos hcond, run_bind, h]
  cases done with
  | false => rfl
  | true => rfl

/-- **The invariant rule.**  `I` holds at the head of the rounds, with the rounds that are left, and
`J` when the loop ends. -/
theorem always_whileLoop {body : σ → RandM R (Bool × σ)} {I : ℕ → σ → Prop} {J : σ → Prop}
    (hbody : ∀ fuel s, I (fuel + 1) s → cond s = true →
      (body s).Always fun r => (r.1 = false → I fuel r.2) ∧ (r.1 = true → J r.2))
    (hend : ∀ fuel s, I fuel s → fuel = 0 ∨ cond s = false → J s) {fuel : ℕ} {s : σ} (hs : I fuel s) :
    (whileLoop cond body fuel s).Always J := by
  induction fuel generalizing s with
  | zero => exact hend 0 s hs (Or.inl rfl)
  | succ fuel ih =>
    rw [whileLoop]
    split
    next hcond =>
      refine (hbody fuel s hs hcond).bind fun r hr => ?_
      split
      next hdone => exact hr.2 hdone
      next hgo => exact ih (hr.1 (Bool.eq_false_iff.2 hgo))
    next hcond => exact hend _ s hs (Or.inr (Bool.eq_false_iff.2 hcond))

variable (cond) {body : σ → RandM ℝ (Bool × σ)} (hbody : ∀ s, (body s).Averages)
include hbody

theorem averages_whileLoop (fuel : ℕ) (s : σ) : (whileLoop cond body fuel s).Averages := by
  induction fuel generalizing s with
  | zero => exact averages_pure s
  | succ fuel ih =>
    rw [whileLoop]
    split
    · refine (hbody s).bind fun r => ?_
      split
      · exact averages_pure _
      · exact ih _
    · exact averages_pure s

/-- **The drift rule.**  What no round lowers on average, the loop does not lower.  By induction on
its rounds. -/
theorem le_expect_whileLoop {φ : σ → ℝ} (hφ : ∀ s, cond s = true → φ s ≤ (body s).expect fun r => φ r.2)
    (fuel : ℕ) (s : σ) : φ s ≤ (whileLoop cond body fuel s).expect φ := by
  induction fuel generalizing s with
  | zero => exact le_rfl
  | succ fuel ih =>
    rw [whileLoop]
    split
    next hcond =>
      rw [expect_bind]
      refine (hφ s hcond).trans ((hbody s).mono fun r => ?_)
      split
      · exact le_rfl
      · exact ih r.2
    next => exact le_rfl

/-- What no round raises on average, the loop does not raise. -/
theorem expect_whileLoop_le {φ : σ → ℝ} (hφ : ∀ s, cond s = true → (body s).expect (fun r => φ r.2) ≤ φ s)
    (fuel : ℕ) (s : σ) : (whileLoop cond body fuel s).expect φ ≤ φ s := by
  have hdrift : ∀ s, cond s = true → -1 * φ s ≤ (body s).expect fun r => -1 * φ r.2 := fun s hs => by
    rw [(hbody s).smul]
    exact mul_le_mul_of_nonpos_left (hφ s hs) (by norm_num)
  have h := le_expect_whileLoop cond hbody (φ := fun s => -1 * φ s) hdrift fuel s
  rwa [(averages_whileLoop cond hbody fuel s).smul, neg_one_mul, neg_one_mul, neg_le_neg_iff] at h

end RandM
