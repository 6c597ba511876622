/-
# How much of a draft is accepted

`Dist.overlap` is the mass that two distributions share.  A drafted token is accepted with that
probability on average, and the positions after it count only then: so a round emits one token and,
for each token that is accepted, what the round after it would emit with one draft less
(`expectedEmitted_succ`).

Where draft and target overlap by `β` at least, a round of `K` drafts emits `1 + β + … + β ^ K` tokens
at least on average, and at most that many where they overlap by `β` at most
(`geom_le_expectedEmitted`, `expectedEmitted_le_geom`).
-/

import Mathlib.Algebra.Order.Ring.GeomSum
import DiSpec.Lib.Drift
import DiSpec.Spec.Law

namespace DiSpec

open RandM

variable {V : ℕ}

namespace Dist

/-- The mass that two distributions share. -/
def overlap (d e : Dist V) : ℝ := ∑ t ∈ Finset.range V, min (d.mass t) (e.mass t)

theorem averages_sample (d : Dist V) : (sampleFromProbs d.row).Averages := averages_multinomial d.nonneg d.sum

/-- One token is emitted for sure. -/
theorem expect_one (d : Dist V) : (sampleFromProbs d.row).expect (fun _ => ((0 : ℕ) : ℝ) + 1) = 1 := by
  rw [d.lawful_sample.expect_const, Nat.cast_zero, zero_add]

/-- **What a correction is drawn from is a distribution.** -/
noncomputable def residual (q p : Dist V) : Dist V where
  row := DiSpec.residual q.row p.row
  length := length_residual q.length p.length
  nonneg x hx := by
    unfold DiSpec.residual at hx
    dsimp only at hx
    split at hx
    next hpos =>
      obtain ⟨y, hy, rfl⟩ := List.mem_map.1 hx
      rw [← List.map_uncurry_zip_eq_zipWith, List.mem_map] at hy
      obtain ⟨⟨a, b⟩, -, rfl⟩ := hy
      exact div_nonneg (le_max_right _ _) hpos.le
    next => exact p.nonneg x hx
  sum := by
    unfold DiSpec.residual
    dsimp only
    split
    next hpos =>
      simp only [div_eq_mul_inv, List.sum_map_mul_right, List.map_id']
      exact mul_inv_cancel₀ hpos.ne'
    next => exact p.sum

end Dist

/-- The number of accepted tokens that a call of `rejection_sample` returns. -/
def acceptedOf : Except Exc (List ℕ × ℕ) → ℕ
  | .error _ => 0
  | .ok (_, nAcc) => nAcc

/-- Drawing as `rejection_sample` does from distributions is linear and monotone. -/
theorem averages_rejectionSample (q p : List ℕ → Dist V) (bonus : Dist V) (ts ctx : List ℕ) :
    (rejectionSample bonus.row ts (rowsAlong (Dist.row ∘ q) ctx ts)
      (rowsAlong (Dist.row ∘ p) ctx ts)).Averages := by
  induction ts generalizing ctx with
  | nil => exact bonus.averages_sample.map _
  | cons t ts ih =>
    rw [rowsAlong, rowsAlong, Function.comp_apply, Function.comp_apply, rejectionSample]
    rcases Nat.lt_or_ge t V with ht | ht
    · rw [(q ctx).getElem?_row ht, (p ctx).getElem?_row ht]
      obtain ⟨h0, h1⟩ := acceptRatio_mem ((q ctx).mass_nonneg t) ((p ctx).mass_nonneg t)
      exact averages_ite h0 h1 ((ih _).map _) (((q ctx).residual (p ctx)).averages_sample.map _)
    · rw [List.getElem?_eq_none ((q ctx).length.trans_le ht)]
      exact averages_pure _

theorem averages_drawn (p : List ℕ → Dist V) (n : ℕ) (ctx : List ℕ) : (drawn p n ctx).Averages := by
  induction n generalizing ctx with
  | zero => exact averages_pure []
  | succ n ih =>
    rw [drawn_succ]
    exact (p ctx).averages_sample.bind fun t => (ih _).map _

/-- How many tokens a round of `K` drafts after `ctx` emits on average. -/
noncomputable def expectedEmitted (q p : List ℕ → Dist V) (K : ℕ) (ctx : List ℕ) : ℝ :=
  (drawn q K ctx).expect fun ts =>
    (rejectionSample (p (ctx ++ ts)).row ts (rowsAlong (Dist.row ∘ q) ctx ts)
      (rowsAlong (Dist.row ∘ p) ctx ts)).expect fun r => acceptedOf r + 1

/-- **One position.**  A round emits one token, and goes on where the first drafted token is accepted. -/
theorem expectedEmitted_succ (hV : 0 < V) (q p : List ℕ → Dist V) (K : ℕ) (ctx : List ℕ) :
    expectedEmitted q p (K + 1) ctx =
      1 + ∑ t ∈ Finset.range V,
        min ((q ctx).mass t) ((p ctx).mass t) * expectedEmitted q p K (ctx ++ [t]) := by
  have hfirst : ∀ t < V, (drawn q K (ctx ++ [t])).expect (fun ts =>
      (rejectionSample (p (ctx ++ t :: ts)).row (t :: ts) (rowsAlong (Dist.row ∘ q) ctx (t :: ts))
        (rowsAlong (Dist.row ∘ p) ctx (t :: ts))).expect fun r => (acceptedOf r : ℝ) + 1) =
      acceptRatio ((q ctx).mass t) ((p ctx).mass t) * expectedEmitted q p K (ctx ++ [t]) + 1 := fun t ht => by
    obtain ⟨h0, h1⟩ := acceptRatio_mem ((q ctx).mass_nonneg t) ((p ctx).mass_nonneg t)
    rw [expectedEmitted, ← (averages_drawn q K (ctx ++ [t])).lawful]
    refine (always_unstopped hV (fun c => (q c).length) K (ctx ++ [t])).expect_congr fun ts hts => ?_
    have hrest : (rejectionSample (p (ctx ++ t :: ts)).row ts (rowsAlong (Dist.row ∘ q) (ctx ++ [t]) ts)
        (rowsAlong (Dist.row ∘ p) (ctx ++ [t]) ts)).expect (fun r => (acceptedOf (accepted t r) : ℝ) + 1) =
        1 * (rejectionSample (p (ctx ++ t :: ts)).row ts (rowsAlong (Dist.row ∘ q) (ctx ++ [t]) ts)
          (rowsAlong (Dist.row ∘ p) (ctx ++ [t]) ts)).expect (fun r => (acceptedOf r : ℝ) + 1) + 1 := by
      rw [← (averages_rejectionSample q p _ ts (ctx ++ [t])).lawful]
      refine (always_rejectionSample hV (fun c => (q c).length) (fun c => (p c).length) (p _).length
        hts.2 (ctx ++ [t])).expect_congr ?_
      rintro r ⟨n, u, -, rfl⟩
      rw [accepted, acceptedOf, acceptedOf, Nat.cast_succ]
      ring
    have hone : (sampleFromProbs (residual (q ctx).row (p ctx).row)).expect
        (fun _ => ((0 : ℕ) : ℝ) + 1) = 1 := ((q ctx).residual (p ctx)).expect_one
    rw [rowsAlong, rowsAlong, Function.comp_apply, Function.comp_apply, rejectionSample,
      (q ctx).getElem?_row ht, (p ctx).getElem?_row ht]
    dsimp only
    rw [expect_rand_ite h0 h1, expect_map, expect_map, hrest, List.append_assoc]
    show _ + _ * (sampleFromProbs (residual (q ctx).row (p ctx).row)).expect (fun _ => ((0 : ℕ) : ℝ) + 1) = _
    rw [hone]
    show _ = _ * (rejectionSample (p (ctx ++ t :: ts)).row ts _ _).expect _ + 1
    ring
  rw [expectedEmitted, drawn_succ, expect_bind, Dist.expect_sample]
  simp only [expect_map]
  calc _ = ∑ t ∈ Finset.range V, (min ((q ctx).mass t) ((p ctx).mass t) * expectedEmitted q p K (ctx ++ [t]) +
        (q ctx).mass t) := by
        refine Finset.sum_congr rfl fun t ht => ?_
        rw [hfirst t (Finset.mem_range.1 ht),
          ← mul_acceptRatio ((q ctx).mass_nonneg t) ((p ctx).mass_nonneg t)]
        ring
    _ = _ := by rw [Finset.sum_add_distrib, (q ctx).sum_mass, add_comm]

theorem expectedEmitted_zero (q p : List ℕ → Dist V) (ctx : List ℕ) : expectedEmitted q p 0 ctx = 1 := by
  show ((sampleFromProbs (p (ctx ++ [])).row).map _).expect _ = _
  rw [expect_map]
  exact (p (ctx ++ [])).expect_one

/-- **At least so much is accepted** where draft and target overlap by `β` at least. -/
theorem geom_le_expectedEmitted (hV : 0 < V) {q p : List ℕ → Dist V} {β : ℝ} (h0 : 0 ≤ β) (K : ℕ)
    (ctx : List ℕ) (h : ∀ l, β ≤ (q (ctx ++ l)).overlap (p (ctx ++ l))) :
    ∑ k ∈ Finset.range (K + 1), β ^ k ≤ expectedEmitted q p K ctx := by
  induction K generalizing ctx with
  | zero =>
    rw [expectedEmitted_zero]
    simp
  | succ K ih =>
    have hctx : β ≤ (q ctx).overlap (p ctx) := by simpa using h []
    have hgeom : 0 ≤ ∑ k ∈ Finset.range (K + 1), β ^ k := Finset.sum_nonneg fun k _ => pow_nonneg h0 k
    rw [expectedEmitted_succ hV, geom_sum_succ, add_comm]
    refine add_le_add le_rfl ((mul_le_mul_of_nonneg_right hctx hgeom).trans ?_)
    rw [Dist.overlap, Finset.sum_mul]
    refine Finset.sum_le_sum fun t _ => mul_le_mul_of_nonneg_left (ih (ctx ++ [t]) fun l => ?_)
      (le_min ((q ctx).mass_nonneg t) ((p ctx).mass_nonneg t))
    rw [List.append_assoc]
    exact h _

/-- **At most so much is accepted** where draft and target overlap by `β` at most. -/
theorem expectedEmitted_le_geom (hV : 0 < V) {q p : List ℕ → Dist V} {β : ℝ} (K : ℕ) (ctx : List ℕ)
    (h : ∀ l, (q (ctx ++ l)).overlap (p (ctx ++ l)) ≤ β) :
    expectedEmitted q p K ctx ≤ ∑ k ∈ Finset.range (K + 1), β ^ k := by
  have hmin : ∀ c t, 0 ≤ min ((q c).mass t) ((p c).mass t) := fun c t =>
    le_min ((q c).mass_nonneg t) ((p c).mass_nonneg t)
  have h0 : 0 ≤ β := (Finset.sum_nonneg fun t _ => hmin (ctx ++ []) t).trans (h [])
  induction K generalizing ctx with
  | zero =>
    rw [expectedEmitted_zero]
    simp
  | succ K ih =>
    have hctx : (q ctx).overlap (p ctx) ≤ β := by simpa using h []
    have hgeom : 0 ≤ ∑ k ∈ Finset.range (K + 1), β ^ k := Finset.sum_nonneg fun k _ => pow_nonneg h0 k
    rw [expectedEmitted_succ hV, geom_sum_succ, add_comm]
    refine add_le_add (le_trans ?_ (mul_le_mul_of_nonneg_right hctx hgeom)) le_rfl
    rw [Dist.overlap, Finset.sum_mul]
    refine Finset.sum_le_sum fun t _ => mul_le_mul_of_nonneg_left (ih (ctx ++ [t]) fun l => ?_) (hmin ctx t)
    rw [List.append_assoc]
    exact h _

end DiSpec
