/-
# Rejection sampling is lossless

`Dist V` is a distribution over a vocabulary of `V` tokens, with zeros allowed.  For
two autoregressive families `q` and `p` of them, `speculated` is one round: draft
from `q`, call `rejection_sample` with the rows along the drafted tokens, and
complete what it emits by sampling from `p`.

`accept_or_correct` is one position: what acceptance leaves of the mass of `p` is
what the correction adds.  By induction over the positions a round has the law
of sampling from `p` alone (`expect_speculated`), of which the probability of a
string is the case of an indicator.
-/

import DiSpec.Lib.RandLaw
import DiSpec.Spec.Rejection

namespace DiSpec

open Autoregressive

/-- A probability distribution over a vocabulary of `V` tokens. -/
structure Dist (V : ℕ) where
  row : List ℝ
  length : row.length = V
  nonneg : ∀ x ∈ row, 0 ≤ x
  sum : row.sum = 1

namespace Dist

variable {V : ℕ}

/-- The probability of a token. -/
def mass (d : Dist V) (t : ℕ) : ℝ := d.row.getD t 0

theorem mass_nonneg (d : Dist V) (t : ℕ) : 0 ≤ d.mass t := by
  rw [mass, List.getD_eq_getElem?_getD]
  cases h : d.row[t]? with
  | none => exact le_rfl
  | some x => exact d.nonneg x (List.mem_of_getElem? h)

theorem getElem?_row (d : Dist V) {t : ℕ} (ht : t < V) : d.row[t]? = some (d.mass t) := by
  have hlt : t < d.row.length := d.length.symm ▸ ht
  rw [mass, List.getD_eq_getElem _ _ hlt, List.getElem?_eq_getElem hlt]

/-- The entries of a row add up to its sum. -/
theorem sum_range_getD (row : List ℝ) : ∑ t ∈ Finset.range row.length, row.getD t 0 = row.sum := by
  rw [← Fin.sum_univ_eq_sum_range (fun i => row.getD i 0), ← Fin.sum_univ_getElem]
  exact Finset.sum_congr rfl fun i _ => List.getD_eq_getElem _ _ i.2

theorem sum_mass (d : Dist V) : ∑ t ∈ Finset.range V, d.mass t = 1 := by
  have h := sum_range_getD d.row
  rwa [d.length, d.sum] at h

/-- Drawing from a distribution. -/
theorem expect_sample (d : Dist V) (f : ℕ → ℝ) :
    (sampleFromProbs d.row).expect f = ∑ t ∈ Finset.range V, d.mass t * f t := by
  simp only [sampleFromProbs, RandM.expect, d.length, d.sum, div_one]
  rfl

theorem lawful_sample (d : Dist V) : (sampleFromProbs d.row).Lawful := RandM.lawful_multinomial d.sum

end Dist

variable {V : ℕ}

/-- Draw `n` tokens one after the other, each from the distribution after those before. -/
noncomputable def drawn (p : List ℕ → Dist V) (n : ℕ) (ctx : List ℕ) : RandM ℝ (List ℕ) :=
  decode (fun ctx => sampleFromProbs (p ctx).row) (fun _ => false) n ctx

theorem drawn_succ (p : List ℕ → Dist V) (n : ℕ) (ctx : List ℕ) :
    drawn p (n + 1) ctx =
      (sampleFromProbs (p ctx).row).bind fun t => (drawn p n (ctx ++ [t])).map (t :: ·) := rfl

theorem lawful_drawn (p : List ℕ → Dist V) (n : ℕ) (ctx : List ℕ) : (drawn p n ctx).Lawful :=
  RandM.lawful_decode (fun ctx => (p ctx).lawful_sample) _ n ctx

/-- Complete what was emitted after `ctx` to `n` tokens. -/
noncomputable def completed (p : List ℕ → Dist V) (n : ℕ) (ctx : List ℕ) :
    Except Exc (List ℕ × ℕ) → RandM ℝ (Except Exc (List ℕ))
  | .error x => .pure (.error x)
  | .ok (emitted, _) =>
    (drawn p (n - emitted.length) (ctx ++ emitted)).map fun rest => .ok (emitted ++ rest)

/-- One round after `ctx`, from `K` drafted tokens to `K + 1` tokens. -/
noncomputable def speculated (q p : List ℕ → Dist V) (K : ℕ) (ctx : List ℕ) : RandM ℝ (Except Exc (List ℕ)) :=
  (drawn q K ctx).bind fun ts =>
    (rejectionSample (p (ctx ++ ts)).row ts (rowsAlong (Dist.row ∘ q) ctx ts)
      (rowsAlong (Dist.row ∘ p) ctx ts)).bind
      (completed p (K + 1) ctx)

/-! ### One position -/

/-- The positive part of `p - q` at a token. -/
theorem getD_clamp (q p : Dist V) (t : ℕ) :
    (List.zipWith (fun a b => max (a - b) 0) p.row q.row).getD t 0 = max (p.mass t - q.mass t) 0 := by
  rcases Nat.lt_or_ge t V with ht | ht
  · rw [List.getD_eq_getElem?_getD, List.getElem?_zipWith, p.getElem?_row ht, q.getElem?_row ht]
    rfl
  · rw [Dist.mass, Dist.mass, List.getD_eq_default, List.getD_eq_default, List.getD_eq_default]
    · simp
    · rwa [q.length]
    · rwa [p.length]
    · rw [List.length_zipWith, p.length, q.length, min_self]
      exact ht

/-- **The correction** draws a token with the positive part of `p - q`, over the total of
these parts. -/
theorem expect_residual (q p : Dist V) (f : ℕ → ℝ) :
    (∑ t ∈ Finset.range V, max (p.mass t - q.mass t) 0) *
        (sampleFromProbs (residual q.row p.row)).expect f =
      ∑ t ∈ Finset.range V, max (p.mass t - q.mass t) 0 * f t := by
  set resid := List.zipWith (fun a b => max (a - b) 0) p.row q.row with hresid
  have hlen : resid.length = V := by rw [hresid, List.length_zipWith, p.length, q.length, min_self]
  have hget : ∀ t, resid.getD t 0 = max (p.mass t - q.mass t) 0 := getD_clamp q p
  have hsum : ∑ t ∈ Finset.range V, max (p.mass t - q.mass t) 0 = resid.sum := by
    rw [← Dist.sum_range_getD, hlen]
    exact Finset.sum_congr rfl fun t _ => (hget t).symm
  rw [hsum]
  by_cases hpos : 0 < resid.sum
  · have hrow : residual q.row p.row = resid.map (· / resid.sum) := if_pos hpos
    have hone : (resid.map (· / resid.sum)).sum = 1 := by
      simp only [div_eq_mul_inv, List.sum_map_mul_right, List.map_id']
      exact mul_inv_cancel₀ hpos.ne'
    have hval : ∀ t, (resid.map (· / resid.sum)).getD t 0 = max (p.mass t - q.mass t) 0 / resid.sum :=
      fun t => by
        rw [← hget t]
        have h := List.getD_map resid 0 (n := t) (· / resid.sum)
        rwa [zero_div] at h
    rw [hrow, sampleFromProbs, RandM.expect, hone, List.length_map, hlen, Finset.mul_sum]
    refine Finset.sum_congr rfl fun t _ => ?_
    rw [hval, div_one, RandM.expect_pure, ← mul_assoc, mul_div_cancel₀ _ hpos.ne']
  · have hnn : ∀ t ∈ Finset.range V, 0 ≤ max (p.mass t - q.mass t) 0 := fun t _ => le_max_right _ _
    have hzero : resid.sum = 0 := le_antisymm (not_lt.1 hpos) (hsum ▸ Finset.sum_nonneg hnn)
    have hall := (Finset.sum_eq_zero_iff_of_nonneg hnn).1 (hsum.trans hzero)
    rw [hzero, zero_mul]
    refine (Finset.sum_eq_zero fun t ht => ?_).symm
    rw [hall t ht, zero_mul]

theorem acceptRatio_mem {a b : ℝ} (ha : 0 ≤ a) (hb : 0 ≤ b) :
    0 ≤ acceptRatio a b ∧ acceptRatio a b ≤ 1 := by
  unfold acceptRatio
  split
  · exact ⟨zero_le_one, le_rfl⟩
  · exact ⟨le_min zero_le_one (div_nonneg hb ha), min_le_left _ _⟩

/-- The mass that is drafted and accepted. -/
theorem mul_acceptRatio {a b : ℝ} (ha : 0 ≤ a) (hb : 0 ≤ b) : a * acceptRatio a b = min a b := by
  unfold acceptRatio
  split
  next h =>
    obtain rfl := le_antisymm h ha
    rw [zero_mul, min_eq_left hb]
  next h =>
    have hpos : 0 < a := not_le.1 h
    rw [mul_min_of_nonneg _ _ ha, mul_one, mul_div_cancel₀ _ hpos.ne']

/-- **One position.**  A token drafted from `q`, then accepted or corrected, has the law of
a token of `p`. -/
theorem accept_or_correct (q p : Dist V) (f : ℕ → ℝ) :
    ∑ t ∈ Finset.range V, q.mass t * (acceptRatio (q.mass t) (p.mass t) * f t +
        (1 - acceptRatio (q.mass t) (p.mass t)) *
          (sampleFromProbs (residual q.row p.row)).expect f) =
      ∑ t ∈ Finset.range V, p.mass t * f t := by
  set e := (sampleFromProbs (residual q.row p.row)).expect f with he
  have hacc : ∀ t, q.mass t * acceptRatio (q.mass t) (p.mass t) = min (q.mass t) (p.mass t) :=
    fun t => mul_acceptRatio (q.mass_nonneg t) (p.mass_nonneg t)
  have hpart : ∀ t, p.mass t - min (q.mass t) (p.mass t) = max (p.mass t - q.mass t) 0 := fun t => by
    rcases le_total (q.mass t) (p.mass t) with h | h
    · rw [min_eq_left h, max_eq_left (sub_nonneg.2 h)]
    · rw [min_eq_right h, max_eq_right (sub_nonpos.2 h), sub_self]
  -- both families have mass one, so the mass rejected is the mass missing
  have hrej : ∑ t ∈ Finset.range V, (q.mass t - min (q.mass t) (p.mass t)) =
      ∑ t ∈ Finset.range V, max (p.mass t - q.mass t) 0 := by
    rw [Finset.sum_sub_distrib, q.sum_mass, ← p.sum_mass, ← Finset.sum_sub_distrib]
    exact Finset.sum_congr rfl fun t _ => hpart t
  calc _ = ∑ t ∈ Finset.range V, (min (q.mass t) (p.mass t) * f t +
        (q.mass t - min (q.mass t) (p.mass t)) * e) := by
        refine Finset.sum_congr rfl fun t _ => ?_
        rw [← hacc t]
        ring
    _ = ∑ t ∈ Finset.range V, min (q.mass t) (p.mass t) * f t +
        (∑ t ∈ Finset.range V, max (p.mass t - q.mass t) 0) * e := by
        rw [Finset.sum_add_distrib, ← Finset.sum_mul, hrej]
    _ = ∑ t ∈ Finset.range V, (min (q.mass t) (p.mass t) * f t +
        max (p.mass t - q.mass t) 0 * f t) := by
        rw [he, expect_residual, ← Finset.sum_add_distrib]
    _ = _ := by
        refine Finset.sum_congr rfl fun t _ => ?_
        rw [← hpart t]
        ring

/-! ### A round -/

/-- The first position of a call of `rejection_sample`, and what follows the call. -/
theorem expect_rejectionSample_cons (d e : Dist V) {t : ℕ} (ht : t < V) (pBonus : List ℝ)
    (ts : List ℕ) (q p : List (List ℝ)) (next : Except Exc (List ℕ × ℕ) → RandM ℝ (Except Exc (List ℕ)))
    (f : Except Exc (List ℕ) → ℝ) :
    ((rejectionSample pBonus (t :: ts) (d.row :: q) (e.row :: p)).bind next).expect f =
      acceptRatio (d.mass t) (e.mass t) *
          (rejectionSample pBonus ts q p).expect (fun r => (next (accepted t r)).expect f) +
        (1 - acceptRatio (d.mass t) (e.mass t)) *
          (sampleFromProbs (residual d.row e.row)).expect fun u => (next (.ok ([u], 0))).expect f := by
  obtain ⟨h0, h1⟩ := acceptRatio_mem (d.mass_nonneg t) (e.mass_nonneg t)
  rw [RandM.expect_bind, rejectionSample, d.getElem?_row ht, e.getElem?_row ht]
  simp only
  rw [RandM.expect_rand_ite h0 h1, RandM.expect_map, RandM.expect_map]

/-- An accepted token goes in front of what is completed after it. -/
theorem expect_completed_accepted (p : List ℕ → Dist V) (n t : ℕ) (ctx : List ℕ)
    (r : Except Exc (List ℕ × ℕ)) (f : Except Exc (List ℕ) → ℝ) :
    (completed p (n + 1) ctx (accepted t r)).expect f =
      (completed p n (ctx ++ [t]) r).expect fun w => f (w.map (t :: ·)) := by
  rcases r with x | ⟨out, k⟩
  · rfl
  · rw [accepted, completed, completed, RandM.expect_map, RandM.expect_map, List.length_cons,
      Nat.add_sub_add_right, List.append_assoc]
    rfl

/-- **A round has the law of sampling from the target.**  By induction on the number of
drafted tokens. -/
theorem expect_speculated (q p : List ℕ → Dist V) (K : ℕ) (ctx : List ℕ)
    (f : Except Exc (List ℕ) → ℝ) :
    (speculated q p K ctx).expect f = (drawn p (K + 1) ctx).expect fun w => f (.ok w) := by
  induction K generalizing ctx f with
  | zero =>
    rw [speculated, drawn_succ, RandM.expect_bind, RandM.expect_bind]
    show ((rejectionSample (p (ctx ++ [])).row [] [] []).bind _).expect f = _
    rw [rejectionSample, RandM.expect_bind, RandM.expect_map, List.append_nil]
    rfl
  | succ K ih =>
    set G : ℕ → ℝ := fun t => (drawn p (K + 1) (ctx ++ [t])).expect fun w => f (.ok (t :: w)) with hG
    have hcorrect : ∀ u, (completed p (K + 1 + 1) ctx (.ok ([u], 0))).expect f = G u := fun u =>
      RandM.expect_map _ _ f
    -- the draft tokens after the first one matter only if the first one is accepted
    have hfirst : ∀ t < V, (drawn q K (ctx ++ [t])).expect (fun ts =>
        ((rejectionSample (p (ctx ++ t :: ts)).row (t :: ts) (rowsAlong (Dist.row ∘ q) ctx (t :: ts))
          (rowsAlong (Dist.row ∘ p) ctx (t :: ts))).bind (completed p (K + 1 + 1) ctx)).expect f) =
        acceptRatio ((q ctx).mass t) ((p ctx).mass t) * G t +
          (1 - acceptRatio ((q ctx).mass t) ((p ctx).mass t)) *
            (sampleFromProbs (residual (q ctx).row (p ctx).row)).expect G := fun t ht => by
      have hrest : (drawn q K (ctx ++ [t])).expect (fun ts =>
          (rejectionSample (p (ctx ++ [t] ++ ts)).row ts (rowsAlong (Dist.row ∘ q) (ctx ++ [t]) ts)
            (rowsAlong (Dist.row ∘ p) (ctx ++ [t]) ts)).expect fun r =>
              (completed p (K + 1 + 1) ctx (accepted t r)).expect f) = G t := by
        refine Eq.trans ?_ (ih (ctx ++ [t]) fun w => f (w.map (t :: ·)))
        rw [speculated, RandM.expect_bind]
        simp only [RandM.expect_bind, expect_completed_accepted]
      rw [← hrest, ← lawful_drawn q K (ctx ++ [t])]
      refine congrArg _ (funext fun ts => ?_)
      rw [rowsAlong, rowsAlong, Function.comp_apply, Function.comp_apply,
        expect_rejectionSample_cons _ _ ht, List.append_assoc]
      simp only [hcorrect]
      rfl
    rw [speculated, drawn_succ, RandM.expect_bind, drawn_succ, RandM.expect_bind, RandM.expect_bind,
      Dist.expect_sample, Dist.expect_sample]
    simp only [RandM.expect_map]
    refine Eq.trans ?_ (accept_or_correct (q ctx) (p ctx) G)
    exact Finset.sum_congr rfl fun t ht => congrArg _ (hfirst t (Finset.mem_range.1 ht))

/-- The probability of a string is the product of the probabilities of its tokens. -/
theorem prob_drawn (p : List ℕ → Dist V) (w ctx : List ℕ) :
    (drawn p w.length ctx).prob {w} =
      ∏ i ∈ Finset.range w.length, (p (ctx ++ w.take i)).mass (w.getD i 0) := by
  induction w generalizing ctx with
  | nil => simp [drawn, decode, RandM.prob]
  | cons t w ih =>
    have htail : ∀ u, ((drawn p w.length (ctx ++ [u])).map (u :: ·)).expect
        (Set.indicator {t :: w} 1) =
        if u = t then ∏ i ∈ Finset.range w.length, (p (ctx ++ [t] ++ w.take i)).mass (w.getD i 0)
        else 0 := fun u => by
      rw [RandM.expect_map]
      split
      next h =>
        rw [h, ← ih (ctx ++ [t]), RandM.prob]
        refine congrArg _ (funext fun v => ?_)
        simp [Set.indicator_apply]
      next h =>
        have h0 := lawful_drawn p w.length (ctx ++ [u]) 0 0 fun _ => 0
        simpa [Set.indicator_apply, h] using h0
    rw [List.length_cons, Finset.prod_range_succ', RandM.prob, drawn_succ, RandM.expect_bind,
      Dist.expect_sample]
    simp only [htail, mul_ite, mul_zero, Finset.sum_ite_eq']
    rw [List.take_zero, List.append_nil, List.getD_cons_zero, mul_comm]
    simp only [List.take_succ_cons, List.getD_cons_succ, List.append_assoc, List.singleton_append]
    split
    · rfl
    next h =>
      have h0 : (p ctx).mass t = 0 := by
        rw [Dist.mass, List.getD_eq_default]
        rw [(p ctx).length]
        exact not_lt.1 fun hlt => h (Finset.mem_range.2 hlt)
      rw [h0, mul_zero]

/-- **`rejection_sample` reproduces the joint distribution of the target.**  Drafting `K`
tokens from `q`, calling it with the rows along them, and sampling from `p` up to
`K + 1` tokens gives every string the probability `p` gives it; and on any drafted
tokens, whatever is drawn, it emits the first `n` of them and exactly one more. -/
theorem rejectionSample_lossless {G : Type} (q p : List ℕ → Dist V) (K : ℕ) :
    (∀ w : List ℕ, w.length = K + 1 →
      (speculated q p K []).prob {.ok w} =
        ∏ i ∈ Finset.range (K + 1), (p (w.take i)).mass (w.getD i 0)) ∧
    ∀ draftTokens : List ℕ, draftTokens.length = K → (∀ t ∈ draftTokens, t < V) →
      ∀ (src : Source ℝ G) (g : G), ∃ n t, n ≤ K ∧
        ((rejectionSample (p draftTokens).row draftTokens (rowsAlong (Dist.row ∘ q) [] draftTokens)
          (rowsAlong (Dist.row ∘ p) [] draftTokens)).run src g).1 = .ok (draftTokens.take n ++ [t], n) := by
  refine ⟨fun w hw => ?_, fun ts hlen hts src g => ?_⟩
  · rw [RandM.prob, expect_speculated, ← hw]
    refine Eq.trans (congrArg _ (funext fun v => ?_)) (prob_drawn p w [])
    simp [Set.indicator_apply]
  · rcases rejectionSample_eq (p ts).row src ts (rowsAlong (Dist.row ∘ q) [] ts)
      (rowsAlong (Dist.row ∘ p) [] ts) g with ⟨n, t, hn, heq⟩ | ⟨hrows, -⟩
    · exact ⟨n, t, hlen ▸ hn, heq⟩
    · exact absurd (inRows_rowsAlong (fun ctx => (q ctx).length) (fun ctx => (p ctx).length) hts []) hrows

/-- The hypotheses are satisfiable: a draft that only ever proposes token 0, and a
target that tosses a coin. -/
theorem rejectionSample_lossless_coin :
    let q : List ℕ → Dist 2 := fun _ => ⟨[1, 0], rfl, by simp, by simp⟩
    let p : List ℕ → Dist 2 := fun _ => ⟨[1 / 2, 1 / 2], rfl, by simp, by norm_num⟩
    (speculated q p 1 []).prob {.ok [1, 0]} = 1 / 4 ∧
      ∃ n t, n ≤ 1 ∧ ((rejectionSample [(1 / 2 : ℝ), 1 / 2] [0] [[1, 0]] [[1 / 2, 1 / 2]]).run
        ⟨fun g => (3 / 4, g), fun _ g => (1, g)⟩ ()).1 = .ok ([0].take n ++ [t], n) := by
  intro q p
  obtain ⟨hprob, hemit⟩ := rejectionSample_lossless (G := Unit) q p 1
  refine ⟨?_, hemit [0] rfl (by decide) _ _⟩
  rw [hprob [1, 0] rfl, Finset.prod_range_succ, Finset.prod_range_one]
  show (1 / 2 : ℝ) * (1 / 2) = 1 / 4
  norm_num

end DiSpec
