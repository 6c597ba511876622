/-
# The online softmax

Softmax attention of one query is the average of the values `v`, weighted by
`exp s` of their scores.  The online form reads the keys in blocks and keeps a
running maximum `m` of the scores, starting at `-∞`, with the denominator and the
numerator relative to it: a block first rescales both by `exp (m - m')`, then adds
its own terms `exp (s - m')`.  A masked lane has the score `-∞`.

What the loop keeps is `exp m` times its denominator and `exp m` times its
numerator (`step_spec`): these grow by the unshifted sums of the block, whatever
maximum is used, and `exp (-∞) = 0` makes both the start and the masked lanes
vanish.  So the final quotient is the average (`run_average`).

A block that leaves the maximum at `-∞` computes `exp (-∞ - -∞)`, which is not a
number: `step` is then `none`.
-/

import Mathlib.Analysis.SpecialFunctions.Exp
import Mathlib.Algebra.BigOperators.Group.List.Lemmas
import Mathlib.Algebra.Module.BigOperators
import Mathlib.Algebra.Order.BigOperators.Group.List
import Mathlib.Order.WithBot

namespace OnlineSoftmax

/-- A score; `⊥` is `-∞`. -/
abbrev Score : Type := WithBot ℝ

/-- `exp` of a score. -/
noncomputable def weight : Score → ℝ
  | ⊥ => 0
  | (s : ℝ) => Real.exp s

/-- `exp (s - m)` for a finite `m`. -/
noncomputable def shifted (m : ℝ) : Score → ℝ
  | ⊥ => 0
  | (s : ℝ) => Real.exp (s - m)

/-- What is carried from block to block. -/
structure Acc (V : Type) where
  max : Score
  denom : ℝ
  numer : V

/-- The largest score of a block. -/
noncomputable def blockMax (scores : List Score) : Score := scores.foldr (· ⊔ ·) ⊥

@[simp] theorem weight_bot : weight ⊥ = 0 := rfl

@[simp] theorem weight_coe (s : ℝ) : weight s = Real.exp s := rfl

theorem weight_nonneg (s : Score) : 0 ≤ weight s := by
  induction s using WithBot.recBotCoe with
  | bot => exact le_rfl
  | coe s => exact (Real.exp_pos s).le

/-- The shift cancels. -/
theorem exp_mul_shifted (m : ℝ) (s : Score) : Real.exp m * shifted m s = weight s := by
  induction s using WithBot.recBotCoe with
  | bot => exact mul_zero _
  | coe s =>
    show Real.exp m * Real.exp (s - m) = Real.exp s
    rw [← Real.exp_add, add_sub_cancel]

/-- A score of the block is at most its largest. -/
theorem le_blockMax {scores : List Score} {s : Score} (h : s ∈ scores) : s ≤ blockMax scores := by
  induction scores with
  | nil => exact absurd h List.not_mem_nil
  | cons s' scores ih =>
    rcases List.mem_cons.1 h with rfl | h
    · exact le_sup_left
    · exact (ih h).trans le_sup_right

/-- The denominator of the softmax, unshifted. -/
noncomputable def denom {V : Type} (lanes : List (Score × V)) : ℝ :=
  (lanes.map fun lane => weight lane.1).sum

section Denominator

variable {V : Type}

@[simp] theorem denom_append (lanes lanes' : List (Score × V)) :
    denom (lanes ++ lanes') = denom lanes + denom lanes' := by
  simp [denom]

/-- Masked lanes add nothing to the denominator. -/
theorem denom_masked {lanes : List (Score × V)} (h : ∀ lane ∈ lanes, lane.1 = ⊥) : denom lanes = 0 := by
  refine List.sum_eq_zero fun w hw => ?_
  obtain ⟨lane, hlane, rfl⟩ := List.mem_map.1 hw
  rw [h lane hlane, weight_bot]

/-- A visible lane makes the denominator positive. -/
theorem denom_pos {lanes : List (Score × V)} (h : ∃ lane ∈ lanes, lane.1 ≠ ⊥) : 0 < denom lanes := by
  obtain ⟨⟨s, v⟩, hlane, hs⟩ := h
  obtain ⟨r, rfl⟩ := WithBot.ne_bot_iff_exists.1 hs
  have hle : weight (r : Score) ≤ denom lanes := by
    refine List.single_le_sum (fun w hw => ?_) _ (List.mem_map.2 ⟨_, hlane, rfl⟩)
    obtain ⟨lane, -, rfl⟩ := List.mem_map.1 hw
    exact weight_nonneg lane.1
  exact (Real.exp_pos r).trans_le hle

theorem exp_mul_sum_shifted (m : ℝ) (lanes : List (Score × V)) :
    Real.exp m * (lanes.map fun lane => shifted m lane.1).sum = denom lanes := by
  rw [denom, ← List.sum_map_mul_left]
  exact congrArg _ (List.map_congr_left fun lane _ => exp_mul_shifted m lane.1)

end Denominator

variable {V : Type} [AddCommGroup V] [Module ℝ V]

/-- Before the first block. -/
noncomputable def Acc.start : Acc V := ⟨⊥, 0, 0⟩

/-- One block of lanes, a score and a value each. -/
noncomputable def step (a : Acc V) (lanes : List (Score × V)) : Option (Acc V) :=
  match a.max ⊔ blockMax (lanes.map Prod.fst) with
  | ⊥ => none
  | (m : ℝ) =>
    let p := lanes.map fun lane => shifted m lane.1
    let alpha := shifted m a.max
    some ⟨m, a.denom * alpha + p.sum,
      alpha • a.numer + (List.zipWith (· • ·) p (lanes.map Prod.snd)).sum⟩

/-- The blocks, one after the other. -/
noncomputable def run (a : Acc V) : List (List (Score × V)) → Option (Acc V)
  | [] => some a
  | lanes :: rest =>
    match step a lanes with
    | none => none
    | some a => run a rest

/-- The numerator of the softmax, unshifted. -/
noncomputable def numer (lanes : List (Score × V)) : V :=
  (lanes.map fun lane => weight lane.1 • lane.2).sum

/-- The average of the values weighted by the softmax of their scores. -/
noncomputable def average (xs : List (ℝ × V)) : V :=
  ((xs.map fun x => Real.exp x.1).sum)⁻¹ • (xs.map fun x => Real.exp x.1 • x.2).sum

/-- The lanes of keys that are all visible. -/
def visible (xs : List (ℝ × V)) : List (Score × V) := xs.map fun x => (↑x.1, x.2)

@[simp] theorem numer_append (lanes lanes' : List (Score × V)) :
    numer (lanes ++ lanes') = numer lanes + numer lanes' := by
  simp [numer]

/-- Masked lanes add nothing to the numerator, whatever value they hold. -/
theorem numer_masked {lanes : List (Score × V)} (h : ∀ lane ∈ lanes, lane.1 = ⊥) : numer lanes = 0 := by
  refine List.sum_eq_zero fun w hw => ?_
  obtain ⟨lane, hlane, rfl⟩ := List.mem_map.1 hw
  rw [h lane hlane, weight_bot, zero_smul]

/-- The average is the quotient of the sums over the visible lanes. -/
theorem average_eq (xs : List (ℝ × V)) : average xs = (denom (visible xs))⁻¹ • numer (visible xs) := by
  rw [average, denom, numer, visible, List.map_map, List.map_map]
  rfl

theorem exp_smul_sum_shifted (m : ℝ) (lanes : List (Score × V)) :
    Real.exp m • (List.zipWith (· • ·) (lanes.map fun lane => shifted m lane.1)
      (lanes.map Prod.snd)).sum = numer lanes := by
  rw [List.zipWith_map, List.zipWith_self, List.smul_sum, numer, List.map_map]
  refine congrArg _ (List.map_congr_left fun lane _ => ?_)
  show Real.exp m • shifted m lane.1 • lane.2 = _
  rw [smul_smul, exp_mul_shifted]

/-- **One block.**  A visible lane keeps the maximum finite, and what the accumulator
stands for grows by the sums of the block. -/
theorem step_spec (a : Acc V) {lanes : List (Score × V)} (h : ∃ lane ∈ lanes, lane.1 ≠ ⊥) :
    ∃ a', step a lanes = some a' ∧ a'.max ≠ ⊥ ∧
      weight a'.max * a'.denom = weight a.max * a.denom + denom lanes ∧
      weight a'.max • a'.numer = weight a.max • a.numer + numer lanes := by
  obtain ⟨lane, hlane, hs⟩ := h
  have hmax : a.max ⊔ blockMax (lanes.map Prod.fst) ≠ ⊥ := by
    intro hbot
    refine hs (le_bot_iff.1 ?_)
    rw [← hbot]
    exact (le_blockMax (List.mem_map_of_mem hlane)).trans le_sup_right
  obtain ⟨m, hm⟩ := WithBot.ne_bot_iff_exists.1 hmax
  refine ⟨_, by rw [step, ← hm], WithBot.coe_ne_bot, ?_, ?_⟩
  · show Real.exp m * _ = _
    rw [mul_add, exp_mul_sum_shifted, mul_left_comm, exp_mul_shifted, mul_comm a.denom]
  · show Real.exp m • _ = _
    rw [smul_add, exp_smul_sum_shifted, smul_smul, exp_mul_shifted]

/-- **The loop.**  Over blocks that each have a visible lane it ends in a number, and what the
accumulator stands for has grown by the sums over all lanes. -/
theorem run_spec (blocks : List (List (Score × V))) (a : Acc V)
    (h : ∀ lanes ∈ blocks, ∃ lane ∈ lanes, lane.1 ≠ ⊥) :
    ∃ a', run a blocks = some a' ∧ (blocks ≠ [] → a'.max ≠ ⊥) ∧
      weight a'.max * a'.denom = weight a.max * a.denom + denom blocks.flatten ∧
      weight a'.max • a'.numer = weight a.max • a.numer + numer blocks.flatten := by
  induction blocks generalizing a with
  | nil => exact ⟨a, rfl, fun hne => absurd rfl hne, by simp [denom], by simp [numer]⟩
  | cons lanes rest ih =>
    obtain ⟨a₁, hstep, hfin, hden, hnum⟩ := step_spec a (h lanes List.mem_cons_self)
    obtain ⟨a₂, hrun, hfin', hden', hnum'⟩ := ih a₁ fun l hl => h l (List.mem_cons_of_mem _ hl)
    refine ⟨a₂, by rw [run, hstep]; exact hrun, fun _ => ?_, ?_, ?_⟩
    · cases rest with
      | nil =>
        obtain rfl := Option.some.inj hrun
        exact hfin
      | cons _ _ => exact hfin' (List.cons_ne_nil _ _)
    · rw [hden', hden, List.flatten_cons, denom_append, add_assoc]
    · rw [hnum', hnum, List.flatten_cons, numer_append, add_assoc]

/-- **The online softmax is the softmax.**  From the start, over blocks that each have a
visible lane, whose lanes are those of `xs` followed by masked ones: the denominator is
positive and the quotient is the weighted average of `xs`. -/
theorem run_average {blocks : List (List (Score × V))} {xs : List (ℝ × V)} {tail : List (Score × V)}
    (hne : blocks ≠ []) (h : ∀ lanes ∈ blocks, ∃ lane ∈ lanes, lane.1 ≠ ⊥)
    (hflat : blocks.flatten = visible xs ++ tail) (htail : ∀ lane ∈ tail, lane.1 = ⊥) :
    ∃ a, run Acc.start blocks = some a ∧ 0 < a.denom ∧ a.denom⁻¹ • a.numer = average xs := by
  obtain ⟨a, hrun, hfin, hden, hnum⟩ := run_spec blocks Acc.start h
  obtain ⟨m, hm⟩ := WithBot.ne_bot_iff_exists.1 (hfin hne)
  have hpos : 0 < denom blocks.flatten := by
    cases blocks with
    | nil => exact absurd rfl hne
    | cons lanes rest =>
      obtain ⟨lane, hlane, hs⟩ := h lanes List.mem_cons_self
      exact denom_pos ⟨lane, List.mem_flatten_of_mem List.mem_cons_self hlane, hs⟩
  simp only [← hm, weight_coe, Acc.start, weight_bot, zero_mul, zero_smul, zero_add] at hden hnum
  have hmpos := Real.exp_pos m
  refine ⟨a, hrun, ?_, ?_⟩
  · rw [← hden] at hpos
    exact (pos_iff_pos_of_mul_pos hpos).1 hmpos
  · have hvis : denom (visible xs) = Real.exp m * a.denom := by
      rw [hden, hflat, denom_append, denom_masked htail, add_zero]
    have hvis' : numer (visible xs) = Real.exp m • a.numer := by
      rw [hnum, hflat, numer_append, numer_masked htail, add_zero]
    rw [average_eq, hvis, hvis', smul_smul, mul_inv, mul_comm (Real.exp m)⁻¹, mul_assoc,
      inv_mul_cancel₀ hmpos.ne', mul_one]

end OnlineSoftmax
