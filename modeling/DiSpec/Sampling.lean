/-
# Sampling

`dispec/sampling.py`: `SamplingParams`, `apply_top_k_top_p`, `logits_to_probs`,
`sample_from_probs`, `sample`.

A row of logits or probabilities is a list over the vocabulary.  The numbers are
any ordered field.  Two pieces of torch are parameters (`Torch`): `exp`, and the
order in which `torch.sort(descending=True)` lists the indices of a row, which
torch leaves open among equal values.  A masked logit is `⊥`, torch's `-inf`.
-/

import DiSpec.Lib.RandM
import Mathlib.Algebra.BigOperators.Group.List.Basic
import Mathlib.Algebra.Order.Field.Basic
import Mathlib.Data.List.Sort
import Mathlib.Order.WithBot

namespace DiSpec

/-- The parts of torch that the sampling code calls: `exp`, and the index list of
`torch.sort(row, descending=True)`. -/
structure Torch (R : Type) where
  exp : R → R
  sortIdx : List (WithBot R) → List ℕ

/-- `SamplingParams`. -/
structure SamplingParams (R : Type) where
  temperature : R
  topP : R
  topK : ℤ

section

variable {R : Type} [Field R] [LinearOrder R]

/-- The defaults: greedy, no filter. -/
def SamplingParams.default : SamplingParams R := ⟨0, 1, 0⟩

/-- `SamplingParams.greedy`. -/
def SamplingParams.greedy (p : SamplingParams R) : Bool := decide (p.temperature ≤ 0)

/-- The index of the first maximum of `x :: xs`, `i` being the index of `x`. -/
def argmaxFrom : ℕ → R → ℕ → List R → ℕ
  | best, _, _, [] => best
  | best, top, i, x :: xs => if top < x then argmaxFrom i x (i + 1) xs else argmaxFrom best top (i + 1) xs

/-- `row.argmax(dim=-1)`: the first index of the maximum. -/
def argmax : List R → ℕ
  | [] => 0
  | x :: xs => argmaxFrom 0 x 1 xs

omit [Field R] in
theorem argmaxFrom_lt {best i : ℕ} (top : R) (xs : List R) (h : best < i) :
    argmaxFrom best top i xs < i + xs.length := by
  induction xs generalizing best top i with
  | nil => exact h
  | cons x xs ih =>
    rw [argmaxFrom, List.length_cons]
    split
    · have := ih x (Nat.lt_add_one i)
      omega
    · have := ih top (h.trans (Nat.lt_add_one i))
      omega

omit [Field R] in
/-- The index of the maximum is an index. -/
theorem argmax_lt {row : List R} (h : row ≠ []) : argmax row < row.length := by
  cases row with
  | nil => exact absurd rfl h
  | cons x xs =>
    have := argmaxFrom_lt x xs Nat.one_pos
    rw [argmax, List.length_cons]
    omega

/-- The one-hot row of length `n` at index `i`. -/
def oneHot (n i : ℕ) : List R := (List.replicate n 0).set i 1

omit [LinearOrder R] in
theorem length_oneHot (n i : ℕ) : (oneHot n i : List R).length = n := by simp [oneHot]

omit [LinearOrder R] in
theorem getElem?_oneHot {n : ℕ} (i : ℕ) {j : ℕ} (h : j < n) :
    (oneHot n i : List R)[j]? = some (if j = i then 1 else 0) := by
  rcases eq_or_ne j i with rfl | hne
  · rw [oneHot, List.getElem?_set_self (by simpa using h), if_pos rfl]
  · rw [oneHot, List.getElem?_set_ne hne.symm, List.getElem?_replicate, if_pos h, if_neg hne]

omit [LinearOrder R] in
theorem sum_oneHot {n i : ℕ} (h : i < n) : (oneHot n i : List R).sum = 1 := by
  induction n generalizing i with
  | zero => exact absurd h (Nat.not_lt_zero i)
  | succ n ih =>
    cases i with
    | zero => simp [oneHot, List.replicate_succ, List.sum_replicate]
    | succ i =>
      rw [oneHot, List.replicate_succ, List.set_cons_succ, List.sum_cons, zero_add]
      exact ih (Nat.lt_of_succ_lt_succ h)

/-- `row.softmax(dim=-1)`, a masked entry weighing nothing. -/
def softmax (T : Torch R) (row : List (WithBot R)) : List R :=
  let e := row.map fun x => match x with | ⊥ => 0 | (x : R) => T.exp x
  e.map (· / e.sum)

/-- `row.topk(k).values[-1]`: the `k`-th largest entry. -/
def kthLargest (k : ℕ) (row : List (WithBot R)) : WithBot R :=
  (row.insertionSort fun a b => b ≤ a).getD (k - 1) ⊥

/-- The inclusive running sums of a row. -/
def cumsum : R → List R → List R
  | _, [] => []
  | acc, x :: xs => (acc + x) :: cumsum (acc + x) xs

/-- `apply_top_k_top_p`: mask what the two filters remove. -/
def applyTopKTopP (T : Torch R) (row : List (WithBot R)) (topK : ℤ) (topP : R) : List (WithBot R) :=
  let row :=
    if 0 < topK then
      let kth := kthLargest (min topK.toNat row.length) row
      row.map fun x => if x < kth then ⊥ else x
    else row
  if topP < 1 then
    let idx := T.sortIdx row
    let probs := softmax T (idx.map fun i => row.getD i ⊥)
    -- `cum - probs > top_p`, the first sorted entry being kept whatever its mass
    let remove := ((List.zipWith (fun c p => decide (topP < c - p)) (cumsum 0 probs) probs).set 0 false)
    (List.range row.length).map fun i =>
      if remove.getD (idx.idxOf i) false then ⊥ else row.getD i ⊥
  else row

/-- `logits_to_probs`: the distribution a token is drawn from. -/
def logitsToProbs (T : Torch R) (params : SamplingParams R) (logits : List R) : List R :=
  if params.greedy then oneHot logits.length (argmax logits)
  else softmax T (applyTopKTopP T (logits.map fun x => ((x / params.temperature : R) : WithBot R))
    params.topK params.topP)

/-- `sample_from_probs` on one row. -/
def sampleFromProbs (probs : List R) : RandM R ℕ := .multinomial probs .pure

/-- `sample_from_probs` on the rows of a batch, one draw after the other. -/
def sampleRowsFromProbs : List (List R) → RandM R (List ℕ)
  | [] => .pure []
  | row :: rows => (sampleFromProbs row).bind fun t => (sampleRowsFromProbs rows).map (t :: ·)

/-- `sample` on a batch of rows: every row with the same parameters. -/
def sample (T : Torch R) (params : SamplingParams R) (logits : List (List R)) : RandM R (List ℕ) :=
  if params.greedy then .pure (logits.map argmax)
  else sampleRowsFromProbs (logits.map (logitsToProbs T params))

/-- What `sample` is for: the draw of one token from one row. -/
def nextToken (T : Torch R) (params : SamplingParams R) (row : List R) : RandM R ℕ :=
  if params.greedy then .pure (argmax row) else sampleFromProbs (logitsToProbs T params row)

/-- **`sample` draws the token of each row on its own**, one after the other. -/
theorem sample_eq (T : Torch R) (params : SamplingParams R) (rows : List (List R)) :
    sample T params rows = RandM.sequence (rows.map (nextToken T params)) := by
  unfold sample nextToken
  split
  · rw [← RandM.sequence_pure, List.map_map]
    rfl
  · induction rows with
    | nil => rfl
    | cons row rows ih =>
      rw [List.map_cons, List.map_cons, sampleRowsFromProbs, RandM.sequence, ← ih]

end

end DiSpec
