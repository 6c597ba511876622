/-
# Top-k and then top-p keep the nucleus

`apply_top_k_top_p` masks a row twice: first what is below the `k`-th largest logit, and then, in the
order of `torch.sort`, what the shifted running sums of the probabilities put past `top_p`.  The mask of
the second filter is computed in sorted order and scattered back through the permutation.

`maskTopK_getD` and `maskTopP_getD` say what each filter leaves at an index.  Together they give what
`logits_to_probs` is for: the tokens that can be drawn are the shortest non-empty prefix of the top-k
survivors, in descending order, whose renormalised mass exceeds `top_p` (`nonzero_iff_mem_nucleus`).
-/

import DiSpec.Lib.Cut
import DiSpec.Lib.Nucleus
import DiSpec.Sampling
import Mathlib.Algebra.BigOperators.Ring.List
import Mathlib.Analysis.SpecialFunctions.Exp
import Mathlib.Data.Finset.Max
import Mathlib.Data.List.GetD

namespace DiSpec

open Nucleus

variable {R : Type} [Field R] [LinearOrder R]

/-- What torch promises of the two: `exp` is positive, and `torch.sort(row, descending=True)` lists every
index once, the larger entries first. -/
structure Torch.Lawful (T : Torch R) : Prop where
  exp_pos : ∀ x, 0 < T.exp x
  sort_perm : ∀ row, (T.sortIdx row).Perm (List.range row.length)
  sort_desc : ∀ row, (T.sortIdx row).Pairwise fun i j => row.getD j ⊥ ≤ row.getD i ⊥

/-! ### The two filters of `apply_top_k_top_p` -/

/-- The weight of an entry in a softmax. -/
def weight (T : Torch R) : WithBot R → R
  | ⊥ => 0
  | (x : R) => T.exp x

/-- The first filter. -/
def maskTopK (row : List (WithBot R)) (topK : ℤ) : List (WithBot R) :=
  if 0 < topK then
    row.map fun x => if x < kthLargest (min topK.toNat row.length) row then ⊥ else x
  else row

/-- What the second filter removes, in sorted order. -/
def removed (topP : R) (probs : List R) : List Bool :=
  (List.zipWith (fun c p => decide (topP < c - p)) (cumsum 0 probs) probs).set 0 false

/-- The second filter. -/
def maskTopP (T : Torch R) (row : List (WithBot R)) (topP : R) : List (WithBot R) :=
  let idx := T.sortIdx row
  let remove := removed topP (softmax T (idx.map fun i => row.getD i ⊥))
  (List.range row.length).map fun i => if remove.getD (idx.idxOf i) false then ⊥ else row.getD i ⊥

theorem applyTopKTopP_eq (T : Torch R) (row : List (WithBot R)) (topK : ℤ) {topP : R} (h : topP < 1) :
    applyTopKTopP T row topK topP = maskTopP T (maskTopK row topK) topP :=
  if_pos h

omit [LinearOrder R] in
theorem softmax_eq (T : Torch R) (row : List (WithBot R)) :
    softmax T row = (row.map (weight T)).map (· / (row.map (weight T)).sum) := rfl

omit [Field R] in
theorem length_maskTopK (row : List (WithBot R)) (topK : ℤ) : (maskTopK row topK).length = row.length := by
  unfold maskTopK
  split
  · exact List.length_map _
  · rfl

theorem length_maskTopP (T : Torch R) (row : List (WithBot R)) (topP : R) :
    (maskTopP T row topP).length = row.length := by
  rw [maskTopP, List.length_map, List.length_range]

omit [Field R] in
/-- **The `k`-th largest entry**: an entry is at least that iff fewer than `k` entries are larger. -/
theorem kthLargest_le_iff (row : List (WithBot R)) {k : ℕ} (hk : 1 ≤ k) (hlen : k ≤ row.length)
    (x : WithBot R) : kthLargest k row ≤ x ↔ row.countP (x < ·) < k := by
  set sorted := row.insertionSort fun a b => b ≤ a with hs
  have hperm : sorted.Perm row := List.perm_insertionSort _ _
  have hi : k - 1 < sorted.length := by
    rw [hperm.length_eq]
    omega
  have hdesc : sorted.Pairwise fun a b => b ≤ a := List.pairwise_insertionSort _ _
  have hlarger := Cut.getElem_iff_lt_countP (P := fun y => decide (x < y))
    (hdesc.imp fun hab hb => by
      rw [decide_eq_true_iff] at hb ⊢
      exact hb.trans_le hab) hi
  rw [decide_eq_true_iff, hperm.countP_eq] at hlarger
  rw [kthLargest, ← hs, List.getD_eq_getElem _ _ hi, ← not_lt, hlarger]
  omega

omit [LinearOrder R] in
theorem length_cumsum (acc : R) (xs : List R) : (cumsum acc xs).length = xs.length := by
  induction xs generalizing acc with
  | nil => rfl
  | cons x xs ih => rw [cumsum, List.length_cons, List.length_cons, ih]

omit [LinearOrder R] in
theorem getD_cumsum (acc : R) (xs : List R) {i : ℕ} (hi : i < xs.length) :
    (cumsum acc xs).getD i 0 = acc + (xs.take (i + 1)).sum := by
  induction xs generalizing acc i with
  | nil => exact absurd hi (Nat.not_lt_zero i)
  | cons x xs ih =>
    cases i with
    | zero => simp [cumsum]
    | succ i =>
      rw [cumsum, List.getD_cons_succ, ih (acc + x) (Nat.lt_of_succ_lt_succ hi), List.take_succ_cons,
        List.sum_cons, add_assoc]

/-- **The flags of the second filter**: what comes before an entry has more mass than `top_p`; the first
entry is never removed. -/
theorem removed_getD (topP : R) (probs : List R) {j : ℕ} (hj : j < probs.length) :
    (removed topP probs).getD j false = decide (0 < j ∧ topP < (probs.take j).sum) := by
  have hlen : (List.zipWith (fun c p => decide (topP < c - p)) (cumsum 0 probs) probs).length =
      probs.length := by
    rw [List.length_zipWith, length_cumsum, min_self]
  rw [removed, List.getD_eq_getElem _ _ (by rwa [List.length_set, hlen]), List.getElem_set]
  rcases Nat.eq_zero_or_pos j with rfl | hpos
  · simp
  · have hcum := getD_cumsum 0 probs hj
    rw [List.getD_eq_getElem _ _ (by rwa [length_cumsum]), zero_add, List.sum_take_succ probs j hj] at hcum
    rw [if_neg hpos.ne, List.getElem_zipWith, hcum, add_sub_cancel_right]
    simp [hpos]

variable {T : Torch R}

theorem weight_nonneg (hT : T.Lawful) (x : WithBot R) : 0 ≤ weight T x := by
  cases x with
  | bot => exact le_rfl
  | coe x => exact (hT.exp_pos x).le

theorem weight_ne_zero_iff (hT : T.Lawful) (x : WithBot R) : weight T x ≠ 0 ↔ x ≠ ⊥ := by
  cases x with
  | bot => exact iff_of_false (fun h => h rfl) fun h => h rfl
  | coe x => exact iff_of_true (hT.exp_pos x).ne' (WithBot.coe_ne_bot)

omit [LinearOrder R] in
/-- The probability of an index: its share of the weight of the row. -/
theorem softmax_getD (T : Torch R) (row : List (WithBot R)) (i : ℕ) :
    (softmax T row).getD i 0 = weight T (row.getD i ⊥) / (row.map (weight T)).sum := by
  set share : WithBot R → R := fun x => weight T x / (row.map (weight T)).sum with hshare
  have hbot : share ⊥ = 0 := zero_div _
  rw [softmax_eq, List.map_map, ← hbot]
  exact List.getD_map row ⊥ share

variable [IsStrictOrderedRing R]

/-- A row that is not masked whole has weight. -/
theorem sum_weight_pos (hT : T.Lawful) {row : List (WithBot R)} {i : ℕ} (h : row.getD i ⊥ ≠ ⊥) :
    0 < (row.map (weight T)).sum := by
  have hi : i < row.length := by
    by_contra hi
    exact h (List.getD_eq_default _ _ (not_lt.1 hi))
  rw [List.getD_eq_getElem _ _ hi] at h
  have hpos : 0 < weight T row[i] := lt_of_le_of_ne (weight_nonneg hT _) ((weight_ne_zero_iff hT _).2 h).symm
  refine hpos.trans_le (List.single_le_sum ?_ _ (List.mem_map_of_mem (List.getElem_mem hi)))
  intro w hw
  obtain ⟨x, -, rfl⟩ := List.mem_map.1 hw
  exact weight_nonneg hT x

/-- **What the second filter leaves**: the first `m` indices in sorted order, `m` being the length of the
shortest prefix of the sorted probabilities that exceeds `top_p`. -/
theorem maskTopP_getD (hT : T.Lawful) {row : List (WithBot R)} {topP : R} (h0 : 0 ≤ topP) {m : ℕ}
    (hm : Shortest topP (softmax T ((T.sortIdx row).map fun i => row.getD i ⊥)) m) (i : ℕ) :
    (maskTopP T row topP).getD i ⊥ = if i ∈ (T.sortIdx row).take m then row.getD i ⊥ else ⊥ := by
  set idx := T.sortIdx row with hidx
  set probs := softmax T (idx.map fun i => row.getD i ⊥) with hprobs
  have hperm : idx.Perm (List.range row.length) := hT.sort_perm row
  have hlen : probs.length = idx.length := by
    rw [hprobs, softmax_eq, List.length_map, List.length_map, List.length_map]
  have hnonneg : ∀ x ∈ probs, 0 ≤ x := by
    intro x hx
    rw [hprobs, softmax_eq] at hx
    obtain ⟨w, hw, rfl⟩ := List.mem_map.1 hx
    have hall : ∀ w ∈ (idx.map fun i => row.getD i ⊥).map (weight T), 0 ≤ w := by
      intro w hw
      obtain ⟨x, -, rfl⟩ := List.mem_map.1 hw
      exact weight_nonneg hT x
    exact div_nonneg (hall w hw) (List.sum_nonneg hall)
  rcases Nat.lt_or_ge i row.length with hi | hi
  · have hmem : i ∈ idx := hperm.mem_iff.2 (List.mem_range.2 hi)
    have hpos : idx.idxOf i < probs.length := by
      rw [hlen]
      exact List.idxOf_lt_length_of_mem hmem
    rw [maskTopP, List.getD_eq_getElem _ _ (by rwa [List.length_map, List.length_range]), List.getElem_map,
      List.getElem_range]
    simp only [← hidx, ← hprobs, removed_getD topP probs hpos, List.mem_take_iff_idxOf_lt hmem,
      hm.lt_iff hnonneg h0, decide_eq_true_iff]
    by_cases hle : (probs.take (idx.idxOf i)).sum ≤ topP
    · rw [if_neg fun h => absurd h.2 (not_lt.2 hle), if_pos hle]
    · have hne : idx.idxOf i ≠ 0 := by
        intro h
        rw [h, List.take_zero, List.sum_nil] at hle
        exact hle h0
      rw [if_pos ⟨Nat.pos_of_ne_zero hne, not_le.1 hle⟩, if_neg hle]
  · have hnot : i ∉ idx.take m := fun h => by
      have := List.mem_range.1 (hperm.mem_iff.1 (List.mem_of_mem_take h))
      omega
    rw [if_neg hnot, List.getD_eq_default]
    rwa [length_maskTopP]

/-! ### The nucleus of a row of logits -/

/-- The row that `logits_to_probs` filters. -/
def tempered (params : SamplingParams R) (logits : List R) : List (WithBot R) :=
  logits.map fun x => ((x / params.temperature : R) : WithBot R)

/-- A token survives top-k if fewer than `k` logits are larger than its own, which is then at least the
`k`-th largest; all do if `top_k` is 0. -/
def Survives (topK : ℤ) (logits : List R) (i : ℕ) : Prop :=
  i < logits.length ∧ (topK = 0 ∨ (logits.countP fun x => logits.getD i 0 < x) < topK)

instance (topK : ℤ) (logits : List R) : DecidablePred (Survives topK logits) := fun _ =>
  inferInstanceAs (Decidable (_ ∧ _))

/-- The survivors of top-k, in the order in which `torch.sort` lists the row. -/
def ranked (T : Torch R) (params : SamplingParams R) (logits : List R) : List ℕ :=
  (T.sortIdx (maskTopK (tempered params logits) params.topK)).filter
    fun i => Survives params.topK logits i

/-- The mass of a token, renormalised over the survivors. -/
def renormalised (T : Torch R) (params : SamplingParams R) (logits : List R) (i : ℕ) : R :=
  T.exp (logits.getD i 0 / params.temperature) /
    ((ranked T params logits).map fun j => T.exp (logits.getD j 0 / params.temperature)).sum

variable {params : SamplingParams R} {logits : List R}

omit [LinearOrder R] [IsStrictOrderedRing R] in
theorem tempered_getD (params : SamplingParams R) {i : ℕ} (hi : i < logits.length) :
    (tempered params logits).getD i ⊥ = ((logits.getD i 0 / params.temperature : R) : WithBot R) := by
  rw [tempered, List.getD_eq_getElem _ _ (by rwa [List.length_map]), List.getElem_map,
    List.getD_eq_getElem _ _ hi]

/-- Dividing by the temperature keeps the order of the logits. -/
theorem countP_tempered (ht : 0 < params.temperature) (x : R) :
    (tempered params logits).countP (((x / params.temperature : R) : WithBot R) < ·) =
      logits.countP fun y => x < y := by
  rw [tempered, List.countP_map]
  refine List.countP_congr fun y _ => ?_
  simp only [Function.comp_apply, decide_eq_true_iff, WithBot.coe_lt_coe]
  exact div_lt_div_iff_of_pos_right ht

/-- **What the first filter leaves**: the survivors. -/
theorem maskTopK_getD (ht : 0 < params.temperature) (hk : 0 ≤ params.topK) (i : ℕ) :
    (maskTopK (tempered params logits) params.topK).getD i ⊥ =
      if Survives params.topK logits i then ((logits.getD i 0 / params.temperature : R) : WithBot R)
      else ⊥ := by
  have hlen : (tempered params logits).length = logits.length := List.length_map _
  rcases Nat.lt_or_ge i logits.length with hi | hi
  · have hrow := tempered_getD params hi
    rcases hk.eq_or_lt with h0 | hpos
    · rw [if_pos ⟨hi, Or.inl h0.symm⟩, maskTopK, if_neg h0.ge.not_gt, hrow]
    have hself : (logits.countP fun y => logits.getD i 0 < y) < logits.length := by
      refine lt_of_le_of_ne List.countP_le_length fun hall => ?_
      have hmem : logits.getD i 0 ∈ logits := by
        rw [List.getD_eq_getElem _ _ hi]
        exact List.getElem_mem hi
      exact lt_irrefl _ (of_decide_eq_true (List.countP_eq_length.1 hall _ hmem))
    have hle := kthLargest_le_iff (tempered params logits) (k := min params.topK.toNat logits.length)
      (by omega) (by omega) ((logits.getD i 0 / params.temperature : R) : WithBot R)
    rw [countP_tempered ht] at hle
    rw [maskTopK, if_pos hpos, hlen, List.getD_eq_getElem _ _ (by rwa [List.length_map, hlen]),
      List.getElem_map, ← List.getD_eq_getElem _ ⊥ (by rwa [hlen]), hrow]
    by_cases hs : Survives params.topK logits i
    · have hfew := hs.2
      rw [if_pos hs, if_neg (not_lt.2 (hle.2 (by omega)))]
    · have hmany : ¬((logits.countP fun y => logits.getD i 0 < y : ℕ) : ℤ) < params.topK :=
        fun h => hs ⟨hi, Or.inr h⟩
      rw [if_neg hs, if_pos (not_le.1 fun h => ?_)]
      have := hle.1 h
      omega
  · rw [if_neg fun h => absurd h.1 (not_lt.2 hi), List.getD_eq_default]
    rwa [length_maskTopK, hlen]

omit [IsStrictOrderedRing R] in
/-- A row has a largest logit. -/
theorem exists_max_logit (hne : logits ≠ []) :
    ∃ i < logits.length, ∀ j < logits.length, logits.getD j 0 ≤ logits.getD i 0 := by
  obtain ⟨i, hi, hmax⟩ := Finset.exists_max_image (Finset.range logits.length) (fun i => logits.getD i 0)
    ⟨0, Finset.mem_range.2 (List.length_pos_iff.2 hne)⟩
  exact ⟨i, Finset.mem_range.1 hi, fun j hj => hmax j (Finset.mem_range.2 hj)⟩

section

variable (hT : T.Lawful) (ht : 0 < params.temperature) (hk : 0 ≤ params.topK)
include ht hk

theorem maskTopK_ne_bot_iff (i : ℕ) :
    (maskTopK (tempered params logits) params.topK).getD i ⊥ ≠ ⊥ ↔ Survives params.topK logits i := by
  rw [maskTopK_getD ht hk]
  split
  next hs => exact iff_of_true WithBot.coe_ne_bot hs
  next hs => exact iff_of_false (fun h => h rfl) hs

include hT

/-- Once a token does not survive, none behind it does. -/
theorem survives_closed : (T.sortIdx (maskTopK (tempered params logits) params.topK)).Pairwise
    fun i j => decide (Survives params.topK logits j) = true → decide (Survives params.topK logits i) = true := by
  refine (hT.sort_desc _).imp fun {i j} hij hj => ?_
  rw [decide_eq_true_iff, ← maskTopK_ne_bot_iff ht hk] at hj ⊢
  exact fun hbot => hj (le_bot_iff.1 (hij.trans_eq hbot))

/-- **The survivors come first** in the order of the sort. -/
theorem ranked_eq_take : ranked T params logits =
    (T.sortIdx (maskTopK (tempered params logits) params.topK)).take
      ((T.sortIdx (maskTopK (tempered params logits) params.topK)).countP
        fun i => Survives params.topK logits i) :=
  Cut.filter_eq_take_countP (survives_closed hT ht hk)

omit ht hk [IsStrictOrderedRing R] in
/-- They are ranked once each. -/
theorem ranked_perm : (ranked T params logits).Perm
    ((List.range logits.length).filter fun i => Survives params.topK logits i) := by
  have hperm := hT.sort_perm (maskTopK (tempered params logits) params.topK)
  rw [length_maskTopK, tempered, List.length_map] at hperm
  exact hperm.filter _

variable (logits) in
/-- They are ranked by their logits. -/
theorem ranked_desc : (ranked T params logits).Pairwise fun i j => logits.getD j 0 ≤ logits.getD i 0 := by
  refine List.Pairwise.imp_of_mem (fun {i j} hi hj hij => ?_)
    ((hT.sort_desc (maskTopK (tempered params logits) params.topK)).filter _)
  have hi := of_decide_eq_true (List.mem_filter.1 hi).2
  have hj := of_decide_eq_true (List.mem_filter.1 hj).2
  rw [maskTopK_getD ht hk, maskTopK_getD ht hk, if_pos hi, if_pos hj, WithBot.coe_le_coe] at hij
  exact (div_le_div_iff_of_pos_right ht).1 hij

omit ht [IsStrictOrderedRing R] in
/-- A row has a survivor: its largest logit. -/
theorem ranked_ne_nil (hne : logits ≠ []) : ranked T params logits ≠ [] := by
  obtain ⟨i, hi, hmax⟩ := exists_max_logit hne
  have hnone : (logits.countP fun x => logits.getD i 0 < x) = 0 := by
    refine List.countP_eq_zero.2 fun x hx => ?_
    obtain ⟨j, hj, rfl⟩ := List.getElem_of_mem hx
    rw [decide_eq_true_iff, not_lt, ← List.getD_eq_getElem _ 0 hj]
    exact hmax j hj
  have hs : Survives params.topK logits i := ⟨hi, by omega⟩
  exact List.ne_nil_of_mem <| (ranked_perm hT).mem_iff.2 <|
    List.mem_filter.2 ⟨List.mem_range.2 hi, decide_eq_true hs⟩

variable (logits) in
/-- The weights of the row in the order of the sort: those of the survivors, and zeros. -/
theorem sorted_weights : ∃ w, (T.sortIdx (maskTopK (tempered params logits) params.topK)).map (fun i =>
      weight T ((maskTopK (tempered params logits) params.topK).getD i ⊥)) =
    ((ranked T params logits).map fun i => T.exp (logits.getD i 0 / params.temperature)) ++ w ∧
      ∀ x ∈ w, x = 0 := by
  set row := maskTopK (tempered params logits) params.topK with hrow
  set c := (T.sortIdx row).countP fun i => Survives params.topK logits i with hc
  have htake : ranked T params logits = (T.sortIdx row).take c := ranked_eq_take hT ht hk
  refine ⟨((T.sortIdx row).drop c).map fun i => weight T (row.getD i ⊥), ?_, fun x hx => ?_⟩
  · rw [← List.take_append_drop c (T.sortIdx row), List.map_append, List.take_append_drop, ← htake]
    refine congrArg (· ++ _) (List.map_congr_left fun i hi => ?_)
    rw [hrow, maskTopK_getD ht hk, if_pos (of_decide_eq_true (List.mem_filter.1 hi).2)]
    rfl
  · obtain ⟨i, hi, rfl⟩ := List.mem_map.1 hx
    have hnot := Cut.not_of_mem_drop_countP (survives_closed hT ht hk) hi
    rw [decide_eq_true_iff] at hnot
    rw [hrow, maskTopK_getD ht hk, if_neg hnot]
    rfl

variable (logits) in
/-- **The sorted probabilities** of the second filter: the renormalised masses, and zeros. -/
theorem sorted_softmax : ∃ w, softmax T ((T.sortIdx (maskTopK (tempered params logits) params.topK)).map
      fun i => (maskTopK (tempered params logits) params.topK).getD i ⊥) =
    ((ranked T params logits).map (renormalised T params logits)) ++ w := by
  obtain ⟨w, heq, hzero⟩ := sorted_weights logits hT ht hk
  set row := maskTopK (tempered params logits) params.topK with hrow
  set total := ((ranked T params logits).map fun j => T.exp (logits.getD j 0 / params.temperature)).sum
    with htotal
  have hmap : ((T.sortIdx row).map fun i => row.getD i ⊥).map (weight T) =
      (T.sortIdx row).map fun i => weight T (row.getD i ⊥) := List.map_map
  have hsum := congrArg List.sum heq
  rw [List.sum_append, List.sum_eq_zero hzero, add_zero, ← htotal] at hsum
  refine ⟨w.map (· / total), ?_⟩
  rw [softmax_eq, hmap, hsum, heq, List.map_append, List.map_map]
  rfl

omit ht in
/-- The survivors have all the mass. -/
theorem sum_renormalised (hne : logits ≠ []) :
    ((ranked T params logits).map (renormalised T params logits)).sum = 1 := by
  set total := ((ranked T params logits).map fun j => T.exp (logits.getD j 0 / params.temperature)).sum
    with htotal
  have hpos : 0 < total := by
    refine List.sum_pos _ (fun x hx => ?_) ?_
    · obtain ⟨i, -, rfl⟩ := List.mem_map.1 hx
      exact hT.exp_pos _
    · rw [Ne, List.map_eq_nil_iff]
      exact ranked_ne_nil hT hk hne
  calc ((ranked T params logits).map (renormalised T params logits)).sum
      = ((ranked T params logits).map fun i =>
          T.exp (logits.getD i 0 / params.temperature) * total⁻¹).sum :=
        congrArg List.sum (List.map_congr_left fun i _ => div_eq_mul_inv _ _)
    _ = total * total⁻¹ := List.sum_map_mul_right _ _ _
    _ = 1 := mul_inv_cancel₀ hpos.ne'

/-- **What `logits_to_probs` gives**: the weights of a prefix of the survivors, as long as the filter for
`top_p` says, and zero elsewhere. -/
theorem exists_nucleus (hne : logits ≠ []) (h0 : 0 ≤ params.topP) (h1 : params.topP < 1) :
    ∃ m ≤ (ranked T params logits).length,
      Shortest params.topP ((ranked T params logits).map (renormalised T params logits)) m ∧
      ∃ total, 0 < total ∧ ∀ i, (logitsToProbs T params logits).getD i 0 =
        if i ∈ (ranked T params logits).take m then T.exp (logits.getD i 0 / params.temperature) / total
        else 0 := by
  obtain ⟨m, hm, hle⟩ := exists_shortest h0 ((sum_renormalised hT hk hne).symm ▸ h1)
  have hlen := hle
  rw [List.length_map] at hlen
  obtain ⟨w, hprobs⟩ := sorted_softmax logits hT ht hk
  have hm' := hm.append hle w
  rw [← hprobs] at hm'
  have hgreedy : params.greedy = false := decide_eq_false (not_le.2 ht)
  have hdrawn : logitsToProbs T params logits =
      softmax T (maskTopP T (maskTopK (tempered params logits) params.topK) params.topP) := by
    rw [logitsToProbs, hgreedy, if_neg Bool.false_ne_true, applyTopKTopP_eq _ _ _ h1]
    rfl
  have htake : (ranked T params logits).take m =
      (T.sortIdx (maskTopK (tempered params logits) params.topK)).take m := by
    have hcount := hlen
    rw [ranked_eq_take hT ht hk, List.length_take] at hcount
    rw [ranked_eq_take hT ht hk, List.take_take, min_eq_left (hcount.trans (min_le_left _ _))]
  set out := maskTopP T (maskTopK (tempered params logits) params.topK) params.topP with hdef
  have hout : ∀ i, out.getD i ⊥ = if i ∈ (ranked T params logits).take m then
      ((logits.getD i 0 / params.temperature : R) : WithBot R) else ⊥ := by
    intro i
    rw [hdef, maskTopP_getD hT h0 hm', ← htake]
    split
    next hi =>
      rw [maskTopK_getD ht hk, if_pos]
      exact of_decide_eq_true (List.mem_filter.1 (List.mem_of_mem_take hi)).2
    next => rfl
  refine ⟨m, hlen, hm, (out.map (weight T)).sum, ?_, fun i => ?_⟩
  · obtain ⟨i, hi⟩ := List.exists_mem_of_ne_nil ((ranked T params logits).take m) <| by
      rw [Ne, List.take_eq_nil_iff, not_or]
      exact ⟨Nat.one_le_iff_ne_zero.1 hm.pos, ranked_ne_nil hT hk hne⟩
    refine sum_weight_pos hT (i := i) ?_
    rw [hout, if_pos hi]
    exact WithBot.coe_ne_bot
  · rw [hdrawn, softmax_getD, hout]
    split
    · rfl
    · exact zero_div _

end

omit [IsStrictOrderedRing R] in
/-- A token whose logit is below that of a survivor's is no better placed. -/
theorem Survives.le_of_not {topK : ℤ} {i j : ℕ} (hi : Survives topK logits i) (hj : j < logits.length)
    (hnot : ¬Survives topK logits j) : logits.getD j 0 ≤ logits.getD i 0 := by
  by_contra hlt
  refine hnot ⟨hj, hi.2.imp_right fun hfew => ?_⟩
  have hmono : (logits.countP fun x => logits.getD j 0 < x) ≤ logits.countP fun x => logits.getD i 0 < x :=
    List.countP_mono_left fun x _ hx => by
      rw [decide_eq_true_iff] at hx ⊢
      exact (not_le.1 hlt).trans hx
  omega

/-- **What is not in a prefix of the survivors** has a logit no larger than those that are. -/
theorem le_of_mem_take (hT : T.Lawful) (ht : 0 < params.temperature) (hk : 0 ≤ params.topK) {m i j : ℕ}
    (hi : i ∈ (ranked T params logits).take m) (hj : j < logits.length)
    (hnot : j ∉ (ranked T params logits).take m) : logits.getD j 0 ≤ logits.getD i 0 := by
  by_cases hs : j ∈ ranked T params logits
  · have hdesc := ranked_desc logits hT ht hk
    rw [← List.take_append_drop m (ranked T params logits), List.pairwise_append] at hdesc
    rw [← List.take_append_drop m (ranked T params logits), List.mem_append] at hs
    exact hdesc.2.2 i hi j (hs.resolve_left hnot)
  · have hsurvive := (List.mem_filter.1 ((ranked_perm hT).mem_iff.1 (List.mem_of_mem_take hi))).2
    refine (of_decide_eq_true hsurvive).le_of_not hj fun hsj => hs ?_
    exact (ranked_perm hT).mem_iff.2 (List.mem_filter.2 ⟨List.mem_range.2 hj, decide_eq_true hsj⟩)

/-- The unfiltered softmax. -/
theorem unfiltered_getD (hT : T.Lawful) (ht : 0 < params.temperature) (hne : logits ≠ []) :
    ∃ total, 0 < total ∧ ∀ i < logits.length,
      (logitsToProbs T { params with topK := 0, topP := 1 } logits).getD i 0 =
        T.exp (logits.getD i 0 / params.temperature) / total := by
  have hgreedy : ({ params with topK := 0, topP := 1 } : SamplingParams R).greedy = false :=
    decide_eq_false (not_le.2 ht)
  have hdrawn : logitsToProbs T { params with topK := 0, topP := 1 } logits =
      softmax T (tempered params logits) := by
    rw [logitsToProbs, hgreedy, if_neg Bool.false_ne_true, applyTopKTopP, if_neg (lt_irrefl _),
      if_neg (lt_irrefl _)]
    rfl
  refine ⟨((tempered params logits).map (weight T)).sum, ?_, fun i hi => ?_⟩
  · refine sum_weight_pos hT (i := 0) ?_
    rw [tempered_getD params (List.length_pos_iff.2 hne)]
    exact WithBot.coe_ne_bot
  · rw [hdrawn, softmax_getD, tempered_getD params hi]
    rfl

omit [IsStrictOrderedRing R] in
/-- What can be drawn from such a row. -/
theorem drawn_iff (hT : T.Lawful) {probs : List R} {kept : List ℕ} {total : R} (htotal : 0 < total)
    (h : ∀ i, probs.getD i 0 =
      if i ∈ kept then T.exp (logits.getD i 0 / params.temperature) / total else 0) (i : ℕ) :
    probs.getD i 0 ≠ 0 ↔ i ∈ kept := by
  rw [h i]
  split
  next hi => exact iff_of_true (div_ne_zero (hT.exp_pos _).ne' htotal.ne') hi
  next hi => exact iff_of_false (fun h => h rfl) hi

/-- **Top-k followed by top-p keeps exactly the nucleus.**  The tokens that can be drawn are the shortest
non-empty prefix of the survivors of top-k, in the order of the sort, whose renormalised mass exceeds
`top_p`.  An argmax is among them, no logit among them is below one that is not, their relative
probabilities are those of the unfiltered softmax, and a larger `top_p` keeps them all. -/
theorem topK_topP_keeps_nucleus {T : Torch R} (hT : T.Lawful) {logits : List R} (hne : logits ≠ [])
    {params : SamplingParams R} (ht : 0 < params.temperature) (hk : 0 ≤ params.topK) (h0 : 0 ≤ params.topP)
    (h1 : params.topP < 1) :
    let probs := logitsToProbs T params logits
    let unfiltered := logitsToProbs T { params with topK := 0, topP := 1 } logits
    (ranked T params logits).Perm
      ((List.range logits.length).filter fun i => Survives params.topK logits i) ∧
    ((ranked T params logits).Pairwise fun i j => logits.getD j 0 ≤ logits.getD i 0) ∧
    (∃ m ≤ (ranked T params logits).length,
      Shortest params.topP ((ranked T params logits).map (renormalised T params logits)) m ∧
      ∀ i, probs.getD i 0 ≠ 0 ↔ i ∈ (ranked T params logits).take m) ∧
    (∃ i, probs.getD i 0 ≠ 0 ∧ ∀ j < logits.length, logits.getD j 0 ≤ logits.getD i 0) ∧
    (∀ i j, probs.getD i 0 ≠ 0 → j < logits.length → probs.getD j 0 = 0 →
      logits.getD j 0 ≤ logits.getD i 0) ∧
    (∀ i j, probs.getD i 0 ≠ 0 → probs.getD j 0 ≠ 0 →
      probs.getD i 0 / probs.getD j 0 = unfiltered.getD i 0 / unfiltered.getD j 0) ∧
    ∀ topP, params.topP ≤ topP → topP < 1 → ∀ i, probs.getD i 0 ≠ 0 →
      (logitsToProbs T { params with topP } logits).getD i 0 ≠ 0 := by
  intro probs unfiltered
  obtain ⟨m, hlen, hm, total, htotal, hprobs⟩ := exists_nucleus hT ht hk hne h0 h1
  have hkept : ∀ i, probs.getD i 0 ≠ 0 ↔ i ∈ (ranked T params logits).take m := drawn_iff hT htotal hprobs
  have hsort : ∀ i j, probs.getD i 0 ≠ 0 → j < logits.length → probs.getD j 0 = 0 →
      logits.getD j 0 ≤ logits.getD i 0 := fun i j hi hj hzero =>
    le_of_mem_take hT ht hk ((hkept i).1 hi) hj fun hmem => (hkept j).2 hmem hzero
  refine ⟨ranked_perm hT, ranked_desc logits hT ht hk, ⟨m, hlen, hm, hkept⟩, ?_, hsort, ?_, ?_⟩
  · -- the largest logit, or one that is kept in its place
    obtain ⟨i, hi, hmax⟩ := exists_max_logit hne
    by_cases hzero : probs.getD i 0 = 0
    · obtain ⟨j, hj⟩ := List.exists_mem_of_ne_nil ((ranked T params logits).take m) <| by
        rw [Ne, List.take_eq_nil_iff, not_or]
        exact ⟨Nat.one_le_iff_ne_zero.1 hm.pos, ranked_ne_nil hT hk hne⟩
      have hj := (hkept j).2 hj
      exact ⟨j, hj, fun j' hj' => (hmax j' hj').trans (hsort j i hj hi hzero)⟩
    · exact ⟨i, hzero, hmax⟩
  · intro i j hi hj
    have hi := (hkept i).1 hi
    have hj := (hkept j).1 hj
    obtain ⟨all, hall, hunfiltered⟩ := unfiltered_getD hT ht hne
    have hlt : ∀ i, i ∈ (ranked T params logits).take m → i < logits.length := fun i hi =>
      List.mem_range.1 (List.mem_filter.1 ((ranked_perm hT).mem_iff.1 (List.mem_of_mem_take hi))).1
    rw [hprobs i, hprobs j, if_pos hi, if_pos hj, hunfiltered i (hlt i hi), hunfiltered j (hlt j hj),
      div_div_div_cancel_right₀ htotal.ne', div_div_div_cancel_right₀ hall.ne']
  · intro topP hle hlt i hi
    have ht' : 0 < ({ params with topP } : SamplingParams R).temperature := ht
    obtain ⟨m', -, hm', total', htotal', hprobs'⟩ := exists_nucleus hT ht' hk hne (h0.trans hle) hlt
    have hmm : m ≤ m' := hm.mono hm' hle
    exact (drawn_iff hT htotal' hprobs' i).2 (List.take_subset_take_left _ hmm ((hkept i).1 hi))

omit [Field R] [IsStrictOrderedRing R] in
/-- The order of a stable sort. -/
def stableSort (row : List (WithBot R)) : List ℕ :=
  (List.range row.length).insertionSort fun i j => row.getD j ⊥ ≤ row.getD i ⊥

omit [IsStrictOrderedRing R] in
theorem lawful_stableSort {exp : R → R} (h : ∀ x, 0 < exp x) : Torch.Lawful ⟨exp, stableSort⟩ where
  exp_pos := h
  sort_perm _ := List.perm_insertionSort _ _
  sort_desc row := by
    have : Std.Total fun i j => row.getD j ⊥ ≤ row.getD i ⊥ := ⟨fun i j => le_total _ _⟩
    have : IsTrans ℕ fun i j => row.getD j ⊥ ≤ row.getD i ⊥ := ⟨fun _ _ _ h h' => h'.trans h⟩
    exact List.pairwise_insertionSort _ _

/-- The hypotheses are satisfiable: with the exponential and a stable sort, top-2 and top-p at a half keep
the largest of three logits, two of which are equal. -/
theorem topK_topP_keeps_nucleus_tie :
    (logitsToProbs ⟨Real.exp, stableSort⟩ ⟨1, 1 / 2, 2⟩ [0, 1, (0 : ℝ)]).getD 1 0 ≠ 0 := by
  have hne : ([0, 1, 0] : List ℝ) ≠ [] := List.cons_ne_nil _ _
  have ht : 0 < (⟨1, 1 / 2, 2⟩ : SamplingParams ℝ).temperature := one_pos
  obtain ⟨-, -, -, ⟨i, hi, hmax⟩, -⟩ := topK_topP_keeps_nucleus (lawful_stableSort Real.exp_pos) hne ht
    (by norm_num) (by norm_num) (by norm_num)
  have h1 : (1 : ℝ) ≤ [0, 1, (0 : ℝ)].getD i 0 := hmax 1 (by simp)
  match i with
  | 0 => exact absurd h1 (by norm_num)
  | 1 => exact hi
  | 2 => exact absurd h1 (by norm_num)
  | i + 3 => exact absurd h1 (by norm_num)

end DiSpec
