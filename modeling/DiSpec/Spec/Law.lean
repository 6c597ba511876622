/-
# The law of a speculative call

Rejection sampling is lossless for one round (`DiSpec.Spec.Lossless`).  Here it is carried
through `SpeculativeEngine.generate`: two paged caches, the distributions carried from
round to round, rollback, EOS and the length limit.

`roundText` is what a round draws, with no cache: `K` tokens from the draft and what
`rejection_sample` makes of them.  Against any generator the loop of the engine returns
what the loop over such rounds returns and leaves the generator where that leaves it
(`loop_run`, `generate_run`).  A round completes the target's distribution
(`completes_roundText`), so the loop over rounds has the law of decoding token by token
with the target.  `distOf` is why this applies: `logits_to_probs` gives a distribution
for all parameters.
-/

import DiSpec.Lib.Chunked
import DiSpec.Nucleus
import DiSpec.Spec.Footprint
import DiSpec.Spec.Greedy
import DiSpec.Spec.Lossless

namespace DiSpec

open Autoregressive

/-! ### `logits_to_probs` gives a distribution -/

section Distribution

variable {R : Type} [Field R] [LinearOrder R]

omit [Field R] in
/-- A row that is not masked whole has a largest entry, which is not masked. -/
theorem exists_max_entry {row : List (WithBot R)} {i : ℕ} (h : row.getD i ⊥ ≠ ⊥) :
    ∃ j < row.length, row.getD j ⊥ ≠ ⊥ ∧ ∀ x ∈ row, x ≤ row.getD j ⊥ := by
  have hi : i < row.length := by
    by_contra hi
    exact h (List.getD_eq_default _ _ (not_lt.1 hi))
  obtain ⟨j, hj, hmax⟩ := Finset.exists_max_image (Finset.range row.length) (fun j => row.getD j ⊥)
    ⟨i, Finset.mem_range.2 hi⟩
  refine ⟨j, Finset.mem_range.1 hj, fun hbot => h (le_bot_iff.1 ((hmax i (Finset.mem_range.2 hi)).trans_eq hbot)),
    fun x hx => ?_⟩
  obtain ⟨k, hk, rfl⟩ := List.getElem_of_mem hx
  rw [← List.getD_eq_getElem _ ⊥ hk]
  exact hmax k (Finset.mem_range.2 hk)

omit [Field R] in
/-- The first filter leaves the largest entry. -/
theorem maskTopK_unmasked {row : List (WithBot R)} {i : ℕ} (h : row.getD i ⊥ ≠ ⊥) (topK : ℤ) :
    ∃ j, (maskTopK row topK).getD j ⊥ ≠ ⊥ := by
  obtain ⟨j, hj, hne, hmax⟩ := exists_max_entry h
  unfold maskTopK
  split
  next hk =>
    have hnone : row.countP (row.getD j ⊥ < ·) = 0 :=
      List.countP_eq_zero.2 fun x hx => by simpa using hmax x hx
    have hkeep := (kthLargest_le_iff row (k := min topK.toNat row.length) (by omega) (min_le_right _ _)
      (row.getD j ⊥)).2 (by omega)
    refine ⟨j, ?_⟩
    rw [List.getD_eq_getElem _ _ (by rwa [List.length_map]), List.getElem_map, if_neg]
    · rwa [List.getD_eq_getElem _ _ hj] at hne
    · rw [List.getD_eq_getElem _ _ hj] at hkeep
      exact not_lt.2 hkeep
  next => exact ⟨i, h⟩

/-- The second filter leaves the first entry in sorted order, which is largest. -/
theorem maskTopP_unmasked {T : Torch R} (hT : T.Lawful) {row : List (WithBot R)} {i : ℕ}
    (h : row.getD i ⊥ ≠ ⊥) (topP : R) : ∃ j, (maskTopP T row topP).getD j ⊥ ≠ ⊥ := by
  have hi : i < row.length := by
    by_contra hi
    exact h (List.getD_eq_default _ _ (not_lt.1 hi))
  have hperm := hT.sort_perm row
  rcases hidx : T.sortIdx row with - | ⟨j, rest⟩
  · rw [hidx] at hperm
    have := hperm.length_eq
    simp at this
    omega
  have hj : j < row.length := List.mem_range.1 (hperm.mem_iff.1 (hidx ▸ List.mem_cons_self))
  have htop : row.getD i ⊥ ≤ row.getD j ⊥ := by
    have hdesc := hT.sort_desc row
    rw [hidx] at hdesc
    have hmem : i ∈ j :: rest := hidx ▸ hperm.mem_iff.2 (List.mem_range.2 hi)
    rcases List.mem_cons.1 hmem with rfl | hmem
    · exact le_rfl
    · exact List.rel_of_pairwise_cons hdesc hmem
  refine ⟨j, ?_⟩
  rw [maskTopP, List.getD_eq_getElem _ _ (by simpa using hj), List.getElem_map, List.getElem_range, hidx,
    List.idxOf_cons_self, removed_getD _ _ (by simp [softmax]), if_neg (by simp)]
  exact fun hbot => h (le_bot_iff.1 (htop.trans_eq hbot))

/-- **Something is left to draw** from a row of logits, whatever the two filters are. -/
theorem applyTopKTopP_unmasked {T : Torch R} (hT : T.Lawful) {row : List (WithBot R)} {i : ℕ}
    (h : row.getD i ⊥ ≠ ⊥) (topK : ℤ) (topP : R) : ∃ j, (applyTopKTopP T row topK topP).getD j ⊥ ≠ ⊥ := by
  obtain ⟨j, hj⟩ := maskTopK_unmasked h topK
  rcases lt_or_ge topP 1 with hp | hp
  · rw [applyTopKTopP_eq T row topK hp]
    exact maskTopP_unmasked hT hj topP
  · refine ⟨j, ?_⟩
    rw [applyTopKTopP, if_neg (not_lt.2 hp)]
    exact hj

theorem length_applyTopKTopP (T : Torch R) (row : List (WithBot R)) (topK : ℤ) (topP : R) :
    (applyTopKTopP T row topK topP).length = row.length := by
  rcases lt_or_ge topP 1 with hp | hp
  · rw [applyTopKTopP_eq T row topK hp, length_maskTopP, length_maskTopK]
  · rw [applyTopKTopP, if_neg (not_lt.2 hp)]
    exact length_maskTopK row topK

theorem length_logitsToProbs (T : Torch R) (params : SamplingParams R) (logits : List R) :
    (logitsToProbs T params logits).length = logits.length := by
  unfold logitsToProbs
  split
  · exact length_oneHot _ _
  · rw [softmax_eq, List.length_map, List.length_map, length_applyTopKTopP, List.length_map]

/-- **`logits_to_probs` of a row of logits is a distribution**, whatever the parameters are. -/
noncomputable def distOf {T : Torch ℝ} (hT : T.Lawful) (params : SamplingParams ℝ) {V : ℕ} (hV : 0 < V)
    {logits : List ℝ} (hlen : logits.length = V) : Dist V where
  row := logitsToProbs T params logits
  length := (length_logitsToProbs T params logits).trans hlen
  nonneg := by
    unfold logitsToProbs
    split
    · intro x hx
      rcases List.mem_or_eq_of_mem_set hx with hx | rfl
      · rw [List.eq_of_mem_replicate hx]
      · exact zero_le_one
    · intro x hx
      rw [softmax_eq] at hx
      obtain ⟨w, hw, rfl⟩ := List.mem_map.1 hx
      have hnn : ∀ w ∈ (applyTopKTopP T (logits.map fun x => ((x / params.temperature : ℝ) : WithBot ℝ))
          params.topK params.topP).map (weight T), 0 ≤ w := fun w hw => by
        obtain ⟨y, -, rfl⟩ := List.mem_map.1 hw
        exact weight_nonneg hT y
      exact div_nonneg (hnn w hw) (List.sum_nonneg hnn)
  sum := by
    unfold logitsToProbs
    split
    · exact sum_oneHot (argmax_lt (List.ne_nil_of_length_pos (hlen.symm ▸ hV)))
    · have hzero : (logits.map fun x => ((x / params.temperature : ℝ) : WithBot ℝ)).getD 0 ⊥ ≠ ⊥ := by
        rw [List.getD_eq_getElem _ _ (by rw [List.length_map, hlen]; exact hV), List.getElem_map]
        exact WithBot.coe_ne_bot
      obtain ⟨j, hj⟩ := applyTopKTopP_unmasked hT hzero params.topK params.topP
      have hpos := sum_weight_pos hT hj
      rw [softmax_eq]
      simp only [div_eq_mul_inv, List.sum_map_mul_right, List.map_id']
      exact mul_inv_cancel₀ hpos.ne'

end Distribution

/-! ### What a round draws -/

section Round

variable {R : Type} [Field R] [LinearOrder R]

/-- The tokens that a call of `rejection_sample` returns. -/
def emittedOf : Except Exc (List ℕ × ℕ) → List ℕ
  | .error _ => []
  | .ok (emitted, _) => emitted

/-- A round after `ctx`: `K` tokens from `Q`, and what `rejection_sample` makes of them for `P`. -/
def roundText (P Q : List ℕ → List R) (K : ℕ) (ctx : List ℕ) : RandM R (List ℕ) :=
  (unstopped (fun c => sampleFromProbs (Q c)) K ctx).bind fun ts =>
    (rejectionSample (P (ctx ++ ts)) ts (rowsAlong Q ctx ts) (rowsAlong P ctx ts)).map emittedOf

variable {V : ℕ} (hV : 0 < V)
include hV

omit [Field R] [LinearOrder R] in
/-- A token drawn from a row over the vocabulary is in the vocabulary. -/
theorem always_sample {row : List R} (h : row.length = V) : (sampleFromProbs row).Always (· < V) :=
  ⟨List.ne_nil_of_length_pos (h ▸ hV), fun _ hi => h ▸ hi⟩

omit [Field R] [LinearOrder R] in
/-- Drafting draws `n` tokens of the vocabulary. -/
theorem always_unstopped {Q : List ℕ → List R} (hQ : ∀ c, (Q c).length = V) (n : ℕ) (ctx : List ℕ) :
    (unstopped (fun c => sampleFromProbs (Q c)) n ctx).Always fun ts => ts.length = n ∧ ∀ t ∈ ts, t < V := by
  induction n generalizing ctx with
  | zero => exact ⟨rfl, by simp⟩
  | succ n ih =>
    refine (always_sample hV (hQ ctx)).bind fun t ht => ?_
    refine (ih (ctx ++ [t])).map fun ts hts => ⟨?_, fun u hu => ?_⟩
    · rw [List.length_cons, hts.1]
    · rcases List.mem_cons.1 hu with rfl | hu
      · exact ht
      · exact hts.2 u hu

omit hV in
theorem length_residual {q p : List R} (hq : q.length = V) (hp : p.length = V) : (residual q p).length = V := by
  unfold residual
  dsimp only
  split
  · rw [List.length_map, List.length_zipWith, hp, hq, min_self]
  · exact hp

/-- **What `rejection_sample` returns**, whatever is drawn: the first `n` drafted tokens and one more. -/
theorem always_rejectionSample {Q P : List ℕ → List R} (hQ : ∀ c, (Q c).length = V)
    (hP : ∀ c, (P c).length = V) {pBonus : List R} (hbonus : pBonus.length = V) {ts : List ℕ}
    (hts : ∀ t ∈ ts, t < V) (ctx : List ℕ) :
    (rejectionSample pBonus ts (rowsAlong Q ctx ts) (rowsAlong P ctx ts)).Always fun r =>
      ∃ n t, n ≤ ts.length ∧ r = .ok (ts.take n ++ [t], n) := by
  induction ts generalizing ctx with
  | nil => exact (always_sample hV hbonus).map fun t _ => ⟨0, t, le_rfl, rfl⟩
  | cons t ts ih =>
    have ht : t < V := hts t List.mem_cons_self
    rw [rowsAlong, rowsAlong, rejectionSample, List.getElem?_eq_getElem ((hQ ctx).symm ▸ ht),
      List.getElem?_eq_getElem ((hP ctx).symm ▸ ht)]
    intro r
    dsimp only
    split
    · refine (ih (fun u hu => hts u (List.mem_cons_of_mem t hu)) (ctx ++ [t])).map ?_
      rintro r ⟨n, u, hn, rfl⟩
      exact ⟨n + 1, u, Nat.succ_le_succ hn, rfl⟩
    · exact (always_sample hV (length_residual (hQ ctx) (hP ctx))).map fun u _ =>
        ⟨0, u, Nat.zero_le _, rfl⟩

/-- A round emits between one and `K + 1` tokens. -/
theorem always_roundText {Q P : List ℕ → List R} (hQ : ∀ c, (Q c).length = V)
    (hP : ∀ c, (P c).length = V) (K : ℕ) (ctx : List ℕ) :
    (roundText P Q K ctx).Always fun ts => 1 ≤ ts.length ∧ ts.length ≤ K + 1 := by
  refine (always_unstopped hV hQ K ctx).bind fun ts hts => ?_
  refine (always_rejectionSample hV hQ hP (hP _) hts.2 ctx).map ?_
  rintro r ⟨n, t, hn, rfl⟩
  rw [emittedOf, List.length_append, List.length_take, List.length_singleton]
  omega

omit [Field R] [LinearOrder R] in
/-- **A round completes the distribution of the target**: from `expect_speculated`, as nothing raises. -/
theorem completes_roundText (q p : List ℕ → Dist V) (K : ℕ) :
    Completes (fun c => sampleFromProbs (p c).row) (K + 1)
      (roundText (fun c => (p c).row) (fun c => (q c).row) K) where
  length := always_roundText hV (fun c => (q c).length) (fun c => (p c).length) K
  law ctx f := by
    have h := expect_speculated q p K ctx fun r => r.toOption.elim 0 f
    refine Eq.trans ?_ h
    rw [speculated, roundText, RandM.expect_bind, RandM.expect_bind]
    refine (always_unstopped hV (fun c => (q c).length) K ctx).expect_congr fun ts hts => ?_
    rw [RandM.expect_map, RandM.expect_bind]
    refine (always_rejectionSample hV (fun c => (q c).length) (fun c => (p c).length) (p _).length
      hts.2 ctx).expect_congr ?_
    rintro r ⟨n, t, -, rfl⟩
    rw [completed, RandM.expect_map]
    rfl

end Round

/-! ### What the engine draws -/

namespace SpeculativeEngine

variable {X D Y E R G : Type} [Zero D] [Add X] [Zero E] [Add Y] [Field R] [LinearOrder R]
variable {S : SpecSetup X D Y E R} {T : Transformer X D R} {Td : Transformer Y E R} {sid : ℕ}
variable {torch : Torch R} {params : SamplingParams R} {ctx toks : List ℕ} {drf drf' : Side E} {g g' : G}

omit [Zero D] [Add X] in
/-- **The drafting loop** draws from the draft's distributions, in their order. -/
theorem draftRest_run (hdrf : S.drf = Td.runner) {src : Source R G} {n tok : ℕ}
    (h : drf.Resident Td sid toks) {ts : List ℕ} {rows : List (List R)}
    (heq : draftRest S torch src sid params n tok drf g = (.ok (ts, rows), drf', g')) :
    (unstopped (fun c => sampleFromProbs (nextProbs torch S.vocab params Td c)) n (toks ++ [tok])).run src g =
      (ts, g') := by
  induction n generalizing tok drf toks g ts rows with
  | zero =>
    cases heq
    rfl
  | succ n ih =>
    obtain ⟨r₁, drf₁, hext, -, -, ⟨msg, rfl⟩ | ⟨rfl, h₁⟩⟩ := h.extend [tok]
    · rw [draftRest, hdrf, hext] at heq
      cases heq
    have hstep := draftRest_succ torch src n (S := S) (hdrf ▸ hext)
      (lastProbs_rowsAfter torch S.vocab params Td toks (List.cons_ne_nil tok [])) g
    rw [hstep] at heq
    rcases hrest : draftRest S torch src sid params n
      (src.multinomial (nextProbs torch S.vocab params Td (toks ++ [tok])) g).1 drf₁
      (src.multinomial (nextProbs torch S.vocab params Td (toks ++ [tok])) g).2 with
      ⟨x | ⟨us, rows'⟩, drf₂, g₂⟩
    · rw [hrest] at heq
      cases heq
    · rw [hrest] at heq
      cases heq
      rw [run_unstopped_succ, show (sampleFromProbs (nextProbs torch S.vocab params Td (toks ++ [tok]))).run src g =
        src.multinomial (nextProbs torch S.vocab params Td (toks ++ [tok])) g from rfl, ih h₁ hrest]

omit [Zero D] [Add X] in
/-- **Step 1** draws `K` tokens from the draft. -/
theorem draft_run (hdrf : S.drf = Td.runner) (hK : 1 ≤ S.numSpeculativeTokens) {src : Source R G}
    (h : drf.Resident Td sid ctx) {ts : List ℕ} {rows : List (List R)}
    (heq : draft S torch src sid params (nextProbs torch S.vocab params Td ctx) drf g =
      (.ok (ts, rows), drf', g')) :
    (unstopped (fun c => sampleFromProbs (nextProbs torch S.vocab params Td c)) S.numSpeculativeTokens ctx).run
      src g = (ts, g') := by
  rw [draft_eq] at heq
  rcases hrest : draftRest S torch src sid params (S.numSpeculativeTokens - 1)
    (src.multinomial (nextProbs torch S.vocab params Td ctx) g).1 drf
    (src.multinomial (nextProbs torch S.vocab params Td ctx) g).2 with ⟨x | ⟨us, rows'⟩, drf₂, g₂⟩
  · rw [hrest] at heq
    cases heq
  · rw [hrest] at heq
    cases heq
    obtain ⟨k, hk⟩ := Nat.exists_eq_add_of_le' hK
    rw [hk, Nat.add_sub_cancel] at hrest
    rw [hk, run_unstopped_succ, show (sampleFromProbs (nextProbs torch S.vocab params Td ctx)).run src g =
      src.multinomial (nextProbs torch S.vocab params Td ctx) g from rfl, draftRest_run hdrf h hrest]

/-- **Steps 1 and 2** draw the drafted tokens and nothing else. -/
theorem propose_run (hdrf : S.drf = Td.runner) (hK : 1 ≤ S.numSpeculativeTokens) {src : Source R G}
    {s s' : SpecLoop D E R G} (h : Coherent S torch params T Td sid ctx s) {start : ℕ} {rd : SpecRound R}
    (heq : propose S torch src sid params s = (.ok (start, rd), s')) :
    (unstopped (fun c => sampleFromProbs (nextProbs torch S.vocab params Td c)) S.numSpeculativeTokens ctx).run
      src s.g = (rd.draftTokens, s'.g) := by
  unfold propose at heq
  rw [h.qNext] at heq
  rcases hd : draft S torch src sid params (nextProbs torch S.vocab params Td ctx) s.engine.drf s.g with
    ⟨x | ⟨ts, rows⟩, drf₁, g₁⟩
  · rw [hd] at heq
    cases heq
  rw [hd] at heq
  dsimp only at heq
  split at heq
  · cases heq
  · cases heq
    exact draft_run hdrf hK h.drf hd

omit [Zero D] [Add X] [Zero E] [Add Y] in
/-- Steps 3 to 5 once `rejection_sample` has returned. -/
theorem settle_ok {src : Source R G} {promptLen start n t : ℕ} (maxNewTokens : ℕ) (eos : Option ℕ)
    {rd : SpecRound R} {accepted : List ℕ} {s : SpecLoop D E R G}
    (hrej : (rejectionSample rd.pBonus rd.draftTokens rd.qStack rd.pStack).run src s.g =
      (.ok (accepted ++ [t], n), g)) :
    settle S torch src sid params promptLen maxNewTokens eos start rd s =
      match resync S torch sid params promptLen start n t rd.draftTokens { s with
        g,
        stats := { s.stats with
          iters := s.stats.iters + 1,
          proposed := s.stats.proposed + S.numSpeculativeTokens,
          accepted := s.stats.accepted + n } } with
      | (.error x, s) => (.error x, s)
      | (.ok (), s) =>
        match emit maxNewTokens eos (accepted ++ [t]) s.out s.stats with
        | (done, out, stats) => (.ok done, { s with out, stats }) := by
  rw [settle, hrej]
  rcases hres : resync S torch sid params promptLen start n t rd.draftTokens { s with
    g,
    stats := { s.stats with
      iters := s.stats.iters + 1,
      proposed := s.stats.proposed + S.numSpeculativeTokens,
      accepted := s.stats.accepted + n } } with ⟨x | ⟨⟩, s'⟩
  · simp only [List.getLast?_concat, hres]
  · simp only [List.getLast?_concat, hres]

omit [Zero D] [Add X] [Zero E] [Add Y] [Field R] [LinearOrder R] in
/-- **Emission cuts** at the limit and after EOS, and returns where it does. -/
theorem emit_eq_cutAt {maxNewTokens : ℕ} (eos : Option ℕ) (emitted : List ℕ) {out : List ℕ} (stats : SpecStats)
    (h : out.length < maxNewTokens) :
    let e := emit maxNewTokens eos emitted out stats
    (e.1 = true ↔ maxNewTokens - out.length ≤ emitted.length ∨ emitted.any (isEos eos)) ∧
      e.2.1 = out ++ cutAt (isEos eos) (maxNewTokens - out.length) emitted := by
  obtain ⟨n, hn⟩ : ∃ n, maxNewTokens - out.length = n + 1 := ⟨maxNewTokens - out.length - 1, by omega⟩
  rw [hn]
  induction emitted generalizing out stats n with
  | nil => exact ⟨by simp [emit], (List.append_nil out).symm⟩
  | cons t ts ih =>
    intro e
    have heos : isEos eos t = true ↔ some t = eos := decide_eq_true_iff
    by_cases hstop : maxNewTokens ≤ (out ++ [t]).length ∨ some t = eos
    · have he : e = (true, out ++ [t], { stats with emitted := stats.emitted + 1 }) := if_pos hstop
      rw [he]
      rw [List.length_append, List.length_singleton] at hstop
      refine ⟨iff_of_true rfl ?_, ?_⟩
      · rcases hstop with hlen | ht
        · left
          rw [List.length_cons]
          omega
        · right
          rw [List.any_cons, heos.2 ht, Bool.true_or]
      · rw [cutAt]
        split
        · rfl
        next ht =>
          obtain rfl : n = 0 := by
            have := hstop.resolve_right fun h => ht (heos.2 h)
            omega
          rfl
    · have he : e = emit maxNewTokens eos ts (out ++ [t]) { stats with emitted := stats.emitted + 1 } :=
        if_neg hstop
      obtain ⟨hlen, hne⟩ := not_or.1 hstop
      rw [List.length_append, List.length_singleton] at hlen
      obtain ⟨m, rfl⟩ : ∃ m, n = m + 1 := ⟨n - 1, by omega⟩
      have hlen' : (out ++ [t]).length < maxNewTokens := by
        rw [List.length_append, List.length_singleton]
        omega
      obtain ⟨hdone, hout⟩ := ih { stats with emitted := stats.emitted + 1 } hlen' m (by
        rw [List.length_append, List.length_singleton]
        omega)
      rw [he]
      refine ⟨hdone.trans ?_, ?_⟩
      · rw [List.any_cons, show isEos eos t = false from decide_eq_false hne, Bool.false_or,
          List.length_cons, Nat.add_le_add_iff_right]
      · rw [hout, cutAt, if_neg (fun h => hne (heos.1 h)), List.append_assoc]
        rfl

variable {V : ℕ} (hV : 0 < V)
include hV

/-- **One round of the loop** runs out of blocks, or emits what `roundText` draws, leaves the generator
where that leaves it, and both caches coherent with the longer text. -/
theorem round_run (htgt : S.tgt = T.runner) (hdrf : S.drf = Td.runner) (hK : 1 ≤ S.numSpeculativeTokens)
    (hQ : ∀ c, (nextProbs torch S.vocab params Td c).length = V)
    (hP : ∀ c, (nextProbs torch S.vocab params T c).length = V) {src : Source R G} (hsrc : src.InRange)
    {promptLen : ℕ} (maxNewTokens : ℕ) (eos : Option ℕ) {s : SpecLoop D E R G}
    (h : Coherent S torch params T Td sid ctx s) (hlen : ctx.length = promptLen + s.out.length) :
    ∃ r s', round S torch src sid params promptLen maxNewTokens eos s = (r, s') ∧
      ((∃ msg, r = .error (.OutOfBlocksError msg)) ∨ ∃ emitted stats,
        (roundText (nextProbs torch S.vocab params T) (nextProbs torch S.vocab params Td)
          S.numSpeculativeTokens ctx).run src s.g = (emitted, s'.g) ∧
        Coherent S torch params T Td sid (ctx ++ emitted) s' ∧
        r = .ok (emit maxNewTokens eos emitted s.out stats).1 ∧
        s'.out = (emit maxNewTokens eos emitted s.out stats).2.1) := by
  obtain ⟨r₁, s₁, heq₁, -, ⟨⟨msg, rfl⟩, -⟩ | ⟨ts, rd, rfl, hts, rfl, -, -, hout, ht, hd⟩⟩ :=
    propose_spec htgt hdrf hK src h
  · exact ⟨_, s₁, by rw [round, heq₁], Or.inl ⟨msg, rfl⟩⟩
  have hdraft := propose_run hdrf hK h heq₁
  have hrange : ∀ t ∈ ts, t < V := by
    have := (always_unstopped hV hQ S.numSpeculativeTokens ctx).run hsrc s.g
    rw [hdraft] at this
    exact this.2
  rcases hrej : (rejectionSample (nextProbs torch S.vocab params T (ctx ++ ts)) ts
    (rowsAlong (nextProbs torch S.vocab params Td) ctx ts)
    (rowsAlong (nextProbs torch S.vocab params T) ctx ts)).run src s₁.g with ⟨r₂, g₂⟩
  obtain ⟨n, t, hn, rfl⟩ : ∃ n t, n ≤ ts.length ∧ r₂ = .ok (ts.take n ++ [t], n) := by
    have := (always_rejectionSample hV hQ hP (hP (ctx ++ ts)) hrange ctx).run hsrc s₁.g
    rwa [hrej] at this
  have htext : (roundText (nextProbs torch S.vocab params T) (nextProbs torch S.vocab params Td)
      S.numSpeculativeTokens ctx).run src s.g = (ts.take n ++ [t], g₂) := by
    rw [roundText, RandM.run_bind, hdraft, RandM.run_map, hrej]
    rfl
  set stats : SpecStats := { s₁.stats with
    iters := s₁.stats.iters + 1,
    proposed := s₁.stats.proposed + S.numSpeculativeTokens,
    accepted := s₁.stats.accepted + n } with hstats
  obtain ⟨r₃, s₃, heq₃, -, -, hout₃, -, hg₃, hcase⟩ :=
    resync_spec (S := S) (s := { s₁ with g := g₂, stats }) htgt hdrf hK torch params t ht hd hts hn
      (hout ▸ hlen)
  have hround : round S torch src sid params promptLen maxNewTokens eos s =
      settle S torch src sid params promptLen maxNewTokens eos ctx.length
        ⟨s.out, ts, rowsAlong (nextProbs torch S.vocab params Td) ctx ts,
          rowsAlong (nextProbs torch S.vocab params T) ctx ts, nextProbs torch S.vocab params T (ctx ++ ts)⟩ s₁ := by
    rw [round, heq₁]
  rw [hround, settle_ok maxNewTokens eos hrej, heq₃]
  rcases hcase with ⟨msg, rfl⟩ | ⟨rfl, hcoh⟩
  · exact ⟨_, s₃, rfl, Or.inl ⟨msg, rfl⟩⟩
  · refine ⟨_, _, rfl, Or.inr ⟨_, s₃.stats, htext.trans (congrArg _ hg₃.symm),
      ⟨hcoh.tgt, hcoh.drf, hcoh.pNext, hcoh.qNext⟩, ?_, ?_⟩⟩
    · rw [hout₃, hout]
    · rw [hout₃, hout]

/-- **The loop** runs out of blocks, or returns what the loop over `roundText` draws and leaves the
generator where that leaves it.  By induction on the rounds. -/
theorem loop_run (htgt : S.tgt = T.runner) (hdrf : S.drf = Td.runner) (hK : 1 ≤ S.numSpeculativeTokens)
    (hQ : ∀ c, (nextProbs torch S.vocab params Td c).length = V)
    (hP : ∀ c, (nextProbs torch S.vocab params T c).length = V) {src : Source R G} (hsrc : src.InRange)
    {promptIds : List ℕ} {maxNewTokens : ℕ} (eos : Option ℕ) {fuel : ℕ} {s : SpecLoop D E R G}
    (h : Coherent S torch params T Td sid (promptIds ++ s.out) s) (hlen : s.out.length < maxNewTokens)
    (hfuel : maxNewTokens ≤ fuel + s.out.length) :
    let text := (chunked (roundText (nextProbs torch S.vocab params T) (nextProbs torch S.vocab params Td)
      S.numSpeculativeTokens) (isEos eos) fuel (maxNewTokens - s.out.length) (promptIds ++ s.out)).run src s.g
    ∃ r s', loop S torch src sid params promptIds.length maxNewTokens eos fuel s = (r, s') ∧
      ((∃ msg, r = .error (.OutOfBlocksError msg)) ∨
        ∃ stats, r = .ok (s.out ++ text.1, stats) ∧ s'.g = text.2) := by
  induction fuel generalizing s with
  | zero => omega
  | succ fuel ih =>
    intro text
    obtain ⟨r, s', heq, ⟨msg, rfl⟩ | ⟨emitted, stats, hrun, hcoh, rfl, hout⟩⟩ :=
      round_run hV htgt hdrf hK hQ hP hsrc maxNewTokens eos h List.length_append
    · refine ⟨_, s', ?_, Or.inl ⟨msg, rfl⟩⟩
      rw [loop, if_pos hlen, heq]
    have htext : text = _ := run_chunked_succ src _ (isEos eos) fuel _ _ hrun
    have hpos := ((always_roundText hV hQ hP S.numSpeculativeTokens (promptIds ++ s.out)).run hsrc s.g).1
    rw [hrun] at hpos
    dsimp only at hpos
    obtain ⟨hdone, hcut⟩ := emit_eq_cutAt eos emitted stats hlen
    rw [hcut] at hout
    rw [htext, loop, if_pos hlen, heq]
    by_cases hend : maxNewTokens - s.out.length ≤ emitted.length ∨ emitted.any (isEos eos)
    · rw [hdone.2 hend, if_pos hend]
      have hle := length_cutAt_le (isEos eos) (maxNewTokens - s.out.length) emitted
      refine ⟨_, s', rfl, Or.inr ⟨s'.stats, ?_, rfl⟩⟩
      rw [hout, List.take_of_length_le]
      rw [List.length_append]
      omega
    · rw [Bool.eq_false_iff.2 fun h => hend (hdone.1 h), if_neg hend]
      rw [cutAt_eq_self hend] at hout
      rw [List.append_assoc, ← hout] at hcoh
      obtain ⟨hlt, -⟩ := not_or.1 hend
      have hlen' : s'.out.length = s.out.length + emitted.length := by rw [hout, List.length_append]
      obtain ⟨r, s'', heq', hcase⟩ := ih hcoh (by omega) (by omega)
      refine ⟨r, s'', heq', hcase.imp id ?_⟩
      rintro ⟨stats', rfl, hg⟩
      rw [hlen', hout] at hg ⊢
      rw [← Nat.sub_sub, ← List.append_assoc] at hg ⊢
      exact ⟨stats', by rw [List.append_assoc], hg⟩

/-- What a call is to draw: the loop over rounds, from the prompt. -/
def speculativeText (S : SpecSetup X D Y E R) (torch : Torch R) (params : SamplingParams R)
    (T : Transformer X D R) (Td : Transformer Y E R) (eos : Option ℕ) (maxNewTokens : ℕ)
    (promptIds : List ℕ) : RandM R (List ℕ) :=
  chunked (roundText (nextProbs torch S.vocab params T) (nextProbs torch S.vocab params Td)
    S.numSpeculativeTokens) (isEos eos) maxNewTokens maxNewTokens promptIds

/-- **A call of `generate`** runs out of blocks, or returns what `speculativeText` draws and leaves the
generator where that leaves it. -/
theorem generate_run (htgt : S.tgt = T.runner) (hdrf : S.drf = Td.runner) (hK : 1 ≤ S.numSpeculativeTokens)
    (hQ : ∀ c, (nextProbs torch S.vocab params Td c).length = V)
    (hP : ∀ c, (nextProbs torch S.vocab params T c).length = V) {src : Source R G} (hsrc : src.InRange)
    {e : SpeculativeEngine D E R} (hs : e.Sound)
    (hnone : e.tgt.cache.manager.tables.lookup sid = none ∧ e.drf.cache.manager.tables.lookup sid = none)
    (g : G) {promptIds : List ℕ} (h0 : promptIds ≠ []) (maxNewTokens : ℕ) (eos : Option ℕ) :
    let text := (speculativeText S torch params T Td eos maxNewTokens promptIds).run src g
    ∃ r e' g', e.generate S torch src g sid promptIds params maxNewTokens eos = (r, e', g') ∧
      ((∃ msg, r = .error (.OutOfBlocksError msg)) ∨ ∃ stats, r = .ok (text.1, stats) ∧ g' = text.2) := by
  intro text
  obtain ⟨r₁, e₁, heq₁, hs₁, -, hcase⟩ := allocate_spec hs sid promptIds
  unfold generate
  rw [heq₁]
  rcases hcase with ⟨x, rfl, hx⟩ | ⟨rfl, t, u, ht, hnum, hu, hnum'⟩
  · obtain ⟨msg, rfl⟩ := hx hnone.1 hnone.2
    exact ⟨_, _, _, rfl, Or.inl ⟨msg, rfl⟩⟩
  obtain ⟨r₂, e₂, heq₂, hs₂, -, hcase⟩ := prefill_spec htgt hdrf torch params hs₁ g ht hnum hu hnum'
  have hbody : ∃ r e₃ g₃, e₁.generateBody S torch src g sid promptIds params maxNewTokens eos =
      (r, e₃, g₃) ∧ e₃.Sound ∧ ((∃ msg, r = .error (.OutOfBlocksError msg)) ∨
        ∃ stats, r = .ok (text.1, stats) ∧ g₃ = text.2) := by
    unfold generateBody
    rw [heq₂]
    rcases hcase with ⟨msg, rfl⟩ | ⟨hnil, -⟩ | ⟨s, rfl, rfl, hout, hg, hcoh⟩
    · exact ⟨_, e₂, g, rfl, hs₂, Or.inl ⟨msg, rfl⟩⟩
    · exact absurd hnil h0
    have hcoh' : Coherent S torch params T Td sid (promptIds ++ s.out) s := by
      rwa [hout, List.append_nil]
    obtain ⟨hs₃, -⟩ := loop_sound htgt hdrf hK src promptIds maxNewTokens eos maxNewTokens hcoh'
    rcases Nat.eq_zero_or_pos maxNewTokens with rfl | hmax
    · exact ⟨_, _, _, rfl, hs₃, Or.inr ⟨s.stats, rfl, hg⟩⟩
    obtain ⟨r, s', hloop, hcase⟩ := loop_run hV htgt hdrf hK hQ hP hsrc eos hcoh'
      (by rwa [hout]) (Nat.le_add_right _ _)
    rw [hloop] at hs₃
    refine ⟨r, s'.engine, s'.g, by simp only [hloop], hs₃, hcase.imp id ?_⟩
    rintro ⟨stats, rfl, hg'⟩
    rw [hout, hg, List.append_nil] at hg'
    rw [hout, hg, List.append_nil, List.nil_append]
    exact ⟨stats, rfl, hg'⟩
  obtain ⟨r₃, e₃, g₃, heq₃, hs₃, hcase⟩ := hbody
  obtain ⟨e₄, heq₄, -, -⟩ := free_spec hs₃ sid
  simp only [heq₃, heq₄]
  exact ⟨r₃, e₄, g₃, rfl, hcase⟩

end SpeculativeEngine

open SpeculativeEngine

/-- Drawing from a one-hot row is drawing nothing. -/
theorem expect_sample_oneHot {V i : ℕ} (hi : i < V) (f : ℕ → ℝ) :
    (sampleFromProbs (oneHot V i)).expect f = f i := by
  rw [sampleFromProbs, RandM.expect, sum_oneHot hi, length_oneHot, Finset.sum_eq_single_of_mem i
    (Finset.mem_range.2 hi) fun j hj hne => ?_]
  · rw [List.getD_eq_getElem?_getD, getElem?_oneHot i hi, if_pos rfl, Option.getD_some, div_one, one_mul]
    rfl
  · rw [List.getD_eq_getElem?_getD, getElem?_oneHot i (Finset.mem_range.1 hj), if_neg hne, Option.getD_some,
      zero_div, zero_mul]

/-- Drawing a token of the target as `LLMEngine` does, or as `SpeculativeEngine` does. -/
theorem expect_drawNext {X D : Type} [Zero D] [Add X] (torch : Torch ℝ) {T : Transformer X D ℝ}
    (hV : 0 < T.vocabSize) (hrow : ∀ x, (T.lmHead x).length = T.vocabSize) (params : SamplingParams ℝ)
    (toks : List ℕ) (f : ℕ → ℝ) :
    (sampleFromProbs (nextProbs torch T.vocabSize params T toks)).expect f =
      (drawNext torch T params toks).expect f := by
  have hlen : (T.nextLogits toks).length = T.vocabSize := hrow _
  rw [nextProbs, probs, List.take_of_length_le hlen.le, drawNext, nextToken]
  split
  next hg =>
    have hlt : argmax (T.nextLogits toks) < (T.nextLogits toks).length :=
      argmax_lt (List.ne_nil_of_length_pos (hlen.symm ▸ hV))
    rw [logitsToProbs, if_pos hg, expect_sample_oneHot hlt]
    rfl
  next => rfl

variable {κ X D Y E : Type} [Zero D] [Add X] [Zero E] [Add Y] [DecidableEq κ]

/-- **Speculative decoding is lossless, whatever the sampling parameters are.**  `exp` is positive and
`sort` sorts, each model returns rows over its vocabulary, and the pools have room for the prompt, the
limit and one draft.  Then there is one program such that after any calls, against any generator that
draws indices of the rows, a call of `generate` returns what the program draws and leaves the generator
where the program leaves it; and the program has the law of decoding token by token from the target's
distributions over the common vocabulary.  Where the target's vocabulary is the smaller one, that is the
law of what `LLMEngine.generate` returns for the target. -/
theorem speculative_lossless (T : Transformer X D ℝ) (Td : Transformer Y E ℝ) (H : RollingHash κ)
    {torch : Torch ℝ} (htorch : torch.Lawful) {K numBlocks blockSize : ℕ} (hK : 1 ≤ K) (hbs : 1 ≤ blockSize)
    (hV : 0 < T.vocabSize) (hV' : 0 < Td.vocabSize) (hrow : ∀ x, (T.lmHead x).length = T.vocabSize)
    (hrow' : ∀ y, (Td.lmHead y).length = Td.vocabSize) (params : SamplingParams ℝ) {promptIds : List ℕ}
    (h0 : promptIds ≠ []) (maxNewTokens : ℕ) (eos : Option ℕ)
    (hfits : (BlockManager.init numBlocks blockSize).blocksNeeded (promptIds.length + maxNewTokens + K) ≤
      numBlocks) :
    let S := setup T Td K
    ∃ x : RandM ℝ (List ℕ),
      (∀ {G : Type} (src : Source ℝ G), src.InRange → ∀ next e,
        Served S torch src (init T Td numBlocks blockSize) next e → ∀ g sid, ∃ stats e',
          e.generate S torch src g sid promptIds params maxNewTokens eos =
            (.ok ((x.run src g).1, stats), e', (x.run src g).2)) ∧
      (∀ f, x.expect f = (decode (fun c => sampleFromProbs (nextProbs torch S.vocab params T c)) (isEos eos)
        maxNewTokens promptIds).expect f) ∧
      (T.vocabSize ≤ Td.vocabSize → 1 ≤ maxNewTokens → ∃ y : RandM ℝ (List ℕ),
        (∀ {G : Type} (src : Source ℝ G) l,
          LLMEngine.Served H torch src T.runner (.init T numBlocks blockSize false) l → ∀ g seqId,
            (l.generate H torch src T.runner g seqId promptIds maxNewTokens params eos).1 =
              .ok (y.run src g).1) ∧
        ∀ f, x.expect f = y.expect f) := by
  intro S
  have hmin : 0 < S.vocab := lt_min hV hV'
  have htake : ∀ c, ((T.nextLogits c).take S.vocab).length = S.vocab := fun c => by
    rw [List.length_take, show (T.nextLogits c).length = T.vocabSize from hrow _]
    exact min_eq_left (min_le_left _ _)
  have htake' : ∀ c, ((Td.nextLogits c).take S.vocab).length = S.vocab := fun c => by
    rw [List.length_take, show (Td.nextLogits c).length = Td.vocabSize from hrow' _]
    exact min_eq_left (min_le_right _ _)
  have hP : ∀ c, (nextProbs torch S.vocab params T c).length = S.vocab := fun c =>
    (length_logitsToProbs torch params _).trans (htake c)
  have hQ : ∀ c, (nextProbs torch S.vocab params Td c).length = S.vocab := fun c =>
    (length_logitsToProbs torch params _).trans (htake' c)
  -- the distributions that the engine carries
  let p : List ℕ → Dist S.vocab := fun c => distOf htorch params hmin (htake c)
  let q : List ℕ → Dist S.vocab := fun c => distOf htorch params hmin (htake' c)
  have hlaw : ∀ f, (speculativeText S torch params T Td eos maxNewTokens promptIds).expect f =
      (decode (fun c => sampleFromProbs (p c).row) (isEos eos) maxNewTokens promptIds).expect f := fun f => by
    rcases Nat.eq_zero_or_pos maxNewTokens with rfl | hmax
    · rfl
    · exact (completes_roundText hmin q p K).chunked (fun c => (p c).lawful_sample) (isEos eos) hmax le_rfl
        promptIds f
  refine ⟨speculativeText S torch params T Td eos maxNewTokens promptIds, fun {G} src hsrc next e he g sid => ?_,
    hlaw, fun hle hmax => ⟨reference torch T params eos maxNewTokens promptIds,
      fun {G} src l hl g seqId => ?_, fun f => ?_⟩⟩
  · obtain ⟨hidle, hnb, hbs'⟩ := he.idle (T := T) (S := S) rfl rfl hK hbs
    obtain ⟨hs, -⟩ := he.sound (T := T) (S := S) rfl rfl hK hbs
    obtain ⟨r, e', g', heq, ⟨msg, rfl⟩ | ⟨stats, rfl, rfl⟩⟩ := generate_run (T := T) (S := S) hmin rfl rfl hK hQ
      hP hsrc hs ⟨hidle.tgt.none sid, hidle.drf.none sid⟩ g h0 maxNewTokens eos
    · obtain ⟨-, -, hshort⟩ := generate_ends (T := T) (S := S) rfl rfl hK torch src hidle g sid promptIds params
        maxNewTokens eos heq
      have hlt := hshort msg rfl
      have hneed : e.tgt.cache.manager.blocksNeeded (promptIds.length + maxNewTokens + K) =
          (BlockManager.init numBlocks blockSize).blocksNeeded (promptIds.length + maxNewTokens + K) :=
        BlockManager.blocksNeeded_congr hbs' _
      rw [hnb] at hlt
      exact absurd (hlt.trans_eq hneed) (not_lt.2 hfits)
    · exact ⟨stats, e', heq⟩
  · refine hl.generate_alone torch src T H hbs h0 (le_trans ?_ hfits) params eos g seqId
    exact (BlockManager.init numBlocks blockSize).blocksNeeded_mono hbs (by omega)
  · have hvocab : S.vocab = T.vocabSize := min_eq_left hle
    rw [hlaw, reference, max_eq_left hmax]
    refine expect_decode_congr (fun c f => ?_) _ _ _ f
    refine Eq.trans ?_ (expect_drawNext torch hV hrow params c f)
    show (sampleFromProbs (nextProbs torch S.vocab params T c)).expect f = _
    rw [hvocab]

/-- `sumModel` with real logits, its tokens shifted by `k`. -/
def shiftModel (k : ℤ) : Transformer ℤ ℤ ℝ :=
  { sumModel with lmHead := fun x => (sumModel.lmHead (x + k)).map fun a => (a : ℝ) }

/-- The hypotheses are satisfiable: at temperature one, with top-2 and top-p, a draft that favours other
tokens than the target. -/
theorem speculative_lossless_shifted :
    let torch : Torch ℝ := ⟨Real.exp, stableSort⟩
    let params : SamplingParams ℝ := ⟨1, 9 / 10, 2⟩
    let src : Source ℝ Unit := ⟨fun g => (0, g), fun _ g => (0, g)⟩
    ∃ x y : RandM ℝ (List ℕ),
      (∃ stats e', (init (shiftModel 0) (shiftModel 1) 8 2).generate (setup (shiftModel 0) (shiftModel 1) 2)
        torch src () 0 [0, 1] params 3 none = (.ok ((x.run src ()).1, stats), e', (x.run src ()).2)) ∧
      ((LLMEngine.init (shiftModel 0) 8 2 false).generate listHash torch src (shiftModel 0).runner () 0 [0, 1]
        3 params none).1 = .ok (y.run src ()).1 ∧ ∀ f, x.expect f = y.expect f := by
  intro torch params src
  have hlen : ∀ k x, ((shiftModel k).lmHead x).length = (shiftModel k).vocabSize := fun k x => rfl
  obtain ⟨x, hx, -, hy⟩ := speculative_lossless (shiftModel 0) (shiftModel 1) listHash
    (lawful_stableSort Real.exp_pos) (show 1 ≤ 2 by decide) (show 1 ≤ 2 by decide)
    (by decide) (by decide) (hlen 0) (hlen 1) params (List.cons_ne_nil 0 [1]) 3 none
    (show (BlockManager.init 8 2).blocksNeeded 7 ≤ 8 by decide)
  obtain ⟨y, hy, hlaw⟩ := hy le_rfl (by decide)
  exact ⟨x, y, hx src (fun w g hw => List.length_pos_iff.2 hw) 0 _ .start () 0,
    hy src _ .start () 0, hlaw⟩

end DiSpec
