/-
# Speculative decoding is lossless when greedy

With greedy parameters every distribution is one-hot, at what the model decodes next.
Against such rows `rejection_sample` accepts a drafted token exactly if the target
decodes it too, and corrects the first other one to the target's
(`follows_rejectionSample`): whatever is drafted, what is emitted follows the text
for the target.  The loop keeps this of everything emitted so far, stops where
greedy decoding stops, and so returns its tokens (`loop_greedy`), which are also
those of `LLMEngine.generate`.
-/

import DiSpec.Engine.Transparency
import DiSpec.Spec.Coherence

namespace DiSpec

open Autoregressive

section Rejection

variable {R G : Type} [Field R] [LinearOrder R] [IsStrictOrderedRing R]

/-- What a correction is drawn from where draft and target differ: the target's row. -/
theorem residual_oneHot {V a t : ℕ} (ha : a < V) (hne : t ≠ a) :
    residual (oneHot V t) (oneHot V a) = (oneHot V a : List R) := by
  have hresid : List.zipWith (fun x y => max (x - y) 0) (oneHot V a) (oneHot V t) =
      (oneHot V a : List R) := by
    refine List.ext_getElem? fun j => ?_
    rcases Nat.lt_or_ge j V with hj | hj
    · rw [List.getElem?_zipWith, getElem?_oneHot a hj, getElem?_oneHot t hj]
      rcases eq_or_ne j a with rfl | hja
      · simp [hne.symm]
      · rcases eq_or_ne j t with rfl | hjt
        · simp [hja]
        · simp [hja, hjt]
    · rw [List.getElem?_eq_none (by simp [length_oneHot, hj]),
        List.getElem?_eq_none (by rw [length_oneHot]; exact hj)]
  simp only [residual, hresid, sum_oneHot ha]
  simp

/-- A drafted token is accepted exactly if it is the target's. -/
theorem acceptRatio_one (c : Prop) [Decidable c] :
    acceptRatio (1 : R) (if c then 1 else 0) = if c then 1 else 0 := by
  rw [acceptRatio, if_neg (not_le.2 one_pos), div_one]
  split
  · exact min_self 1
  · exact min_eq_right zero_le_one

variable {src : Source R G} (hmulti : ∀ n i g, i < n → (src.multinomial (oneHot n i) g).1 = i)
  {V : ℕ} {next nextD : List ℕ → ℕ}

omit [LinearOrder R] [IsStrictOrderedRing R] in
include hmulti in
/-- Tokens drawn from one-hot rows follow for the draft. -/
theorem follows_of_drawn (hD : ∀ c, nextD c < V) {ctx ts : List ℕ}
    (h : SpeculativeEngine.Drawn src ts (rowsAlong (fun c => oneHot V (nextD c)) ctx ts)) :
    Follows nextD ctx ts := by
  induction ts generalizing ctx with
  | nil => exact .nil nextD ctx
  | cons t ts ih =>
    rw [rowsAlong] at h
    obtain ⟨⟨g, hg⟩, h⟩ := List.forall₂_cons.1 h
    rw [hmulti V _ g (hD ctx)] at hg
    subst hg
    exact (ih h).cons

include hmulti in
/-- **What is emitted follows for the target**, whatever the draft proposes. -/
theorem follows_rejectionSample (hrand : ∀ g, 0 ≤ (src.rand g).1 ∧ (src.rand g).1 < 1)
    (hD : ∀ c, nextD c < V) (hT : ∀ c, next c < V) {ctx ts : List ℕ} (h : Follows nextD ctx ts)
    (g : G) :
    ∃ out n, ((rejectionSample (oneHot V (next (ctx ++ ts))) ts
        (rowsAlong (fun c => oneHot V (nextD c)) ctx ts)
        (rowsAlong (fun c => oneHot V (next c)) ctx ts)).run src g).1 = .ok (out, n) ∧
      Follows next ctx out := by
  induction ts generalizing ctx g with
  | nil =>
    refine ⟨[next ctx], 0, ?_, (Follows.nil next _).cons⟩
    rw [List.append_nil, rejectionSample, RandM.run_map, sampleFromProbs, RandM.run, RandM.run_pure,
      hmulti V _ g (hT ctx)]
  | cons t ts ih =>
    have ht : t = nextD ctx := by simpa using h [] t ts rfl
    have hq : (oneHot V (nextD ctx) : List R)[t]? = some 1 := by
      rw [getElem?_oneHot _ (ht ▸ hD ctx), if_pos ht]
    have hp : (oneHot V (next ctx) : List R)[t]? = some (if t = next ctx then 1 else 0) :=
      getElem?_oneHot _ (ht ▸ hD ctx)
    rw [rowsAlong, rowsAlong, rejectionSample, hq, hp]
    simp only [RandM.run]
    obtain ⟨h0, h1⟩ := hrand g
    rcases eq_or_ne t (next ctx) with htn | htn
    · have hacc : (src.rand g).1 < acceptRatio 1 (if t = next ctx then 1 else 0) := by
        rwa [acceptRatio_one, if_pos htn]
      obtain ⟨out, n, heq, hf⟩ := ih h.tail (src.rand g).2
      refine ⟨t :: out, n + 1, ?_, ?_⟩
      · rw [if_pos hacc, RandM.run_map, show ctx ++ t :: ts = ctx ++ [t] ++ ts by simp, heq]
        rfl
      · subst htn
        exact hf.cons
    · have hrej : ¬ (src.rand g).1 < acceptRatio 1 (if t = next ctx then 1 else 0) := by
        rwa [acceptRatio_one, if_neg htn, not_lt]
      refine ⟨[next ctx], 0, ?_, (Follows.nil next _).cons⟩
      rw [if_neg hrej, RandM.run_map, residual_oneHot (hT ctx) (ht ▸ htn), sampleFromProbs, RandM.run,
        RandM.run_pure, hmulti V _ _ (hT ctx)]

end Rejection

namespace SpeculativeEngine

section Emit

/-- **Emission** ends before EOS and the length limit, or returns at the first token that
reaches one of them. -/
theorem emit_spec {maxNewTokens : ℕ} (eos : Option ℕ) {emitted out : List ℕ} (stats : SpecStats)
    (hout : out.length < maxNewTokens) :
    let e := emit maxNewTokens eos emitted out stats
    (e.1 = false ∧ e.2.1 = out ++ emitted ∧ e.2.1.length < maxNewTokens ∧
        ∀ t ∈ emitted, isEos eos t = false) ∨
      (e.1 = true ∧ ∃ l t r, emitted = l ++ t :: r ∧ e.2.1 = out ++ l ++ [t] ∧
        (out ++ l).length < maxNewTokens ∧ (∀ u ∈ l, isEos eos u = false) ∧
        (maxNewTokens ≤ e.2.1.length ∨ isEos eos t = true)) := by
  induction emitted generalizing out stats with
  | nil => exact Or.inl ⟨rfl, (List.append_nil out).symm, hout, by simp⟩
  | cons t ts ih =>
    intro e
    by_cases hstop : maxNewTokens ≤ (out ++ [t]).length ∨ some t = eos
    · have he : e = (true, out ++ [t], { stats with emitted := stats.emitted + 1 }) := if_pos hstop
      rw [he]
      refine Or.inr ⟨rfl, [], t, ts, rfl, by simp, by simpa using hout, by simp, ?_⟩
      exact hstop.imp id fun h => decide_eq_true h
    · have he : e = emit maxNewTokens eos ts (out ++ [t]) { stats with emitted := stats.emitted + 1 } :=
        if_neg hstop
      obtain ⟨hlen, hne⟩ := not_or.1 hstop
      have ht : isEos eos t = false := decide_eq_false hne
      rw [he]
      rcases ih { stats with emitted := stats.emitted + 1 } (not_le.1 hlen) with
        ⟨hgo, hall, hlt, hopen⟩ | ⟨hret, l, u, r, rfl, hall, hlt, hopen, hend⟩
      · refine Or.inl ⟨hgo, ?_, hlt, fun u hu => ?_⟩
        · rw [hall, List.append_assoc]
          rfl
        · rcases List.mem_cons.1 hu with rfl | hu
          · exact ht
          · exact hopen u hu
      · refine Or.inr ⟨hret, t :: l, u, r, rfl, ?_, ?_, fun v hv => ?_, hend⟩
        · rw [hall]
          simp
        · simpa [Nat.add_assoc, Nat.add_comm] using hlt
        · rcases List.mem_cons.1 hv with rfl | hv
          · exact ht
          · exact hopen v hv

end Emit

variable {X D Y E R G : Type} [Zero D] [Add X] [Zero E] [Add Y] [Field R] [LinearOrder R]

/-- Greedy distributions are one-hot at the next token of the model. -/
theorem nextProbs_greedy (torch : Torch R) {params : SamplingParams R} (hg : params.greedy = true)
    {T : Transformer X D R} {V : ℕ} (hrow : ∀ x, (T.lmHead x).length = V) :
    nextProbs torch V params T = fun toks => oneHot V (greedyNext T noBase toks) := by
  funext toks
  have hlen : (T.nextLogits toks).length = V := hrow _
  rw [nextProbs, probs, List.take_of_length_le hlen.le, logitsToProbs, if_pos hg, hlen]
  rfl

omit [Field R] in
theorem greedyNext_lt {T : Transformer X D R} {V : ℕ} (hV : 0 < V)
    (hrow : ∀ x, (T.lmHead x).length = V) (toks : List ℕ) : greedyNext T noBase toks < V := by
  have hlen : (T.logitsAfter noBase toks).length = V := hrow _
  rw [greedyNext, ← hlen]
  exact argmax_lt (List.ne_nil_of_length_pos (hlen.symm ▸ hV))

variable [IsStrictOrderedRing R]
variable {S : SpecSetup X D Y E R} {T : Transformer X D R} {Td : Transformer Y E R} {sid : ℕ}
variable {torch : Torch R} {params : SamplingParams R}

/-- **The greedy loop** returns the greedy decoding of the prompt by the target, or raises
`OutOfBlocksError`.  By induction on the rounds: each emits at least one token. -/
theorem loop_greedy (htgt : S.tgt = T.runner) (hdrf : S.drf = Td.runner)
    (hK : 1 ≤ S.numSpeculativeTokens) (hV : 0 < S.vocab) (hrow : ∀ x, (T.lmHead x).length = S.vocab)
    (hrow' : ∀ y, (Td.lmHead y).length = S.vocab) {src : Source R G}
    (hmulti : ∀ n i g, i < n → (src.multinomial (oneHot n i) g).1 = i)
    (hrand : ∀ g, 0 ≤ (src.rand g).1 ∧ (src.rand g).1 < 1) (hg : params.greedy = true)
    {promptIds : List ℕ} {maxNewTokens : ℕ} {eos : Option ℕ} {fuel : ℕ} {s : SpecLoop D E R G}
    (h : Coherent S torch params T Td sid (promptIds ++ s.out) s)
    (hf : Follows (greedyNext T noBase) promptIds s.out) (hopen : ∀ t ∈ s.out, isEos eos t = false)
    (hlen : s.out.length < maxNewTokens) (hfuel : maxNewTokens ≤ fuel + s.out.length) :
    let r := (loop S torch src sid params promptIds.length maxNewTokens eos fuel s).1
    (∃ msg, r = .error (.OutOfBlocksError msg)) ∨
      ∃ stats, r = .ok (greedy (greedyNext T noBase) (isEos eos) maxNewTokens promptIds, stats) := by
  induction fuel generalizing s with
  | zero => omega
  | succ fuel ih =>
    rw [loop, if_pos hlen]
    obtain ⟨r, s', heq, -, -, hcase⟩ := round_spec htgt hdrf hK src maxNewTokens eos h List.length_append
    rw [heq]
    rw [nextProbs_greedy torch hg hrow, nextProbs_greedy torch hg hrow'] at hcase
    have hT := greedyNext_lt hV hrow
    have hD := greedyNext_lt hV hrow'
    rcases hcase with ⟨msg, rfl⟩ | ⟨ts, hts, hdrawn, hcase⟩
    · exact Or.inl ⟨msg, rfl⟩
    have hfD := follows_of_drawn hmulti hD hdrawn
    have hlt : ∀ t ∈ ts, t < S.vocab := fun t ht => by
      obtain ⟨l, r, rfl⟩ := List.append_of_mem ht
      rw [hfD l t r rfl]
      exact hD _
    rcases hcase with ⟨hrows, -⟩ | ⟨g₁, n, t, stats, hn, hrej, hcoh, rfl, hout⟩
    · exact absurd (inRows_rowsAlong (fun _ => length_oneHot _ _) (fun _ => length_oneHot _ _) hlt _) hrows
    -- what was emitted follows the text for the target
    obtain ⟨emitted, n', hrej', hfe⟩ := follows_rejectionSample hmulti hrand hD hT hfD g₁
    obtain ⟨rfl, rfl⟩ := Prod.mk.inj (Except.ok.inj (hrej'.symm.trans hrej))
    have hall := hf.append hfe
    rcases emit_spec eos stats hlen with
      ⟨hgo, hout', hlt', hopen'⟩ | ⟨hret, l, u, r, hsplit, hout', hlt', hopen', hend⟩
    · rw [hgo]
      rw [hout'] at hout hlt'
      rw [List.append_assoc, ← hout] at hcoh
      rw [← hout] at hall hlt'
      refine ih hcoh hall (fun v hv => ?_) hlt' ?_
      · rw [hout] at hv
        rcases List.mem_append.1 hv with hv | hv
        · exact hopen v hv
        · exact hopen' v hv
      · rw [hout, List.length_append, List.length_append, List.length_singleton]
        omega
    · rw [hret]
      refine Or.inr ⟨s'.stats, ?_⟩
      rw [hout'] at hout hend
      have hle : (s.out ++ l ++ [u]).length ≤ maxNewTokens := by
        rw [List.length_append, List.length_singleton]
        exact hlt'
      have hfol : Follows (greedyNext T noBase) promptIds (s.out ++ l ++ [u]) := by
        rw [hsplit, ← List.singleton_append, ← List.append_assoc, ← List.append_assoc] at hall
        exact hall.of_append
      have hfin : greedy (greedyNext T noBase) (isEos eos) maxNewTokens promptIds = s.out ++ l ++ [u] := by
        refine greedy_eq hfol (.snoc (fun v hv => ?_) u) hle ?_
        · rcases List.mem_append.1 hv with hv | hv
          · exact hopen v hv
          · exact hopen' v hv
        · exact hend.imp (fun hmax => le_antisymm hle hmax) fun hstop => ⟨_, u, rfl, hstop⟩
      simp only [hout, List.take_of_length_le hle, hfin]

/-- **A greedy call** on an id without a table returns the greedy decoding of the prompt by
the target, or raises `OutOfBlocksError`. -/
theorem generate_greedy (htgt : S.tgt = T.runner) (hdrf : S.drf = Td.runner)
    (hK : 1 ≤ S.numSpeculativeTokens) (hV : 0 < S.vocab) (hrow : ∀ x, (T.lmHead x).length = S.vocab)
    (hrow' : ∀ y, (Td.lmHead y).length = S.vocab) {src : Source R G}
    (hmulti : ∀ n i g, i < n → (src.multinomial (oneHot n i) g).1 = i)
    (hrand : ∀ g, 0 ≤ (src.rand g).1 ∧ (src.rand g).1 < 1) (torch : Torch R)
    (hg : params.greedy = true) {e : SpeculativeEngine D E R} (hs : e.Sound)
    (hnone : e.tgt.cache.manager.tables.lookup sid = none ∧ e.drf.cache.manager.tables.lookup sid = none)
    (g : G) {promptIds : List ℕ} (h0 : promptIds ≠ []) {maxNewTokens : ℕ} (hmax : 1 ≤ maxNewTokens)
    (eos : Option ℕ) :
    let r := (e.generate S torch src g sid promptIds params maxNewTokens eos).1
    (∃ msg, r = .error (.OutOfBlocksError msg)) ∨
      ∃ stats, r = .ok (greedy (greedyNext T noBase) (isEos eos) maxNewTokens promptIds, stats) := by
  obtain ⟨r₁, e₁, heq₁, hs₁, -, hcase⟩ := allocate_spec hs sid promptIds
  unfold generate
  rw [heq₁]
  rcases hcase with ⟨x, rfl, hx⟩ | ⟨rfl, t, u, ht, hnum, hu, hnum'⟩
  · obtain ⟨msg, rfl⟩ := hx hnone.1 hnone.2
    exact Or.inl ⟨msg, rfl⟩
  obtain ⟨r₂, e₂, heq₂, hs₂, -, hcase⟩ := prefill_spec htgt hdrf torch params hs₁ g ht hnum hu hnum'
  have hbody : ∃ r e₃ g₃, e₁.generateBody S torch src g sid promptIds params maxNewTokens eos =
      (r, e₃, g₃) ∧ e₃.Sound ∧ ((∃ msg, r = .error (.OutOfBlocksError msg)) ∨
        ∃ stats, r = .ok (greedy (greedyNext T noBase) (isEos eos) maxNewTokens promptIds, stats)) := by
    unfold generateBody
    rw [heq₂]
    rcases hcase with ⟨msg, rfl⟩ | ⟨hnil, -⟩ | ⟨s, rfl, rfl, hout, -, hcoh⟩
    · exact ⟨_, e₂, g, rfl, hs₂, Or.inl ⟨msg, rfl⟩⟩
    · exact absurd hnil h0
    have hcoh' : Coherent S torch params T Td sid (promptIds ++ s.out) s := by
      rwa [hout, List.append_nil]
    obtain ⟨hs₃, -⟩ := loop_sound htgt hdrf hK src promptIds maxNewTokens eos maxNewTokens hcoh'
    refine ⟨_, _, _, rfl, hs₃, loop_greedy htgt hdrf hK hV hrow hrow' hmulti hrand hg hcoh' ?_ ?_ ?_ ?_⟩
    · rw [hout]
      exact .nil _ _
    · simp [hout]
    · rw [hout]
      exact hmax
    · omega
  obtain ⟨r₃, e₃, g₃, heq₃, hs₃, hcase⟩ := hbody
  obtain ⟨e₄, heq₄, -, -⟩ := free_spec hs₃ sid
  simp only [heq₃, heq₄]
  exact hcase

end SpeculativeEngine

open SpeculativeEngine

variable {κ X D Y E R G : Type} [Zero D] [Add X] [Zero E] [Add Y] [DecidableEq κ]
variable [Field R] [LinearOrder R] [IsStrictOrderedRing R]

/-- **Speculative decoding is lossless when greedy.**  Target and draft have one vocabulary,
a multinomial draw from a one-hot row is its index, and `rand` is in `[0, 1)`.  Then after
any earlier calls on both engines, if neither runs out of blocks,
`SpeculativeEngine.generate` returns the tokens that `LLMEngine.generate` returns for
the target. -/
theorem speculative_greedy_lossless (T : Transformer X D R) (Td : Transformer Y E R)
    (H : RollingHash κ) (torch : Torch R) (src : Source R G) {K numBlocks blockSize next : ℕ}
    (hK : 1 ≤ K) (hbs : 1 ≤ blockSize) (hvocab : Td.vocabSize = T.vocabSize) (hV : 0 < T.vocabSize)
    (hrow : ∀ x, (T.lmHead x).length = T.vocabSize) (hrow' : ∀ y, (Td.lmHead y).length = Td.vocabSize)
    (hmulti : ∀ n i g, i < n → (src.multinomial (oneHot n i) g).1 = i)
    (hrand : ∀ g, 0 ≤ (src.rand g).1 ∧ (src.rand g).1 < 1) {e : SpeculativeEngine D E R}
    (he : Served (setup T Td K) torch src (init T Td numBlocks blockSize) next e) {sid : ℕ}
    (hsid : next ≤ sid) {numBlocks' blockSize' : ℕ} (hbs' : 1 ≤ blockSize') {l : LLMEngine κ D}
    (hl : LLMEngine.Served H torch src T.runner (.init T numBlocks' blockSize' false) l) (seqId : ℕ)
    (g g' : G) {promptIds : List ℕ} (hprompt : promptIds ≠ []) {maxNewTokens : ℕ}
    (hmax : 1 ≤ maxNewTokens) {params : SamplingParams R} (hgreedy : params.greedy = true)
    (eos : Option ℕ) :
    let spec := (e.generate (setup T Td K) torch src g sid promptIds params maxNewTokens eos).1
    let plain := (l.generate H torch src T.runner g' seqId promptIds maxNewTokens params eos).1
    (∀ msg, spec ≠ .error (.OutOfBlocksError msg)) → (∀ msg, plain ≠ .error (.OutOfBlocksError msg)) →
      ∃ out stats, spec = .ok (out, stats) ∧ plain = .ok out := by
  intro spec plain hspec hplain
  have hmin : (setup T Td K).vocab = T.vocabSize := by
    show min T.vocabSize Td.vocabSize = _
    rw [hvocab, min_self]
  obtain ⟨hs, hno⟩ := he.sound (T := T) (S := setup T Td K) rfl rfl hK hbs
  rcases generate_greedy (T := T) (S := setup T Td K) rfl rfl hK (hmin.symm ▸ hV) (by rwa [hmin])
      (by rwa [hmin, ← hvocab]) hmulti hrand torch hgreedy hs (hno sid hsid) g hprompt hmax eos with
    ⟨msg, herr⟩ | ⟨stats, hok⟩
  · exact absurd herr (hspec msg)
  have href := reference_greedy torch T hgreedy eos maxNewTokens promptIds
  rcases hl.generate_plain torch src T H hbs' hprompt (congrArg (fun m => (m.run src g').1) href) seqId with
    ⟨⟨msg, herr⟩, -⟩ | hplainok
  · exact absurd herr (hplain msg)
  · rw [max_eq_left hmax] at hplainok
    exact ⟨_, stats, hok, hplainok⟩

/-- A way to draw from a row that finds the index of a one-hot row. -/
theorem idxOf_oneHot {n i : ℕ} (h : i < n) : (oneHot n i : List ℚ).idxOf 1 = i := by
  induction n generalizing i with
  | zero => exact absurd h (Nat.not_lt_zero i)
  | succ n ih =>
    cases i with
    | zero => exact List.idxOf_cons_self
    | succ i =>
      rw [oneHot, List.replicate_succ, List.set_cons_succ, List.idxOf_cons_ne _ zero_ne_one]
      exact congrArg _ (ih (Nat.lt_of_succ_lt_succ h))

/-- The hypotheses are satisfiable: three rounds in which one drafted token of six is
accepted. -/
theorem speculative_greedy_lossless_three :
    let torch : Torch ℚ := ⟨id, fun _ => []⟩
    let src : Source ℚ Unit := ⟨fun g => (0, g), fun w g => (w.idxOf 1, g)⟩
    let draft := { sumModel with norm := fun x => x / 2 }
    let spec := ((init sumModel draft 8 2).generate (setup sumModel draft 2) torch src () 0 [0] .default
      4 none).1
    spec = .ok ([0, 1, 2, 2], ⟨3, 6, 1, 4⟩) ∧ ∃ out stats, spec = .ok (out, stats) ∧
      ((LLMEngine.init sumModel 8 2 false).generate listHash torch src sumModel.runner () 0 [0] 4
        .default none).1 = .ok out := by
  intro torch src draft spec
  have hspec : spec = .ok ([0, 1, 2, 2], ⟨3, 6, 1, 4⟩) := by decide +kernel
  have hplain : ((LLMEngine.init sumModel 8 2 false).generate listHash torch src sumModel.runner () 0
      [0] 4 .default none).1 = .ok [0, 1, 2, 2] := by decide +kernel
  refine ⟨hspec, speculative_greedy_lossless sumModel draft listHash torch src (by decide) (by decide)
    rfl (by decide) (fun _ => rfl) (fun _ => rfl) (fun n i g => idxOf_oneHot) (fun g => ⟨le_rfl, one_pos⟩)
    .start (Nat.zero_le 0) (by decide) .start 0 () () (by decide) (by decide) rfl none ?_ ?_⟩
  · intro msg h
    cases hspec.symm.trans h
  · intro msg h
    cases hplain.symm.trans h

end DiSpec
