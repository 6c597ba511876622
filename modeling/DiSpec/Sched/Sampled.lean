/-
# What each request is given

One call of `sample` serves all rows of a batch, with the parameters of the first
sampled request.  When all sampled requests agree with it (`Agreeing`), every request
gets a draw with its own parameters from its own logits (`drawRows_agreeing`); in
particular a greedy request gets the argmax.  Along a run whose steps all start in such
states the output of a finished greedy request is greedy decoding of its own prompt
(`greedy_output`), whoever else is in the batches.

Where requests disagree this fails: `greedy_output_perturbed` is a run in which a greedy
request gets another token as soon as the request before it asks for a temperature.
-/

import DiSpec.Engine.Generation
import DiSpec.Sched.Run

namespace DiSpec
namespace ContinuousBatchingEngine

variable {X D R G : Type}

/-! ### Tokens drawn in a row -/

theorem drawnFor_of_notMem {drawn : List (ℕ × ℕ)} {r : ℕ} (h : r ∉ drawn.map Prod.fst) :
    drawnFor drawn r = [] := by
  rw [drawnFor, List.filter_eq_nil_iff.2, List.map_nil]
  rintro d hd heq
  exact h (List.mem_map.2 ⟨d, hd, of_decide_eq_true heq⟩)

/-- A request whose draw is determined is given that token. -/
theorem drawnFor_sequence (src : Source R G) {f : ℕ → RandM R ℕ} {rs : List ℕ} (hn : rs.Nodup) {r t : ℕ}
    (hr : r ∈ rs) (hf : f r = .pure t) (g : G) :
    drawnFor (rs.zip ((RandM.sequence (rs.map f)).run src g).1) r = [t] := by
  induction rs generalizing g with
  | nil => exact absurd hr List.not_mem_nil
  | cons r' rs ih =>
    rw [List.nodup_cons] at hn
    rw [List.map_cons, RandM.sequence, RandM.run_bind, RandM.run_map, List.zip_cons_cons, drawnFor_cons]
    rcases List.mem_cons.1 hr with rfl | hr
    · rw [if_pos rfl, hf, RandM.run_pure]
      refine congrArg ([t] ++ ·) (drawnFor_of_notMem fun hm => hn.1 ?_)
      obtain ⟨d, hd, rfl⟩ := List.mem_map.1 hm
      exact (List.of_mem_zip hd).1
    · have hne : r' ≠ r := by
        rintro rfl
        exact hn.1 hr
      rw [if_neg hne, List.nil_append]
      exact ih hn.2 hr _

/-! ### Agreement -/

/-- A request that is not done is short of its limit, and its last token is not EOS. -/
theorem not_done {q : Request D R} (h : q.done = false) :
    q.outputIds.length < q.maxNewTokens ∧ ∀ l t, q.outputIds = l ++ [t] → isEos q.eosId t = false := by
  rw [Request.done, Bool.or_eq_false_iff, decide_eq_false_iff_not, not_le] at h
  refine ⟨h.1, fun l t heq => ?_⟩
  have := h.2
  rw [heq, List.getLast?_append] at this
  exact this

variable [Field R] [LinearOrder R]

/-- Two sets of parameters that sample alike: the same, or both greedy. -/
def Agree (p p' : SamplingParams R) : Prop := p = p' ∨ p.greedy = true ∧ p'.greedy = true

theorem nextToken_agree (torch : Torch R) {p p' : SamplingParams R} (h : Agree p p') (row : List R) :
    nextToken torch p row = nextToken torch p' row := by
  rcases h with rfl | ⟨h, h'⟩
  · rfl
  · rw [nextToken, nextToken, if_pos h, if_pos h']

/-- The requests sampled for in the next step all agree with the first of them. -/
def Agreeing (e : ContinuousBatchingEngine D R G) : Prop :=
  ∀ r ∈ e.toSample, Agree (e.req r).params (e.paramsOf e.toSample)

variable [Zero D] [Add X] {T : Transformer X D R} {base : ℕ → BaseKV D}
  {e e₁ e' : ContinuousBatchingEngine D R G} {b : Batch} {sl : List Slice} {torch : Torch R}
  {src : Source R G} {subs : List (Submission D R)} {numBlocks blockSize : ℕ}

/-- The draw of the next token of each request from its own logits with its own
parameters. -/
def drawOwn (torch : Torch R) (T : Transformer X D R) (base : ℕ → BaseKV D)
    (e : ContinuousBatchingEngine D R G) (rs : List ℕ) : RandM R (List ℕ) :=
  RandM.sequence (rs.map fun r => nextToken torch (e.req r).params (ownLogits T base e r))

/-- **Requests that agree get their own draws.** -/
theorem drawRows_agreeing (torch : Torch R) (src : Source R G) (T : Transformer X D R) (base : ℕ → BaseKV D)
    (h : e.Agreeing) :
    drawRows torch src T base e e.toSample = (drawOwn torch T base e e.toSample).run src e.rng := by
  rw [drawRows, sample_eq, drawOwn, List.map_map]
  refine congrArg (fun l => (RandM.sequence l).run src e.rng) (List.map_congr_left fun r hr => ?_)
  exact (nextToken_agree torch (h r hr) _).symm

/-- If the next step samples for request `r`, the first request it samples for is greedy. -/
def GreedyFor (r : ℕ) (e : ContinuousBatchingEngine D R G) : Prop :=
  r ∈ e.toSample → (e.paramsOf e.toSample).greedy = true

instance (r : ℕ) (e : ContinuousBatchingEngine D R G) : Decidable (GreedyFor r e) :=
  inferInstanceAs (Decidable (_ → _))

omit [Zero D] [Add X] in
/-- A greedy request that agrees with the first one follows a greedy one. -/
theorem Agreeing.greedyFor (h : e.Agreeing) {r : ℕ} (hr : r ∈ e.toSample → (e.req r).params.greedy = true) :
    GreedyFor r e := fun hm => by
  rcases h r hm with heq | ⟨-, hfirst⟩
  · rw [← heq]
    exact hr hm
  · exact hfirst

/-- A request sampled for after a greedy one is given the argmax of its logits. -/
theorem StepRun.greedy (h : StepRun torch src T base e e₁ b sl e') {r : ℕ} (hfirst : GreedyFor r e) :
    (e'.req r).outputIds = (e.req r).outputIds ++
      if r ∈ e.toSample then [argmax (ownLogits T base e r)] else [] := by
  rw [(h.text r).outputIds]
  refine congrArg ((e.req r).outputIds ++ ·) ?_
  split
  next hm =>
    rw [drawRows, sample_eq, List.map_map]
    refine drawnFor_sequence src h.nodup hm ?_ e.rng
    rw [Function.comp_apply, nextToken, if_pos (hfirst hm)]
  next hm =>
    refine drawnFor_of_notMem fun hmem => hm ?_
    obtain ⟨d, hd, rfl⟩ := List.mem_map.1 hmem
    exact (List.of_mem_zip hd).1

/-! ### Greedy requests along a run -/

omit [Field R] [LinearOrder R] [Zero D] in
theorem finishing_subset (e : ContinuousBatchingEngine D R G) (budget free : ℕ) (rs : List ℕ) :
    e.finishing budget free rs ⊆ rs := by
  induction rs generalizing budget free with
  | nil => exact List.Subset.refl _
  | cons r rs ih =>
    rw [finishing]
    split
    · exact List.nil_subset _
    · refine List.append_subset.2 ⟨?_, fun _ hm => List.mem_cons_of_mem _ (ih _ _ hm)⟩
      split
      · simp
      · exact List.nil_subset _

omit [Field R] [LinearOrder R] in
/-- A request a token is sampled for was submitted. -/
theorem Inv.toSample_lt {sl : List Slice} (h : Inv T base e sl []) {r : ℕ} (hr : r ∈ e.toSample) :
    r < e.nextId := by
  refine (h.created r).1 ?_
  simp only [List.mem_append]
  rcases List.mem_append.1 hr with hr | hr
  · exact Or.inl (Or.inr (List.mem_of_mem_take hr))
  · rcases List.mem_append.1 (finishing_subset e _ _ _ hr) with hp | hw
    · exact Or.inl (Or.inl (Or.inr hp))
    · exact Or.inl (Or.inl (Or.inl ((List.perm_insertionSort _ _).mem_iff.1 hw)))

/-- Greedy requests agree. -/
theorem agreeing_of_greedy (hbs : 1 ≤ blockSize) {maxBatchTokens : ℕ} {chunkSize : Option ℕ} {rng : G}
    {cs : List (Call D R)} (hprompt : ∀ s ∈ submissions cs, s.promptIds ≠ [])
    (hgreedy : ∀ s ∈ submissions cs, s.params.greedy = true) :
    BeforeSteps torch src T.runner (init T numBlocks blockSize maxBatchTokens chunkSize rng) cs Agreeing := by
  intro cs₁ cs₂ e hcs hrun
  have hsub : ∀ s ∈ submissions cs₁, s ∈ submissions cs := fun s hs => by
    rw [hcs, submissions_append]
    exact List.mem_append_left _ hs
  have hafter := (After.init T numBlocks hbs maxBatchTokens chunkSize rng).run
    (fun s hs => hprompt s (hsub s hs)) hrun
  have hall : ∀ r ∈ e.toSample, (e.req r).params.greedy = true := fun r hr => by
    have hlt := hafter.invOf.toSample_lt hr
    rw [hafter.count] at hlt
    obtain ⟨-, hparams, -⟩ := hafter.submitted r _ (List.getElem?_eq_getElem hlt)
    rw [hparams]
    exact hgreedy _ (hsub _ (List.getElem_mem hlt))
  intro r hr
  refine Or.inr ⟨hall r hr, ?_⟩
  cases hrs : e.toSample with
  | nil => exact absurd hr (by rw [hrs]; exact List.not_mem_nil)
  | cons first rest => exact hall first (by rw [hrs]; exact List.mem_cons_self)

/-- The output of a greedy request so far: tokens that follow its prompt, none of which but the
last is EOS, no more than asked for, and with room for all but the last. -/
structure GreedySoFar (T : Transformer X D R) (numBlocks : ℕ) (m : BlockManager) (s : Submission D R)
    (out : List ℕ) : Prop where
  follows : Autoregressive.Follows (greedyNext T (baseOf s.prefixKv)) s.promptIds out
  openBefore : Autoregressive.OpenBefore (isEos s.eosId) out
  length_le : out.length ≤ max s.maxNewTokens 1
  fits : out ≠ [] → m.blocksNeeded (s.promptIds.length + out.length - 1) ≤ numBlocks

/-- **One step keeps a greedy output greedy.** -/
theorem GreedySoFar.step (hafter : After T numBlocks blockSize subs e)
    (h : StepRun torch src T (basesOf subs) e e₁ b sl e') {r : ℕ} (hfirst : GreedyFor r e)
    {s : Submission D R} (hs : subs[r]? = some s)
    (hout : GreedySoFar T numBlocks e.cache.manager s (e.req r).outputIds) :
    GreedySoFar T numBlocks e'.cache.manager s (e'.req r).outputIds := by
  obtain ⟨hprompt, -, hmax, heos⟩ := hafter.submitted r s hs
  have hbn : ∀ n, e'.cache.manager.blocksNeeded n = e.cache.manager.blocksNeeded n :=
    BlockManager.blocksNeeded_congr h.blockSize
  rw [h.greedy hfirst]
  split
  next hm =>
    obtain ⟨-, hopen, hfits⟩ := h.sampled r hm
    have hnext : argmax (ownLogits T (basesOf subs) e r) =
        greedyNext T (baseOf s.prefixKv) (s.promptIds ++ (e.req r).outputIds) := by
      rw [ownLogits, greedyNext, Request.tokens, hprompt, basesOf, hs]
    have hcase : (e.req r).outputIds = [] ∨ (e.req r).outputIds.length < s.maxNewTokens ∧
        ∀ l t, (e.req r).outputIds = l ++ [t] → isEos s.eosId t = false := by
      rw [← hmax, ← heos]
      exact hopen.imp_right not_done
    refine ⟨hnext ▸ hout.follows.snoc, ?_, ?_, fun _ => ?_⟩
    · refine hout.openBefore.snoc_of_last (fun l t heq => ?_) _
      rcases hcase with hnil | ⟨-, hlast⟩
      · exact absurd (hnil.symm.trans heq) (by simp)
      · exact hlast l t heq
    · rw [List.length_append, List.length_singleton]
      rcases hcase with hnil | ⟨hlt, -⟩
      · rw [hnil, List.length_nil]
        omega
      · omega
    · rw [hbn, List.length_append, List.length_singleton, ← Nat.add_assoc, Nat.add_sub_cancel]
      rw [Request.tokens, List.length_append, hprompt, hafter.numBlocks] at hfits
      exact hfits
  next =>
    rw [List.append_nil]
    exact ⟨hout.follows, hout.openBefore, hout.length_le, fun hne => by rw [hbn]; exact hout.fits hne⟩

/-- A greedy request of a run whose steps sample for requests that agree. -/
theorem greedyFor_of_agreeing (hbs : 1 ≤ blockSize) {maxBatchTokens : ℕ} {chunkSize : Option ℕ} {rng : G}
    {cs : List (Call D R)} (hprompt : ∀ s ∈ submissions cs, s.promptIds ≠ [])
    (hagree : BeforeSteps torch src T.runner (init T numBlocks blockSize maxBatchTokens chunkSize rng) cs
      Agreeing) {r : ℕ} {s : Submission D R} (hs : (submissions cs)[r]? = some s)
    (hg : s.params.greedy = true) :
    BeforeSteps torch src T.runner (init T numBlocks blockSize maxBatchTokens chunkSize rng) cs
      (GreedyFor r) := by
  intro cs₁ cs₂ e hcs hrun
  refine (hagree cs₁ cs₂ e hcs hrun).greedyFor fun hm => ?_
  rw [hcs, submissions_append] at hs hprompt
  have hafter := (After.init T numBlocks hbs maxBatchTokens chunkSize rng).run
    (fun s hs => hprompt s (List.mem_append_left _ hs)) hrun
  have hlt := hafter.invOf.toSample_lt hm
  rw [hafter.count] at hlt
  rw [List.nil_append] at hlt
  rw [List.getElem?_append_left hlt] at hs
  rw [(hafter.submitted r s hs).2.1]
  exact hg

/-- **Along a run whose steps sample greedily for a request** its output so far is greedy. -/
theorem greedySoFar_of_run (hbs : 1 ≤ blockSize) {maxBatchTokens : ℕ} {chunkSize : Option ℕ} {rng : G}
    {cs : List (Call D R)} (hprompt : ∀ s ∈ submissions cs, s.promptIds ≠ []) {r : ℕ}
    (hfirst : BeforeSteps torch src T.runner (init T numBlocks blockSize maxBatchTokens chunkSize rng) cs
      (GreedyFor r))
    (hrun : calls torch src T.runner (init T numBlocks blockSize maxBatchTokens chunkSize rng) cs = .ok e) :
    After T numBlocks blockSize (submissions cs) e ∧
      ∀ s, (submissions cs)[r]? = some s → GreedySoFar T numBlocks e.cache.manager s (e.req r).outputIds := by
  refine calls_induction (P := fun subs _ e => After T numBlocks blockSize subs e ∧
      ∀ s, subs[r]? = some s → GreedySoFar T numBlocks e.cache.manager s (e.req r).outputIds)
    (S := GreedyFor r) [] [] ?_ ?_ ?_ hprompt hfirst hrun
  · rintro subs hist e s r' e' ⟨hafter, hall⟩ hs heq
    refine ⟨hafter.submit hs heq, fun s' hs' => ?_⟩
    rcases addRequest_spec e s with ⟨msg, herr⟩ | ⟨hok, -⟩
    · rw [herr] at heq
      cases heq
    obtain rfl := (Prod.mk.inj (hok.symm.trans heq)).2
    show GreedySoFar T numBlocks e.cache.manager s' (Function.update e.req e.nextId _ r).outputIds
    rcases eq_or_ne r e.nextId with rfl | hne
    · rw [Function.update_self]
      exact ⟨.nil _ _, fun l t u r h => absurd h (by simp), Nat.zero_le _, fun h => absurd rfl h⟩
    · rw [Function.update_of_ne hne]
      refine hall s' ?_
      have hlt := (List.getElem?_eq_some_iff.1 hs').1
      rw [List.length_append, List.length_singleton] at hlt
      have hne : r ≠ subs.length := hafter.count ▸ hne
      rwa [List.getElem?_append_left (by omega)] at hs'
  · rintro subs hist e e' ⟨hafter, hall⟩ hfirst heq
    obtain ⟨e₁, b, sl, hstep⟩ := hafter.stepRun heq (basesOf subs) fun r s hs => by rw [basesOf, hs]
    exact ⟨hafter.step heq, fun s hs => (hall s hs).step hafter hstep hfirst hs⟩
  · exact ⟨.init T numBlocks hbs maxBatchTokens chunkSize rng, fun s hs => by simp at hs⟩

omit [Field R] in
/-- **A finished greedy request** has the greedy decoding of its own prompt as its output. -/
theorem greedy_of_finished (hafter : After T numBlocks blockSize subs e) {r : ℕ} {s : Submission D R}
    (hs : subs[r]? = some s) (hfin : r ∈ e.finished)
    (hout : GreedySoFar T numBlocks e.cache.manager s (e.req r).outputIds) :
    (e.req r).outputIds = Autoregressive.greedy (greedyNext T (baseOf s.prefixKv)) (isEos s.eosId)
      (max s.maxNewTokens 1) s.promptIds := by
  obtain ⟨-, -, hmax, heos⟩ := hafter.submitted r s hs
  obtain ⟨-, hdone, hne⟩ := (hafter.invOf.each r).finished hfin
  refine (Autoregressive.greedy_eq hout.follows hout.openBefore hout.length_le ?_).symm
  have hpos := List.length_pos_iff.2 hne
  have hle := hout.length_le
  rw [Request.done, Bool.or_eq_true, decide_eq_true_eq, hmax, heos] at hdone
  rcases hdone with hlen | hlast
  · left
    omega
  · right
    obtain ⟨l, t, heq⟩ : ∃ l t, (e.req r).outputIds = l ++ [t] := by
      rcases List.eq_nil_or_concat (e.req r).outputIds with h | ⟨l, t, h⟩
      · exact absurd h hne
      · exact ⟨l, t, h.trans (List.concat_eq_append)⟩
    refine ⟨l, t, heq, ?_⟩
    rw [heq, List.getLast?_append] at hlast
    exact hlast

end ContinuousBatchingEngine

open ContinuousBatchingEngine

variable {X D R G : Type} [Zero D] [Add X] [Field R] [LinearOrder R]

/-- **Each request is sampled with its own parameters along every run whose steps sample for
requests that agree.**  Every step of such a run appends to each request what is drawn for
it from its own logits with its own parameters.  In two such runs a greedy request that
finishes in both, with the same prompt, limit, EOS and supplied KV, has the same output,
whatever else was submitted. -/
theorem sampled_with_own_params (torch : Torch R) (src : Source R G) (T : Transformer X D R)
    {numBlocks blockSize : ℕ} (hbs : 1 ≤ blockSize) (maxBatchTokens : ℕ) (chunkSize : Option ℕ) (rng : G)
    (cs : List (Call D R)) (hprompt : ∀ s ∈ submissions cs, s.promptIds ≠ [])
    (hagree : BeforeSteps torch src T.runner (init T numBlocks blockSize maxBatchTokens chunkSize rng) cs
      Agreeing) :
    let e₀ := init T numBlocks blockSize maxBatchTokens chunkSize rng
    (∀ cs₁ cs₂ e e', cs = cs₁ ++ .step :: cs₂ → calls torch src T.runner e₀ cs₁ = .ok e →
      e.step torch src T.runner = (.ok (), e') →
        let drawn := (drawOwn torch T (basesOf (submissions cs₁)) e e.toSample).run src e.rng
        e'.rng = drawn.2 ∧ ∀ r, (e'.req r).outputIds =
          (e.req r).outputIds ++ drawnFor (e.toSample.zip drawn.1) r) ∧
    ∀ (src' : Source R G) (numBlocks' blockSize' maxBatchTokens' : ℕ) (chunkSize' : Option ℕ) (rng' : G)
      (cs' : List (Call D R)),
      let e₀' := init T numBlocks' blockSize' maxBatchTokens' chunkSize' rng'
      1 ≤ blockSize' → (∀ s ∈ submissions cs', s.promptIds ≠ []) →
      BeforeSteps torch src' T.runner e₀' cs' Agreeing →
      ∀ e e', calls torch src T.runner e₀ cs = .ok e → calls torch src' T.runner e₀' cs' = .ok e' →
        ∀ (r r' : ℕ) s s', (submissions cs)[r]? = some s → (submissions cs')[r']? = some s' →
          s.params.greedy = true → s'.params.greedy = true → s'.promptIds = s.promptIds →
          s'.maxNewTokens = s.maxNewTokens → s'.eosId = s.eosId → s'.prefixKv = s.prefixKv →
          r ∈ e.finished → r' ∈ e'.finished → (e'.req r').outputIds = (e.req r).outputIds := by
  intro e₀
  constructor
  · intro cs₁ cs₂ e e' hcs hrun hstep drawn
    have hafter := (After.init T numBlocks hbs maxBatchTokens chunkSize rng).run (fun s hs => hprompt s (by
      rw [hcs, submissions_append]
      exact List.mem_append_left _ hs)) hrun
    obtain ⟨e₁, b, sl, hst⟩ := hafter.stepRun hstep (basesOf (submissions cs₁)) fun r s hs => by
      rw [List.nil_append] at hs
      rw [basesOf, hs]
    have hdraw := drawRows_agreeing torch src T (basesOf (submissions cs₁)) (hagree cs₁ cs₂ e hcs hrun)
    refine ⟨hst.rng.trans (congrArg Prod.snd hdraw), fun r => ?_⟩
    rw [(hst.text r).outputIds, hdraw]
    rfl
  · intro src' numBlocks' blockSize' maxBatchTokens' chunkSize' rng' cs' e₀' hbs' hprompt' hagree' e e' hrun
      hrun' r r' s s' hs hs' hg hg' h₁ h₂ h₃ h₄ hfin hfin'
    obtain ⟨hafter, hout⟩ :=
      greedySoFar_of_run hbs hprompt (greedyFor_of_agreeing hbs hprompt hagree hs hg) hrun
    obtain ⟨hafter', hout'⟩ :=
      greedySoFar_of_run hbs' hprompt' (greedyFor_of_agreeing hbs' hprompt' hagree' hs' hg') hrun'
    rw [greedy_of_finished hafter hs hfin (hout s hs),
      greedy_of_finished hafter' hs' hfin' (hout' s' hs'), h₁, h₂, h₃, h₄]

/-- **A greedy request gets another token because of its neighbour.**  Two runs differ only in
the temperature of request `0`.  Request `1` is greedy in both, the argmax of its logits is
`0`, but in the second run it is given `1`. -/
theorem greedy_output_perturbed :
    let torch : Torch ℚ := ⟨fun x => 1 + x, fun _ => []⟩
    let src : Source ℚ Unit := ⟨fun g => (0, g), fun _ g => (1, g)⟩
    let e₀ : ContinuousBatchingEngine ℤ ℚ Unit := init sumModel 4 2 8 none ()
    let cs (temperature : ℚ) : List (Call ℤ ℚ) := [.addRequest ⟨[0], 1, ⟨temperature, 1, 0⟩, none, 0, none⟩,
      .addRequest ⟨[0], 1, .default, none, 0, none⟩, .step]
    (calls torch src sumModel.runner e₀ (cs 0)).map collectOutputs = .ok [(0, [0]), (1, [0])] ∧
      (calls torch src sumModel.runner e₀ (cs 1)).map collectOutputs = .ok [(0, [1]), (1, [1])] ∧
      (SamplingParams.default : SamplingParams ℚ).greedy = true ∧
      argmax (sumModel.logitsAfter noBase [0]) = 0 := by
  refine ⟨by decide +kernel, by decide +kernel, by decide +kernel, by decide +kernel⟩

/-- The hypotheses are satisfiable: a greedy request alone, and after a longer greedy one. -/
theorem sampled_with_own_params_greedy :
    let torch : Torch ℚ := ⟨fun x => 1 + x, fun _ => []⟩
    let src : Source ℚ Unit := ⟨fun g => (0, g), fun _ g => (1, g)⟩
    let e₀ : ContinuousBatchingEngine ℤ ℚ Unit := init sumModel 4 2 8 none ()
    let e := ((e₀.addRequest ⟨[0, 1], 1, .default, none, 0, none⟩).2.step torch src sumModel.runner).2
    let e' := (((e₀.addRequest ⟨[2, 2, 1], 4, .default, none, 0, none⟩).2.addRequest
      ⟨[0, 1], 1, .default, none, 0, none⟩).2.step torch src sumModel.runner).2
    (e'.req 1).outputIds = (e.req 0).outputIds :=
  (sampled_with_own_params ⟨fun x => 1 + x, fun _ => []⟩ ⟨fun g => (0, g), fun _ g => (1, g)⟩ sumModel
    (by decide) 8 none () [.addRequest ⟨[0, 1], 1, .default, none, 0, none⟩, .step] (by simp [submissions])
    (agreeing_of_greedy (by decide) (by simp [submissions]) (by decide +kernel))).2
    ⟨fun g => (0, g), fun _ g => (1, g)⟩ 4 2 8 none () [.addRequest ⟨[2, 2, 1], 4, .default, none, 0, none⟩,
      .addRequest ⟨[0, 1], 1, .default, none, 0, none⟩, .step] (by decide) (by simp [submissions])
    (agreeing_of_greedy (by decide) (by simp [submissions]) (by decide +kernel)) _ _
    ((calls_addRequest (r := 0) (by decide +kernel) _).trans (calls_step (by decide +kernel) _))
    ((calls_addRequest (r := 0) (by decide +kernel) _).trans
      ((calls_addRequest (r := 1) (by decide +kernel) _).trans (calls_step (by decide +kernel) _)))
    0 1 _ _ rfl rfl (by decide +kernel) (by decide +kernel) rfl rfl rfl rfl (by decide +kernel)
    (by decide +kernel)

end DiSpec
