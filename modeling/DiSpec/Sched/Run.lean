/-
# Runs of the continuous-batching engine

A run is a list of calls of `add_request` and `step` (`calls`).  `step_spec` says all a
step can do: it raises `OutOfBlocksError` under a condition on the state before it, or
goes through phases 1 to 5 and keeps `Inv`.  So does `add_request`.  `calls_induction`
is the induction over a run, with the submissions so far and the writes so far;
`calls_inv` and `calls_submitted` are its first uses.
-/

import DiSpec.Sched.Execute
import DiSpec.Sched.Schedule

namespace DiSpec
namespace ContinuousBatchingEngine

variable {X D R G : Type} [Zero D] [Add X]
variable {T : Transformer X D R} {base : ℕ → BaseKV D} {e : ContinuousBatchingEngine D R G}

/-! ### One step -/

section

variable [Field R] [LinearOrder R]

/-- What is drawn depends on the texts of the requests and the generator. -/
theorem drawRows_congr (torch : Torch R) (src : Source R G) (T : Transformer X D R) (base : ℕ → BaseKV D)
    {e' : ContinuousBatchingEngine D R G} (h : Scheduled e e') (rs : List ℕ) :
    drawRows torch src T base e' rs = drawRows torch src T base e rs := by
  have hlogits : ownLogits T base e' = ownLogits T base e := by
    funext r
    rw [ownLogits, ownLogits, (h.text r).tokens]
  have hparams : e'.paramsOf rs = e.paramsOf rs := by
    cases rs with
    | nil => rfl
    | cons r rs => exact (h.text r).params
  rw [drawRows, drawRows, hlogits, hparams, h.rng]

/-- **A step that does not raise**: `e₁` and the batch `b` with slices `sl` are what phases 1
and 2 make of `e`, and `e'` what phases 3 to 5 make of those. -/
structure StepRun (torch : Torch R) (src : Source R G) (T : Transformer X D R) (base : ℕ → BaseKV D)
    (e e₁ : ContinuousBatchingEngine D R G) (b : Batch) (sl : List Slice)
    (e' : ContinuousBatchingEngine D R G) : Prop where
  schedule : e.schedule = (.ok (), e₁, b)
  step : e.step torch src T.runner = (.ok (), e')
  mid : Inv T base e₁ sl []
  describes : Describes base e₁.tokensOf e₁.cache.blockSize b sl
  scheduled : Scheduled e e₁
  grows : Grows e e₁ sl
  imported : Imported e sl b.imports
  inv : Inv T base e' [] []
  executed : Executed e₁ e' (e.toSample.zip (drawRows torch src T base e e.toSample).1)
  rng : e'.rng = (drawRows torch src T base e e.toSample).2
  nodup : e.toSample.Nodup
  sampled : ∀ r ∈ e.toSample, r < e.nextId ∧ ((e.req r).outputIds = [] ∨ (e.req r).done = false) ∧
    e.cache.manager.blocksNeeded (e.req r).tokens.length ≤ e.cache.manager.numBlocks

/-- **One step** raises `OutOfBlocksError` iff more of the requests that decode stand on a
block boundary than blocks are free; otherwise it returns. -/
theorem step_spec (torch : Torch R) (src : Source R G) (h : Inv T base e [] []) :
    (e.cache.manager.freeList.length < e.decoding.countP e.onBoundary ∧
      ∃ msg e', e.step torch src T.runner = (.error (.OutOfBlocksError msg), e')) ∨
    e.decoding.countP e.onBoundary ≤ e.cache.manager.freeList.length ∧
      ∃ e₁ b sl e', StepRun torch src T base e e₁ b sl e' := by
  rcases schedule_spec h with ⟨hshort, msg, e', b, heq⟩ |
    ⟨henough, e₁, b, sl, heq, hinv, hd, hsam, hlen, hsched, hgrow, himp, hreqs⟩
  · refine Or.inl ⟨hshort, msg, e', ?_⟩
    rw [step, heq]
  have hnodup : e.toSample.Nodup := hreqs ▸ hinv.slices_nodup.sublist (List.filter_sublist.map _)
  have hall : ∀ r ∈ e.toSample, r < e.nextId ∧ ((e.req r).outputIds = [] ∨ (e.req r).done = false) ∧
      e.cache.manager.blocksNeeded (e.req r).tokens.length ≤ e.cache.manager.numBlocks := by
    intro r hr
    rw [← hreqs] at hr
    obtain ⟨s, hs, rfl⟩ := List.mem_map.1 hr
    obtain ⟨hs, hsam⟩ := List.mem_filter.1 hs
    obtain ⟨hrun, hopen, -, hfits⟩ := hinv.sampled hs hsam
    have htext := hsched.text s.req
    rw [htext.outputIds, htext.done] at hopen
    rw [htext.tokens, BlockManager.blocksNeeded_congr hsched.blockSize, hsched.numBlocks] at hfits
    refine ⟨?_, hopen, hfits⟩
    rw [← hsched.nextId]
    exact (hinv.created _).1 (by simp [hrun])
  have hdraw := drawRows_congr torch src T base hsched e.toSample
  refine Or.inr ⟨henough, e₁, b, sl, ?_⟩
  by_cases hb : b.batch = []
  · -- nothing to do
    have hsl : sl = [] := List.map_eq_nil_iff.1 (hd.batch.symm.trans hb)
    have hnil : e.toSample = [] := by
      rw [← hreqs, hsl]
      rfl
    subst hsl
    refine ⟨e₁, heq, ?_, hinv, hd, hsched, hgrow, himp, hinv, ?_, ?_, hnodup, hall⟩
    · rw [step, heq]
      exact if_pos hb
    · rw [hnil, List.zip_nil_left]
      exact .none e₁ e₁.cache.pool e₁.numSteps
    · rw [hnil, drawRows_nil]
      exact hsched.rng
  · obtain ⟨e', hexec, hinv', hex, hrng⟩ := execute_spec torch src hinv hd hsam hlen hreqs
    rw [hdraw] at hex hrng
    refine ⟨e', heq, ?_, hinv, hd, hsched, hgrow, himp, hinv', hex, hrng, hnodup, hall⟩
    rw [step, heq]
    exact (if_neg hb).trans hexec

variable {torch : Torch R} {src : Source R G} {e₁ e' : ContinuousBatchingEngine D R G} {b : Batch}
  {sl : List Slice}

/-- The text of a request after a step: what was drawn for it is appended. -/
theorem StepRun.text (h : StepRun torch src T base e e₁ b sl e') (r : ℕ) :
    SameText ((e.req r).emit
      (drawnFor (e.toSample.zip (drawRows torch src T base e e.toSample).1) r)) (e'.req r) :=
  ((h.scheduled.text r).emit _).trans (h.executed.text r)

theorem StepRun.nextId (h : StepRun torch src T base e e₁ b sl e') : e'.nextId = e.nextId :=
  h.executed.nextId.trans h.scheduled.nextId

theorem StepRun.blockSize (h : StepRun torch src T base e e₁ b sl e') :
    e'.cache.manager.blockSize = e.cache.manager.blockSize :=
  h.executed.blockSize.trans h.scheduled.blockSize

theorem StepRun.numBlocks (h : StepRun torch src T base e e₁ b sl e') :
    e'.cache.manager.numBlocks = e.cache.manager.numBlocks :=
  h.executed.numBlocks.trans h.scheduled.numBlocks

end

/-! ### Submission -/

omit [Zero D] [Add X] in
/-- A submission is accepted, or its supplied KV raises `ValueError` and nothing changes. -/
theorem addRequest_spec (e : ContinuousBatchingEngine D R G) (s : Submission D R) :
    (∃ msg, e.addRequest s = (.error (.ValueError msg), e)) ∨
    e.addRequest s = (.ok e.nextId, { e.setReq e.nextId ⟨e.nextId, s.promptIds, s.params, s.maxNewTokens,
        s.eosId, [], .WAITING, 0, false, s.priority, 0, s.prefixKv⟩ with
      waiting := e.waiting ++ [e.nextId], nextId := e.nextId + 1 }) ∧
    ∀ k v, s.prefixKv = some (k, v) →
      k.Shaped e.cache k.tokens ∧ v.Shaped e.cache k.tokens ∧ k.tokens < s.promptIds.length := by
  unfold addRequest
  cases hkv : s.prefixKv with
  | none => exact Or.inr ⟨rfl, fun k v h => absurd h (by simp)⟩
  | some kv =>
    obtain ⟨k, v⟩ := kv
    simp only [checkPrefixKv]
    split
    next x hx =>
      left
      split at hx
      · exact ⟨_, by cases hx; rfl⟩
      · split at hx
        · exact ⟨_, by cases hx; rfl⟩
        · cases hx
    next hx =>
      right
      refine ⟨rfl, fun k' v' h => ?_⟩
      obtain ⟨rfl, rfl⟩ := Prod.mk.inj (Option.some.inj h)
      split at hx
      · cases hx
      · split at hx
        · cases hx
        next hshapes hcov =>
          obtain ⟨hk, hv⟩ := not_not.1 hshapes
          simp only [Prod.mk.injEq] at hk
          refine ⟨?_, hv, (not_not.1 hcov).2⟩
          rw [KVTensor.Shaped, hk.1, hk.2.1, hk.2.2]

/-- **An accepted submission keeps the invariant.** -/
theorem Inv.submit (h : Inv T base e [] []) {q : Request D R} (hstate : q.state = .WAITING)
    (hpos : q.prefillPos = 0) (hout : q.outputIds = []) (hprompt : q.promptIds ≠ [])
    (hbase : base e.nextId = baseOf q.prefixKv)
    (hcovers : PrefixFits e.cache q) :
    Inv T base { e.setReq e.nextId q with
      waiting := e.waiting ++ [e.nextId], nextId := e.nextId + 1 } [] [] := by
  have hnew : e.nextId ∉ e.waiting ++ e.prefilling ++ e.running ++ e.finished := fun hm =>
    (lt_irrefl _ ((h.created _).1 hm)).elim
  have hperm : (e.waiting ++ [e.nextId] ++ e.prefilling ++ e.running ++ e.finished).Perm
      (e.nextId :: (e.waiting ++ e.prefilling ++ e.running ++ e.finished)) :=
    ((((List.perm_append_singleton _ _).append_right _).append_right _).append_right _)
  have hnot := hnew
  simp only [List.mem_append, not_or] at hnot
  obtain ⟨⟨⟨hnw, hnp⟩, hnr⟩, hnf⟩ := hnot
  refine ⟨h.blockSize_pos, h.numLayers, h.chunk, h.accounted, h.disjoint,
    hperm.nodup_iff.2 (List.nodup_cons.2 ⟨hnew, h.lists⟩), fun r => ?_, h.slices_nodup, fun r => ?_⟩
  · refine hperm.mem_iff.trans ?_
    rw [List.mem_cons, h.created r]
    show r = e.nextId ∨ r < e.nextId ↔ r < e.nextId + 1
    omega
  · rcases eq_or_ne r e.nextId with rfl | hne
    · have hnone := (h.each e.nextId).noTable hnp hnr
      refine ⟨fun _ _ => hnone, fun _ => ?_, fun hm => absurd hm hnp, fun hm => absurd hm hnr,
        fun hm => absurd hm hnf, fun s hs => absurd hs List.not_mem_nil,
        fun t ht => absurd (hnone.symm.trans ht) (by simp)⟩
      show IsWaiting e.cache (base e.nextId) (Function.update e.req e.nextId q e.nextId)
      rw [Function.update_self]
      exact ⟨hstate, hpos, hout, hprompt, hbase, hcovers⟩
    · refine (h.each r).congr h.accounted h.blockSize_pos (Function.update_of_ne hne _ _) ?_ Iff.rfl Iff.rfl
        Iff.rfl rfl rfl rfl (fun _ _ _ _ _ => rfl) (fun _ _ => Iff.rfl) Iff.rfl
      show r ∈ e.waiting ++ [e.nextId] ↔ _
      simp [hne]

/-! ### Runs -/

/-- A call of the engine. -/
inductive Call (D R : Type)
  | addRequest (s : Submission D R)
  | step

/-- The submissions of a run, in order. -/
def submissions : List (Call D R) → List (Submission D R)
  | [] => []
  | .addRequest s :: cs => s :: submissions cs
  | .step :: cs => submissions cs

omit [Zero D] [Add X] in
theorem submissions_append (cs cs' : List (Call D R)) :
    submissions (cs ++ cs') = submissions cs ++ submissions cs' := by
  induction cs with
  | nil => rfl
  | cons c cs ih =>
    cases c with
    | addRequest s => exact congrArg (s :: ·) ih
    | step => exact ih

omit [Zero D] [Add X] in
/-- The slots the batch of the next step writes, at admission and in its forward: each with
its request and position. -/
def written (e : ContinuousBatchingEngine D R G) : List (ℕ × ℕ × ℕ) :=
  e.schedule.2.2.imports ++ e.schedule.2.2.writes

variable [Field R] [LinearOrder R]

/-- A run of the engine; it ends with the first call that raises. -/
def calls (torch : Torch R) (src : Source R G) (runner : ModelRunner X D R) :
    ContinuousBatchingEngine D R G → List (Call D R) → Except Exc (ContinuousBatchingEngine D R G)
  | e, [] => .ok e
  | e, .addRequest s :: cs =>
    match e.addRequest s with
    | (.error x, _) => .error x
    | (.ok _, e) => calls torch src runner e cs
  | e, .step :: cs =>
    match e.step torch src runner with
    | (.error x, _) => .error x
    | (.ok (), e) => calls torch src runner e cs

/-- `S` holds of the state before each step of a run. -/
def BeforeSteps (torch : Torch R) (src : Source R G) (runner : ModelRunner X D R)
    (e₀ : ContinuousBatchingEngine D R G) (cs : List (Call D R))
    (S : ContinuousBatchingEngine D R G → Prop) : Prop :=
  ∀ cs₁ cs₂ e, cs = cs₁ ++ .step :: cs₂ → calls torch src runner e₀ cs₁ = .ok e → S e

/-- All slots written in a run, each with its request and position. -/
def history (torch : Torch R) (src : Source R G) (runner : ModelRunner X D R) :
    ContinuousBatchingEngine D R G → List (Call D R) → List (ℕ × ℕ × ℕ)
  | _, [] => []
  | e, .addRequest s :: cs => history torch src runner (e.addRequest s).2 cs
  | e, .step :: cs => e.written ++ history torch src runner (e.step torch src runner).2 cs

omit [Zero D] [Add X] in
theorem calls_append (torch : Torch R) (src : Source R G) (runner : ModelRunner X D R)
    (e : ContinuousBatchingEngine D R G) (cs cs' : List (Call D R)) :
    calls torch src runner e (cs ++ cs') =
      match calls torch src runner e cs with
      | .error x => .error x
      | .ok e => calls torch src runner e cs' := by
  induction cs generalizing e with
  | nil => rfl
  | cons c cs ih =>
    cases c with
    | addRequest s =>
      rw [List.cons_append, calls, calls]
      split
      · rfl
      · exact ih _
    | step =>
      rw [List.cons_append, calls, calls]
      split
      · rfl
      · exact ih _

omit [Zero D] [Add X] in
/-- What holds before each step of a run and of its continuation holds before each step of both. -/
theorem BeforeSteps.append {torch : Torch R} {src : Source R G} {runner : ModelRunner X D R}
    {e₀ e : ContinuousBatchingEngine D R G} {cs cs' : List (Call D R)}
    {S : ContinuousBatchingEngine D R G → Prop} (h : BeforeSteps torch src runner e₀ cs S)
    (hrun : calls torch src runner e₀ cs = .ok e) (h' : BeforeSteps torch src runner e cs' S) :
    BeforeSteps torch src runner e₀ (cs ++ cs') S := by
  intro cs₁ cs₂ e₁ hcs hrun₁
  rcases List.append_eq_append_iff.1 hcs with ⟨l, rfl, hl⟩ | ⟨l, rfl, hl⟩
  · -- the step belongs to the continuation
    rw [calls_append, hrun] at hrun₁
    exact h' l cs₂ e₁ hl hrun₁
  · cases l with
    | nil =>
      rw [List.append_nil] at hrun
      obtain rfl := Except.ok.inj (hrun.symm.trans hrun₁)
      exact h' [] cs₂ e hl.symm rfl
    | cons c l =>
      obtain ⟨rfl, -⟩ := List.cons.inj hl
      exact h cs₁ l e₁ rfl hrun₁

omit [Zero D] [Add X] in
/-- A run goes on after an accepted submission. -/
theorem calls_addRequest {torch : Torch R} {src : Source R G} {runner : ModelRunner X D R}
    {e : ContinuousBatchingEngine D R G} {s : Submission D R} {r : ℕ} (h : (e.addRequest s).1 = .ok r)
    (cs : List (Call D R)) :
    calls torch src runner e (.addRequest s :: cs) = calls torch src runner (e.addRequest s).2 cs := by
  rw [calls, show e.addRequest s = (.ok r, (e.addRequest s).2) from Prod.ext h rfl]

omit [Zero D] [Add X] in
/-- A run goes on after a step that returned. -/
theorem calls_step {torch : Torch R} {src : Source R G} {runner : ModelRunner X D R}
    {e : ContinuousBatchingEngine D R G} (h : (e.step torch src runner).1 = .ok ())
    (cs : List (Call D R)) :
    calls torch src runner e (.step :: cs) = calls torch src runner (e.step torch src runner).2 cs := by
  rw [calls, show e.step torch src runner = (.ok (), (e.step torch src runner).2) from Prod.ext h rfl]

omit [Zero D] [Add X] in
/-- **Induction over a run** none of whose calls raised: what holds at the start and is kept by
each submission and each step holds at the end.  `P` may speak of the submissions and of
the writes so far; `S` is what is known of the state before each step. -/
theorem calls_induction (subs : List (Submission D R)) (hist : List (ℕ × ℕ × ℕ)) {torch : Torch R}
    {src : Source R G} {runner : ModelRunner X D R}
    {P : List (Submission D R) → List (ℕ × ℕ × ℕ) → ContinuousBatchingEngine D R G → Prop}
    {Q : Submission D R → Prop} {S : ContinuousBatchingEngine D R G → Prop}
    (hadd : ∀ subs hist e s r e', P subs hist e → Q s → e.addRequest s = (.ok r, e') →
      P (subs ++ [s]) hist e')
    (hstep : ∀ subs hist e e', P subs hist e → S e → e.step torch src runner = (.ok (), e') →
      P subs (hist ++ e.written) e')
    {e₀ e : ContinuousBatchingEngine D R G} {cs : List (Call D R)} (h₀ : P subs hist e₀)
    (hQ : ∀ s ∈ submissions cs, Q s)
    (hS : BeforeSteps torch src runner e₀ cs S) (hrun : calls torch src runner e₀ cs = .ok e) :
    P (subs ++ submissions cs) (hist ++ history torch src runner e₀ cs) e := by
  induction cs generalizing subs hist e₀ with
  | nil =>
    obtain rfl := Except.ok.inj hrun
    rwa [submissions, history, List.append_nil, List.append_nil]
  | cons c cs ih =>
    cases c with
    | addRequest s =>
      rw [calls] at hrun
      rw [submissions] at hQ
      rcases hres : e₀.addRequest s with ⟨x | r, e₁⟩
      · rw [hres] at hrun
        cases hrun
      · rw [hres] at hrun
        have := ih _ _ (hadd _ _ _ _ _ _ h₀ (hQ s List.mem_cons_self) hres)
          (fun s' hs' => hQ s' (List.mem_cons_of_mem _ hs')) (fun cs₁ cs₂ e hcs hrun' =>
            hS (.addRequest s :: cs₁) cs₂ e (by rw [hcs]; rfl) (by rw [calls, hres]; exact hrun')) hrun
        rw [submissions, history, hres]
        rwa [List.append_assoc] at this
    | step =>
      rw [calls] at hrun
      rcases hres : e₀.step torch src runner with ⟨x | ⟨⟩, e₁⟩
      · rw [hres] at hrun
        cases hrun
      · rw [hres] at hrun
        have := ih _ _ (hstep _ _ _ _ h₀ (hS [] cs e₀ rfl rfl) hres) hQ (fun cs₁ cs₂ e hcs hrun' =>
          hS (.step :: cs₁) cs₂ e (by rw [hcs]; rfl) (by rw [calls, hres]; exact hrun')) hrun
        rw [submissions, history, hres]
        rwa [List.append_assoc] at this

/-- The KV supplied with each request of a list of submissions. -/
def basesOf (subs : List (Submission D R)) (r : ℕ) : BaseKV D :=
  match subs[r]? with
  | none => noBase
  | some s => baseOf s.prefixKv

omit [LinearOrder R] in
/-- A new engine satisfies the invariant. -/
theorem init_inv (T : Transformer X D R) (base : ℕ → BaseKV D) (numBlocks : ℕ)
    {blockSize : ℕ} (hbs : 1 ≤ blockSize) (maxBatchTokens : ℕ) (chunkSize : Option ℕ) (rng : G) :
    Inv T base (init T numBlocks blockSize maxBatchTokens chunkSize rng) [] [] := by
  have hnil : ∀ {α : Type} {a : α}, a ∉ ([] : List α) := List.not_mem_nil
  refine ⟨hbs, rfl, ?_, BlockManager.init_accounted numBlocks blockSize, fun _ _ _ _ _ ht => ?_,
    List.nodup_nil, fun r => ?_, List.nodup_nil, fun r => ⟨fun _ _ => rfl, fun h => absurd h hnil,
      fun h => absurd h hnil, fun h => absurd h hnil, fun h => absurd h hnil, fun s h => absurd h hnil,
      fun t h => ?_⟩⟩
  · exact init_chunkSize T numBlocks blockSize maxBatchTokens chunkSize rng
  · cases ht
  · exact iff_of_false hnil (Nat.not_lt_zero r)
  · cases h

/-- What was submitted is what the requests are made of. -/
structure Submitted (subs : List (Submission D R)) (e : ContinuousBatchingEngine D R G) : Prop where
  count : e.nextId = subs.length
  text : ∀ (r : ℕ) s, subs[r]? = some s → (e.req r).promptIds = s.promptIds ∧
    (e.req r).params = s.params ∧ (e.req r).maxNewTokens = s.maxNewTokens ∧ (e.req r).eosId = s.eosId

omit [Zero D] [Add X] [Field R] [LinearOrder R] in
/-- One more submission. -/
theorem Submitted.submit {subs : List (Submission D R)} (h : Submitted subs e) {s : Submission D R}
    {r : ℕ} {e' : ContinuousBatchingEngine D R G} (heq : e.addRequest s = (.ok r, e')) :
    Submitted (subs ++ [s]) e' ∧ r = e.nextId := by
  rcases addRequest_spec e s with ⟨msg, herr⟩ | ⟨hok, -⟩
  · rw [herr] at heq
    cases heq
  obtain ⟨hr, rfl⟩ := Prod.mk.inj (heq.symm.trans hok)
  refine ⟨⟨?_, fun r' s' hs' => ?_⟩, Except.ok.inj hr⟩
  · rw [List.length_append, ← h.count]
    rfl
  · show (Function.update e.req e.nextId _ r').promptIds = _ ∧
      (Function.update e.req e.nextId _ r').params = _ ∧
      (Function.update e.req e.nextId _ r').maxNewTokens = _ ∧
      (Function.update e.req e.nextId _ r').eosId = _
    rcases Nat.lt_trichotomy r' subs.length with hlt | rfl | hgt
    · rw [List.getElem?_append_left hlt] at hs'
      rw [Function.update_of_ne (by rw [h.count]; omega)]
      exact h.text r' s' hs'
    · rw [List.getElem?_concat_length] at hs'
      obtain rfl := Option.some.inj hs'
      rw [← h.count, Function.update_self]
      exact ⟨rfl, rfl, rfl, rfl⟩
    · rw [List.getElem?_eq_none (by rw [List.length_append, List.length_singleton]; omega)] at hs'
      cases hs'

/-- What holds after a run that submitted `subs`: the invariant, for the KV that was supplied,
and the texts of the requests. -/
structure After (T : Transformer X D R) (numBlocks blockSize : ℕ) (subs : List (Submission D R))
    (e : ContinuousBatchingEngine D R G) : Prop where
  count : e.nextId = subs.length
  submitted : ∀ (r : ℕ) s, subs[r]? = some s → (e.req r).promptIds = s.promptIds ∧
    (e.req r).params = s.params ∧ (e.req r).maxNewTokens = s.maxNewTokens ∧ (e.req r).eosId = s.eosId
  numBlocks : e.cache.manager.numBlocks = numBlocks
  blockSize : e.cache.manager.blockSize = blockSize
  inv : ∀ base, (∀ (r : ℕ) s, subs[r]? = some s → base r = baseOf s.prefixKv) → Inv T base e [] []

variable {numBlocks blockSize : ℕ} {subs : List (Submission D R)}

omit [Field R] [LinearOrder R] in
theorem After.invOf (h : After T numBlocks blockSize subs e) : Inv T (basesOf subs) e [] [] :=
  h.inv _ fun r s hs => by rw [basesOf, hs]

omit [LinearOrder R] in
theorem After.init (T : Transformer X D R) (numBlocks : ℕ) {blockSize : ℕ} (hbs : 1 ≤ blockSize)
    (maxBatchTokens : ℕ) (chunkSize : Option ℕ) (rng : G) :
    After T numBlocks blockSize [] (init T numBlocks blockSize maxBatchTokens chunkSize rng) :=
  ⟨rfl, fun r s hs => by simp at hs, rfl, rfl, fun base _ =>
    init_inv T base numBlocks hbs maxBatchTokens chunkSize rng⟩

omit [Field R] [LinearOrder R] in
theorem After.submit (h : After T numBlocks blockSize subs e) {s : Submission D R} {r : ℕ}
    {e' : ContinuousBatchingEngine D R G} (hs : s.promptIds ≠ [])
    (heq : e.addRequest s = (.ok r, e')) : After T numBlocks blockSize (subs ++ [s]) e' := by
  have hsub := (Submitted.submit ⟨h.count, h.submitted⟩ heq).1
  rcases addRequest_spec e s with ⟨msg, herr⟩ | ⟨hok, hcovers⟩
  · rw [herr] at heq
    cases heq
  obtain rfl := (Prod.mk.inj (hok.symm.trans heq)).2
  refine ⟨hsub.count, hsub.text, h.numBlocks, h.blockSize, fun base hbase => ?_⟩
  refine (h.inv base fun r' s' hs' => hbase r' s' ?_).submit rfl rfl rfl hs ?_ hcovers
  · rw [List.getElem?_append_left (List.getElem?_eq_some_iff.1 hs').1]
    exact hs'
  · rw [h.count]
    exact hbase _ s List.getElem?_concat_length

variable {torch : Torch R} {src : Source R G} {e' : ContinuousBatchingEngine D R G}

/-- A step of a run that did not raise, taken apart. -/
theorem After.stepRun (h : After T numBlocks blockSize subs e)
    (heq : e.step torch src T.runner = (.ok (), e'))
    (base : ℕ → BaseKV D) (hbase : ∀ (r : ℕ) s, subs[r]? = some s → base r = baseOf s.prefixKv) :
    ∃ e₁ b sl, StepRun torch src T base e e₁ b sl e' := by
  rcases step_spec torch src (h.inv base hbase) with ⟨-, msg, e'', herr⟩ | ⟨-, e₁, b, sl, e'', hrun⟩
  · rw [herr] at heq
    cases heq
  · obtain rfl := (Prod.mk.inj (hrun.step.symm.trans heq)).2
    exact ⟨e₁, b, sl, hrun⟩

theorem After.step (h : After T numBlocks blockSize subs e)
    (heq : e.step torch src T.runner = (.ok (), e')) : After T numBlocks blockSize subs e' := by
  obtain ⟨e₁, b, sl, hrun⟩ := h.stepRun heq (basesOf subs) fun r s hs => by rw [basesOf, hs]
  refine ⟨hrun.nextId.trans h.count, fun r s hs => ?_, hrun.numBlocks.trans h.numBlocks,
    hrun.blockSize.trans h.blockSize, fun base hbase => ?_⟩
  · obtain ⟨h₁, h₂, h₃, h₄⟩ := h.submitted r s hs
    have htext := hrun.text r
    exact ⟨htext.promptIds.trans h₁, htext.params.trans h₂, htext.maxNewTokens.trans h₃, htext.eosId.trans h₄⟩
  · obtain ⟨_, _, _, hrun'⟩ := h.stepRun heq base hbase
    exact hrun'.inv

/-- **A run that raises nothing keeps the invariant.** -/
theorem After.run {cs : List (Call D R)} (h : After T numBlocks blockSize subs e)
    (hprompt : ∀ s ∈ submissions cs, s.promptIds ≠ [])
    (hrun : calls torch src T.runner e cs = .ok e') :
    After T numBlocks blockSize (subs ++ submissions cs) e' :=
  calls_induction (P := fun subs _ e => After T numBlocks blockSize subs e) (S := fun _ => True) subs []
    (fun _ _ _ _ _ _ h hs heq => h.submit hs heq) (fun _ _ _ _ h _ heq => h.step heq) h hprompt
    (fun _ _ _ _ _ => trivial) hrun

end ContinuousBatchingEngine
end DiSpec
