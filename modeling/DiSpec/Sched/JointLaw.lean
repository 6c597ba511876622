/-
# The joint law of what is sampled

Requests that sample at a temperature share one generator, and how many numbers a step takes from it
depends on who is in the batch, so no output of a run need be the output of the request alone.  What
continuous batching keeps is the law.  A step draws one token for each request of its batch, from the
request's own logits, and what the next batches are may depend on it (`Inv.stepDraws`): a run is a
program that serves in turns (`Inv.interleaves`).  By `Autoregressive.Interleaves.law` the scheduler is
not seen in the texts.

The parameters have to agree, since a step samples with those of its first request
(`sampled_with_own_params`).
-/

import DiSpec.Engine.Transparency
import DiSpec.Lib.Interleaved
import DiSpec.Nucleus
import DiSpec.Sched.Drained
import DiSpec.Sched.Outputs
import DiSpec.Sched.Sampled

namespace DiSpec

open Autoregressive

variable {X D R G : Type}

namespace ContinuousBatchingEngine

section

variable [Zero D] [Add X] [Field R] [LinearOrder R] {T : Transformer X D R} {base : ℕ → BaseKV D}
  {e : ContinuousBatchingEngine D R G} {sl : List Slice}

/-! ### A step as draws -/

omit [Field R] [LinearOrder R] in
/-- Phases 1 and 2 change no text when they raise. -/
theorem Inv.schedule_raised (h : Inv T base e [] []) {x : Exc} {e' : ContinuousBatchingEngine D R G} {b : Batch}
    (heq : e.schedule = (.error x, e', b)) (r : ℕ) : SameText (e.req r) (e'.req r) := by
  have hrunning : e.running.Nodup := by
    have hlists := h.lists
    simp only [List.nodup_append] at hlists
    exact hlists.1.2.1
  obtain ⟨res, e₁, b₁, dec, hdec, hmoves⟩ := decodeLoop_any e.running e e.emptyBatch
  cases res with
  | error y =>
    rw [schedule, hdec] at heq
    cases heq
    exact hmoves.moves.text r
  | ok =>
    -- phase 2 does not raise
    rcases decodeLoop_spec e.running h hrunning (fun r hr => ⟨hr, fun hm => by simp [Sliced] at hm⟩)
        (Describes.nil e) with ⟨-, msg, e₂, b₂, herr⟩ | ⟨henough, -⟩
    · rw [hdec] at herr
      cases herr
    · rcases schedule_spec h with ⟨hshort, -⟩ | ⟨-, e₂, b₂, sl, hok, -⟩
      · exact absurd henough (not_le.2 hshort)
      · rw [hok] at heq
        cases heq

/-- **Phases 3 to 5 are one turn**: a draw for each sampled request from its own logits, after which the
requests have got their tokens. -/
theorem Inv.executeDraws (torch : Torch R) (h : Inv T base e sl []) {b : Batch}
    (hd : Describes base e.tokensOf e.cache.blockSize b sl) (hsam : b.sampled = sl.map Slice.sampled)
    (hlen : ∀ s ∈ sl, 1 ≤ s.len) {rs : List ℕ}
    (hrs : (sl.filter fun s => s.sampled).map Slice.req = rs) :
    ∃ k : List ℕ → Except Exc Unit × ContinuousBatchingEngine D R G,
      e.executeDraws torch T.runner b =
        (sample torch (e.paramsOf rs) (rs.map (ownLogits T base e))).map k ∧
      ∀ ts, ts.length = rs.length → ∃ e', k ts = (.ok (), e') ∧ Inv T base e' [] [] ∧
        Executed e e' (rs.zip ts) := by
  obtain ⟨hidden, pool, hfwd, hrows, hinv⟩ := forward_batch h hd hlen
  set e₁ : ContinuousBatchingEngine D R G :=
    { e with cache := { e.cache with pool }, numSteps := e.numSteps + 1 } with he₁
  have hbatch : sampleBatch b = rs := by rw [sampleBatch_eq hd.batch hsam, hrs]
  unfold ContinuousBatchingEngine.executeDraws
  rw [show T.runner.forward b.tokenIds b.positions b.writeSlots b.seqMeta e.cache =
    (.ok hidden, { e.cache with pool }) from hfwd]
  simp only [← he₁]
  cases hrs' : rs with
  | nil =>
    have hnil : sl.filter (fun s => s.sampled) = [] := List.map_eq_nil_iff.1 (hrs.trans hrs')
    have hlast : b.lastIdx = [] := hd.lastIdx.trans ((lastIdxs_eq_nil 0 sl).2 hnil)
    refine ⟨fun _ => (.ok (), e₁), ?_, fun ts _ => ⟨e₁, rfl, ?_, ?_⟩⟩
    · rw [if_pos hlast, sample_eq]
      rfl
    · rw [awaiting, hnil] at hinv
      exact hinv
    · rw [List.zip_nil_left]
      exact .none e pool _
  | cons first rest =>
    have hne : b.lastIdx ≠ [] := fun hlast => by
      rw [(lastIdxs_eq_nil 0 sl).1 (hd.lastIdx.symm.trans hlast), List.map_nil] at hrs
      exact absurd (hrs.trans hrs') (by simp)
    have hlogits : T.runner.logits ((sl.filter fun s => s.sampled).map (lastHidden T base e.tokensOf)) =
        rs.map (ownLogits T base e) := by
      rw [← hrs, List.map_map]
      show ((sl.filter fun s => s.sampled).map _).map T.lmHead = _
      rw [List.map_map]
      refine List.map_congr_left fun s hs => ?_
      obtain ⟨hs, hsam⟩ := List.mem_filter.1 hs
      show T.lmHead (T.norm (T.hiddenAt _ _ _ (s.start + s.len - 1))) = _
      rw [(h.sampled hs hsam).2.2.1]
      rfl
    refine ⟨fun ts => e₁.deliver (rs.zip ts), ?_, fun ts hts => ?_⟩
    · rw [if_neg hne]
      simp only [hrows, hbatch, hrs']
      rw [hlogits, hrs']
      rfl
    · rw [← hrs'] at hts ⊢
      have hfst : (rs.zip ts).map Prod.fst = (awaiting sl).map Slice.req := by
        rw [awaiting_reqs, hrs]
        exact List.map_fst_zip hts.ge
      obtain ⟨done, e₂, e₃, happ, hret, hinv₃, hex, -⟩ := deliver_spec (rs.zip ts) hinv hfst fun s' hs' => by
        obtain ⟨s, hs, hsam, rfl⟩ := mem_awaiting.1 hs'
        exact ⟨rfl, (h.sampled hs hsam).1⟩
      refine ⟨e₃, ?_, hinv₃, hex.of_pool⟩
      show e₁.deliver (rs.zip ts) = _
      rw [deliver, happ]
      exact hret

/-- **A step is one turn**, unless it raises and changes no text. -/
theorem Inv.stepDraws (torch : Torch R) (h : Inv T base e [] []) :
    (∃ x e', e.stepDraws torch T.runner = .pure (.error x, e') ∧ ∀ r, SameText (e.req r) (e'.req r)) ∨
    (∃ k : List ℕ → Except Exc Unit × ContinuousBatchingEngine D R G,
      e.stepDraws torch T.runner =
        (sample torch (e.paramsOf e.toSample) (e.toSample.map (ownLogits T base e))).map k ∧
      ∀ ts, ts.length = e.toSample.length → ∃ e', k ts = (.ok (), e') ∧ Inv T base e' [] [] ∧
        e'.nextId = e.nextId ∧
        ∀ r, SameText ((e.req r).emit (drawnFor (e.toSample.zip ts) r)) (e'.req r)) ∧
    e.toSample.Nodup ∧ ∀ r ∈ e.toSample, r < e.nextId ∧
      ((e.req r).outputIds = [] ∨ (e.req r).done = false) := by
  rcases schedule_spec h with ⟨hshort, msg, e', b, heq⟩ |
    ⟨-, e₁, b, sl, heq, hinv, hd, hsam, hlen, hsched, -, -, hreqs⟩
  · refine Or.inl ⟨.OutOfBlocksError msg, e', ?_, h.schedule_raised heq⟩
    rw [ContinuousBatchingEngine.stepDraws, heq]
  refine Or.inr ⟨?_, hreqs ▸ hinv.slices_nodup.sublist (List.filter_sublist.map _), fun r hr => ?_⟩
  · have hparams : e₁.paramsOf e.toSample = e.paramsOf e.toSample := by
      cases e.toSample with
      | nil => rfl
      | cons r rs => exact (hsched.text r).params
    have hlogits : ownLogits T base e₁ = ownLogits T base e := funext fun r => by
      rw [ownLogits, ownLogits, (hsched.text r).tokens]
    by_cases hb : b.batch = []
    · have hsl : sl = [] := List.map_eq_nil_iff.1 (hd.batch.symm.trans hb)
      subst hsl
      have hnil : e.toSample = [] := hreqs.symm
      rw [hnil]
      refine ⟨fun _ => (.ok (), e₁), ?_, fun ts _ => ⟨e₁, rfl, hinv, hsched.nextId, fun r => ?_⟩⟩
      · rw [ContinuousBatchingEngine.stepDraws, heq, sample_eq]
        exact if_pos hb
      · rw [List.zip_nil_left, show drawnFor [] r = [] from rfl, Request.emit_nil]
        exact hsched.text r
    · obtain ⟨k, hk, hend⟩ := hinv.executeDraws torch hd hsam hlen hreqs
      rw [hparams, hlogits] at hk
      refine ⟨k, ?_, fun ts hts => ?_⟩
      · rw [ContinuousBatchingEngine.stepDraws, heq]
        exact (if_neg hb).trans hk
      · obtain ⟨e', hok, hinv', hex⟩ := hend ts hts
        exact ⟨e', hok, hinv', hex.nextId.trans hsched.nextId, fun r =>
          ((hsched.text r).emit _).trans (hex.text r)⟩
  · rw [← hreqs] at hr
    obtain ⟨s, hs, rfl⟩ := List.mem_map.1 hr
    obtain ⟨hs, hsam⟩ := List.mem_filter.1 hs
    obtain ⟨hrun, hopen, -⟩ := hinv.sampled hs hsam
    rw [(hsched.text s.req).outputIds, (hsched.text s.req).done] at hopen
    exact ⟨hsched.nextId ▸ (hinv.created _).1 (by simp [hrun]), hopen⟩

/-! ### A run as turns -/

/-- What the caller of a submission asks for: tokens drawn with its parameters from the logits after its
prompt, the leading KV being supplied, up to EOS or the limit, and one in any case. -/
def Submission.session (torch : Torch R) (T : Transformer X D R) (s : Submission D R) : Session R ℕ where
  next toks := nextToken torch s.params (T.logitsAfter (baseOf s.prefixKv) toks)
  stop := isEos s.eosId
  limit := max s.maxNewTokens 1
  prompt := s.promptIds

/-- The caller of request `r`. -/
def sessionOf (torch : Torch R) (T : Transformer X D R) (subs : List (Submission D R)) (r : ℕ) :
    Session R ℕ :=
  match subs[r]? with
  | some s => s.session torch T
  | none => ⟨fun _ => .pure 0, fun _ => true, 0, []⟩

/-- The outputs of the requests. -/
def outputs (e : ContinuousBatchingEngine D R G) (r : ℕ) : List ℕ := (e.req r).outputIds

/-- **The middle of a run** that submits `subs` and has submitted `past`. -/
structure Amid (T : Transformer X D R) (subs past : List (Submission D R))
    (e : ContinuousBatchingEngine D R G) : Prop where
  inv : Inv T (basesOf subs) e [] []
  submitted : Submitted past e
  fresh : ∀ r, e.nextId ≤ r → e.outputs r = []

variable {subs past future : List (Submission D R)}

omit [LinearOrder R] in
theorem Amid.init (T : Transformer X D R) (subs : List (Submission D R)) (numBlocks : ℕ) {blockSize : ℕ}
    (hbs : 1 ≤ blockSize) (maxBatchTokens : ℕ) (chunkSize : Option ℕ) (rng : G) :
    Amid T subs [] (init T numBlocks blockSize maxBatchTokens chunkSize rng) :=
  ⟨init_inv T _ numBlocks hbs maxBatchTokens chunkSize rng, ⟨rfl, fun r s hs => by simp at hs⟩, fun _ _ => rfl⟩

omit [Field R] [LinearOrder R] in
theorem Amid.submit (h : Amid T subs past e) {s : Submission D R} (hsubs : past ++ s :: future = subs)
    (hprompt : s.promptIds ≠ []) {r : ℕ} {e' : ContinuousBatchingEngine D R G}
    (heq : e.addRequest s = (.ok r, e')) : Amid T subs (past ++ [s]) e' ∧ e'.outputs = e.outputs := by
  have hsub := (h.submitted.submit heq).1
  rcases addRequest_spec e s with ⟨msg, herr⟩ | ⟨hok, hcovers⟩
  · rw [herr] at heq
    cases heq
  obtain rfl := (Prod.mk.inj (hok.symm.trans heq)).2
  have hat : subs[e.nextId]? = some s := by
    rw [← hsubs, h.submitted.count, List.getElem?_append_right le_rfl, Nat.sub_self]
    rfl
  have hout : ∀ q : Request D R, q.outputIds = [] → ∀ r,
      (Function.update e.req e.nextId q r).outputIds = e.outputs r := fun q hq r => by
    rcases eq_or_ne r e.nextId with rfl | hne
    · rw [Function.update_self, hq, h.fresh _ le_rfl]
    · rw [Function.update_of_ne hne]
      rfl
  refine ⟨⟨h.inv.submit rfl rfl rfl hprompt (by rw [basesOf, hat]) hcovers, hsub, fun r hr => ?_⟩,
    funext (hout _ rfl)⟩
  exact (hout _ rfl r).trans (h.fresh r (Nat.le_of_succ_le hr))

omit [Field R] [LinearOrder R] in
/-- The texts after a turn. -/
theorem Amid.turn (h : Amid T subs past e) {e' : ContinuousBatchingEngine D R G} {drawn : List (ℕ × ℕ)}
    (hinv : Inv T (basesOf subs) e' [] []) (hnext : e'.nextId = e.nextId)
    (htext : ∀ r, SameText ((e.req r).emit (drawnFor drawn r)) (e'.req r))
    (hdrawn : ∀ d ∈ drawn, d.1 < e.nextId) :
    Amid T subs past e' ∧ e'.outputs = fun r => e.outputs r ++ given drawn r := by
  have hout : ∀ r, e'.outputs r = e.outputs r ++ given drawn r := fun r => (htext r).outputIds
  refine ⟨⟨hinv, ⟨hnext.trans h.submitted.count, fun r s hs => ?_⟩, fun r hr => ?_⟩, funext hout⟩
  · obtain ⟨h₁, h₂, h₃, h₄⟩ := h.submitted.text r s hs
    have htext := htext r
    exact ⟨htext.promptIds.trans h₁, htext.params.trans h₂, htext.maxNewTokens.trans h₃,
      htext.eosId.trans h₄⟩
  · rw [hout, h.fresh r (hnext ▸ hr), List.nil_append]
    refine drawnFor_of_notMem fun hm => ?_
    obtain ⟨d, hd, rfl⟩ := List.mem_map.1 hm
    exact absurd (hdrawn d hd) (not_lt.2 (hnext ▸ hr))

/-- The caller of a request that has been submitted. -/
theorem Amid.sessionOf (h : Amid T subs past e) (hsubs : past ++ future = subs) (torch : Torch R) {r : ℕ}
    (hr : r < e.nextId) : ∃ s ∈ subs, sessionOf torch T subs r = s.session torch T ∧
      basesOf subs r = baseOf s.prefixKv ∧ (e.req r).promptIds = s.promptIds ∧ (e.req r).params = s.params ∧
      (e.req r).maxNewTokens = s.maxNewTokens ∧ (e.req r).eosId = s.eosId := by
  rw [h.submitted.count] at hr
  have hpast := List.getElem?_eq_getElem hr
  have hat : subs[r]? = some past[r] := by rw [← hsubs, List.getElem?_append_left hr, hpast]
  refine ⟨past[r], List.mem_of_getElem? hat, ?_, ?_, h.submitted.text r _ hpast⟩
  · rw [ContinuousBatchingEngine.sessionOf, hat]
  · rw [basesOf, hat]

/-- **What `sample` draws is the turn** of the sampled requests, each with its own parameters. -/
theorem Amid.drawTurn (h : Amid T subs past e) (hsubs : past ++ future = subs) (torch : Torch R)
    (hagree : ∀ s ∈ subs, ∀ s' ∈ subs, Agree s.params s'.params) (hlt : ∀ r ∈ e.toSample, r < e.nextId) :
    sample torch (e.paramsOf e.toSample) (e.toSample.map (ownLogits T (basesOf subs) e)) =
      drawTurn (ContinuousBatchingEngine.sessionOf torch T subs) e.outputs e.toSample := by
  rw [sample_eq, Autoregressive.drawTurn, List.map_map]
  refine congrArg RandM.sequence (List.map_congr_left fun r hr => ?_)
  obtain ⟨s, hs, hses, hbase, hprompt, -⟩ := h.sessionOf hsubs torch (hlt r hr)
  have hfirst : Agree s.params (e.paramsOf e.toSample) := by
    cases hrs : e.toSample with
    | nil => exact absurd hr (by rw [hrs]; exact List.not_mem_nil)
    | cons first rest =>
      obtain ⟨s', hs', -, -, -, hparams, -⟩ := h.sessionOf hsubs torch (hlt first (by rw [hrs]; simp))
      rw [paramsOf, hparams]
      exact hagree s hs s' hs'
  rw [hses, Function.comp_apply, ← nextToken_agree torch hfirst, ownLogits, hbase, Request.tokens, hprompt]
  rfl

/-- A sampled request may go on. -/
theorem Amid.goesOn (h : Amid T subs past e) (hsubs : past ++ future = subs) (torch : Torch R) {r : ℕ}
    (hr : r < e.nextId) (hopen : (e.req r).outputIds = [] ∨ (e.req r).done = false) :
    (ContinuousBatchingEngine.sessionOf torch T subs r).Open (e.outputs r) := by
  obtain ⟨s, -, hses, -, -, -, hmax, heos⟩ := h.sessionOf hsubs torch hr
  rw [hses]
  rcases hopen with hnil | hdone
  · rw [outputs, hnil]
    exact ⟨Nat.lt_of_lt_of_le Nat.one_pos (le_max_right _ _), fun t ht => by cases ht⟩
  · obtain ⟨hlt, hlast⟩ := not_done hdone
    rw [hmax] at hlt
    rw [heos] at hlast
    refine ⟨lt_max_of_lt_left hlt, fun t ht => ?_⟩
    obtain ⟨l, hl⟩ := List.getLast?_eq_some_iff.1 ht
    exact hlast l t hl

/-- **A run serves its callers in turns.**  By induction on its calls. -/
theorem Amid.interleaves (torch : Torch R) (h : Amid T subs past e) {cs : List (Call D R)}
    (hsubs : past ++ submissions cs = subs) (hprompt : ∀ s ∈ subs, s.promptIds ≠ [])
    (hagree : ∀ s ∈ subs, ∀ s' ∈ subs, Agree s.params s'.params) :
    Interleaves (ContinuousBatchingEngine.sessionOf torch T subs) (List.range subs.length) e.outputs
      ((callsDraws torch T.runner e cs).map fun res => res.2.outputs) := by
  induction cs generalizing past e with
  | nil => exact .stop _
  | cons c cs ih =>
    cases c with
    | addRequest s =>
      rw [callsDraws]
      rcases hres : e.addRequest s with ⟨x | r, e₁⟩
      · rcases addRequest_spec e s with ⟨msg, herr⟩ | ⟨hok, -⟩
        · obtain rfl := (Prod.mk.inj (herr.symm.trans hres)).2
          exact .stop _
        · rw [hok] at hres
          cases hres
      · rw [submissions] at hsubs
        have hs : s ∈ subs := by
          rw [← hsubs]
          simp
        obtain ⟨h₁, hout⟩ := h.submit hsubs (hprompt s hs) hres
        rw [← hout]
        exact ih h₁ (by rw [← hsubs, List.append_assoc]; rfl)
    | step =>
      rw [callsDraws]
      rcases h.inv.stepDraws torch with ⟨x, e₁, heq, htext⟩ | ⟨⟨k, heq, hend⟩, hnodup, hmay⟩
      · rw [heq, show e.outputs = e₁.outputs from funext fun r => (htext r).outputIds.symm]
        exact .stop _
      · have hlt : ∀ r ∈ e.toSample, r < e.nextId := fun r hr => (hmay r hr).1
        have hcount : e.nextId ≤ subs.length := by
          rw [h.submitted.count, ← hsubs, List.length_append]
          exact Nat.le_add_right _ _
        rw [heq, h.drawTurn hsubs torch hagree hlt, RandM.map_bind, RandM.bind_map]
        refine .turn _ _ _ hnodup (fun r hr => ⟨List.mem_range.2 ((hlt r hr).trans_le hcount),
          h.goesOn hsubs torch (hlt r hr) (hmay r hr).2⟩) fun ts hts => ?_
        obtain ⟨e₁, hok, hinv, hnext, htext⟩ := hend ts hts
        obtain ⟨h₁, hout⟩ := h.turn hinv hnext htext fun d hd => hlt _ (List.of_mem_zip hd).1
        have hrest := ih h₁ hsubs
        rw [hout] at hrest
        rw [hok]
        exact hrest

/-- Drawing a token draws an index. -/
theorem indexed_sessionOf (torch : Torch R) (T : Transformer X D R) (subs : List (Submission D R)) (r : ℕ)
    (toks : List ℕ) : ((ContinuousBatchingEngine.sessionOf torch T subs r).next toks).Indexed := by
  unfold ContinuousBatchingEngine.sessionOf
  split
  next s _ =>
    show (nextToken torch s.params _).Indexed
    unfold nextToken
    split
    · trivial
    · exact fun _ => trivial
  next => trivial

/-- The callers in the order of their requests. -/
theorem map_sessionOf {β : Type} (torch : Torch R) (T : Transformer X D R) (subs : List (Submission D R))
    (f : Session R ℕ → β) :
    (List.range subs.length).map (fun r => f (ContinuousBatchingEngine.sessionOf torch T subs r)) =
      subs.map fun s => f (s.session torch T) := by
  refine List.ext_getElem (by simp) fun r hr hr' => ?_
  rw [List.getElem_map, List.getElem_map, List.getElem_range, ContinuousBatchingEngine.sessionOf,
    List.getElem?_eq_getElem (by simpa using hr')]

/-- A finished request may not go on. -/
theorem After.not_open {numBlocks blockSize : ℕ} (h : After T numBlocks blockSize subs e)
    (torch : Torch R) {r : ℕ} (hr : r < subs.length) (hfin : r ∈ e.finished) :
    ¬(ContinuousBatchingEngine.sessionOf torch T subs r).Open (e.outputs r) := by
  have hat := List.getElem?_eq_getElem hr
  obtain ⟨-, -, hmax, heos⟩ := h.submitted r _ hat
  obtain ⟨-, hdone, hne⟩ := (h.invOf.each r).finished hfin
  rw [ContinuousBatchingEngine.sessionOf, hat]
  rintro ⟨hlt, hlast⟩
  have hlt : (e.req r).outputIds.length < max subs[r].maxNewTokens 1 := hlt
  have hpos := List.length_pos_iff.2 hne
  rw [Request.done, Bool.or_eq_true, decide_eq_true_eq, hmax] at hdone
  rcases hdone with hlen | hstop
  · omega
  · cases hg : (e.req r).outputIds.getLast? with
    | none => exact hne (List.getLast?_eq_none_iff.1 hg)
    | some t =>
      rw [hg, heos] at hstop
      have hstop : isEos subs[r].eosId t = true := hstop
      exact absurd (hlast t hg) (by rw [show (subs[r].session torch T).stop t = true from hstop]; simp)

end

end ContinuousBatchingEngine

open ContinuousBatchingEngine

/-- **Continuous batching keeps the joint law.**  Take any calls whose prompts are not empty and whose
requests sample with one set of parameters.  There is one program that the run of the calls is, whatever
the generator; and wherever the run stops, when every request has then gone on alone the outputs are
distributed independently, each as its request alone.  Where the calls finish every request, whatever is
drawn, that is the law of the outputs of the run.  A request without supplied KV alone is what
`LLMEngine.generate` draws for it. -/
theorem sampled_as_if_alone {κ X D : Type} [Zero D] [Add X] [DecidableEq κ] (T : Transformer X D ℝ)
    (torch : Torch ℝ) (H : RollingHash κ) {numBlocks blockSize : ℕ} (hbs : 1 ≤ blockSize)
    (maxBatchTokens : ℕ) (chunkSize : Option ℕ) (cs : List (Call D ℝ))
    (hprompt : ∀ s ∈ submissions cs, s.promptIds ≠ [])
    (hagree : ∀ s ∈ submissions cs, ∀ s' ∈ submissions cs, Agree s.params s'.params) :
    let subs := submissions cs
    let alone := RandM.sequence (subs.map fun s => (s.session torch T).alone)
    ∃ x : RandM ℝ (Except Exc Unit × ContinuousBatchingEngine D ℝ Unit),
      (∀ {G : Type} (src : Source ℝ G) (rng : G),
        calls torch src T.runner (init T numBlocks blockSize maxBatchTokens chunkSize rng) cs =
          (x.run src rng).1.1.map fun _ => (x.run src rng).1.2.dressed [] (x.run src rng).2) ∧
      (∀ f, (x.expect fun res =>
          (finishAll (sessionOf torch T subs) res.2.outputs (List.range subs.length)).expect f) =
        alone.expect f) ∧
      ((∀ (G : Type) (src : Source ℝ G) (rng : G), src.InRange → ∃ e,
          calls torch src T.runner (init T numBlocks blockSize maxBatchTokens chunkSize rng) cs = .ok e ∧
            ∀ r < subs.length, r ∈ e.finished) →
        ∀ f, (x.expect fun res => f ((List.range subs.length).map res.2.outputs)) = alone.expect f) ∧
      ∀ s ∈ subs, s.prefixKv = none →
        (BlockManager.init numBlocks blockSize).blocksNeeded
          (s.promptIds.length + max s.maxNewTokens 1 - 1) ≤ numBlocks →
        ∀ {G : Type} (src : Source ℝ G) (l : LLMEngine κ D),
          LLMEngine.Served H torch src T.runner (.init T numBlocks blockSize false) l → ∀ g seqId,
            (l.generate H torch src T.runner g seqId s.promptIds s.maxNewTokens s.params s.eosId).1 =
              .ok ((s.session torch T).alone.run src g).1 := by
  intro subs alone
  set e₀ : ContinuousBatchingEngine D ℝ Unit := init T numBlocks blockSize maxBatchTokens chunkSize ()
  have hturns : Interleaves (sessionOf torch T subs) (List.range subs.length) (fun _ => [])
      ((callsDraws torch T.runner e₀ cs).map fun res => res.2.outputs) :=
    (Amid.init T subs numBlocks hbs maxBatchTokens chunkSize ()).interleaves torch (List.nil_append _) hprompt
      hagree
  have halone : alone = RandM.sequence ((List.range subs.length).map fun r =>
      (sessionOf torch T subs r).alone) := by
    rw [map_sessionOf torch T subs Session.alone]
  have hdraws := indexed_sessionOf torch T subs
  have hn : (List.range subs.length).Nodup := List.nodup_range
  refine ⟨callsDraws torch T.runner e₀ cs, fun {G} src rng => calls_run [] rng e₀ torch src T.runner cs,
    fun f => ?_, fun hend f => ?_, fun s hs hkv hfits {G} src l hl g seqId => ?_⟩
  · have hlaw := hturns.law hdraws hn f
    rw [RandM.expect_map] at hlaw
    rw [hlaw, halone, ← finishAll_nil]
  · have hserved := Interleaves.law_served hturns hdraws hn (fun G src rng hsrc r hr => ?_) f
    · rw [RandM.expect_map] at hserved
      rw [hserved, halone]
    obtain ⟨e, he, hfin⟩ := hend G src rng hsrc
    have hafter := (After.init T numBlocks hbs maxBatchTokens chunkSize rng).run hprompt he
    rw [List.nil_append] at hafter
    have hr := List.mem_range.1 hr
    have hnot := hafter.not_open torch hr (hfin r hr)
    rw [show init T numBlocks blockSize maxBatchTokens chunkSize rng = e₀.dressed [] rng from rfl,
      calls_run] at he
    rw [RandM.run_map]
    rcases hres : ((callsDraws torch T.runner e₀ cs).run src rng).1.1 with x | ⟨⟩
    · rw [hres] at he
      cases he
    · rw [hres] at he
      obtain rfl := Except.ok.inj he
      exact hnot
  · rw [hl.generate_alone torch src T H hbs (hprompt s hs) hfits]
    rw [Session.alone, Submission.session, hkv]
    rfl

/-- `sumModel` with real logits. -/
def realModel : Transformer ℤ ℤ ℝ :=
  { sumModel with lmHead := fun x => (sumModel.lmHead x).map fun a => (a : ℝ) }

/-- Two requests at temperature one that ask for one token each, and the step that serves them. -/
noncomputable def twoSubmissions : List (Submission ℤ ℝ) :=
  [⟨[0, 1], 1, ⟨1, 1, 2⟩, none, 0, none⟩, ⟨[1], 1, ⟨1, 1, 2⟩, some 1, 0, none⟩]

/-- The engine they wait in. -/
noncomputable def twoWaiting {G : Type} (rng : G) : ContinuousBatchingEngine ℤ ℝ G :=
  twoSubmissions.foldl (fun e s => (e.addRequest s).2) (init realModel 8 2 8 none rng)

/-- Whatever is drawn, the step finishes both. -/
theorem twoWaiting_finish (torch : Torch ℝ) {G : Type} (src : Source ℝ G) (rng : G) :
    ∃ e, calls torch src realModel.runner (init realModel 8 2 8 none rng)
        (twoSubmissions.map .addRequest ++ [.step]) = .ok e ∧ ∀ r < 2, r ∈ e.finished := by
  have hwait : calls torch src realModel.runner (init realModel 8 2 8 none rng)
      (twoSubmissions.map .addRequest) = .ok (twoWaiting rng) := rfl
  have hafter := (After.init realModel 8 (show 1 ≤ 2 by decide) 8 none rng).run
    (by simp [twoSubmissions, submissions]) hwait
  have hsample : (twoWaiting rng).toSample = [0, 1] := by
    show (twoWaiting ()).toSample = [0, 1]
    decide +kernel
  rcases step_spec torch src hafter.invOf with ⟨hshort, -⟩ | ⟨-, e₁, b, sl, e', hst⟩
  · exact absurd hshort (by simp [decoding, show (twoWaiting rng).running = [] from rfl])
  refine ⟨e', by rw [calls_append, hwait]; exact calls_step (congrArg Prod.fst hst.step) [] |>.trans (by
    rw [hst.step]; rfl), fun r hr => ?_⟩
  have hlen : (e'.req r).outputIds.length = 1 := by
    obtain ⟨t₀, t₁, hts⟩ := List.length_eq_two.1 ((length_drawRows torch src realModel _ (twoWaiting rng)
      (twoWaiting rng).toSample).trans (congrArg List.length hsample))
    rw [(hst.text r).outputIds, hts, hsample]
    interval_cases r <;> rfl
  have hdone : (e'.req r).done = true := by
    rw [Request.done, hlen, (hst.text r).maxNewTokens]
    interval_cases r <;> rfl
  have hne : (e'.req r).outputIds ≠ [] := fun h => by simp [h] at hlen
  have hr' := (hst.inv.created r).2 (hst.nextId ▸ hr)
  have heach := hst.inv.each r
  simp only [List.mem_append] at hr'
  rcases hr' with ((hw | hp) | hrun) | hfin
  · exact absurd (heach.waiting hw).outputIds hne
  · exact absurd (heach.prefilling hp).outputIds hne
  · rcases ((heach.running hrun).live List.not_mem_nil).2 with hnil | hopen
    · exact absurd hnil hne
    · exact absurd hdone (by simp [hopen])
  · exact hfin

/-- The hypotheses are satisfiable, and the calls may finish every request whatever is drawn: here both
outputs are drawn independently, each as if its request had been alone. -/
theorem sampled_as_if_alone_two :
    let torch : Torch ℝ := ⟨Real.exp, stableSort⟩
    let cs : List (Call ℤ ℝ) := twoSubmissions.map .addRequest ++ [.step]
    ∃ x : RandM ℝ (Except Exc Unit × ContinuousBatchingEngine ℤ ℝ Unit),
      (∀ {G : Type} (src : Source ℝ G) (rng : G),
        calls torch src realModel.runner (init realModel 8 2 8 none rng) cs =
          (x.run src rng).1.1.map fun _ => (x.run src rng).1.2.dressed [] (x.run src rng).2) ∧
      ∀ f, (x.expect fun res => f [res.2.outputs 0, res.2.outputs 1]) =
        (RandM.sequence (twoSubmissions.map fun s => (s.session torch realModel).alone)).expect f := by
  intro torch cs
  have hsubs : submissions cs = twoSubmissions := rfl
  obtain ⟨x, hx, -, hend, -⟩ := @sampled_as_if_alone _ _ _ _ _ _ realModel torch listHash 8 2
    (by decide) 8 none cs (by simp [hsubs, twoSubmissions]) (by simp [hsubs, twoSubmissions, Agree])
  exact ⟨x, hx, hend fun G src rng _ => twoWaiting_finish torch src rng⟩

end DiSpec
