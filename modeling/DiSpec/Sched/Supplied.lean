/-
# A supplied prefix is as good as prefilling

A request may be submitted with the KV of the first tokens of its prompt (`prefix_kv`).  If
that is the model's own KV (`OwnKV`), the greedy continuation is the one without it
(`greedy_supplied`), so a greedy request has the same output, provided that every step that
samples for it samples a greedy request first: all rows of a step are sampled with the
parameters of the first one.

Whoever shares the batches, a request prefills its prompt but for the supplied tokens; an
admission writes the pool in the blocks of its own request only; and a submission whose KV
is not accepted leaves the engine as it was.
-/

import DiSpec.Sched.Prefilled
import DiSpec.Sched.Progress
import DiSpec.Sched.Sampled

namespace DiSpec

variable {X D R G : Type}

/-- The supplied KV is the model's own for the first tokens of the prompt. -/
def OwnKV [Zero D] [Add X] (T : Transformer X D R) (promptIds : List ℕ) (k v : KVTensor D) : Prop :=
  ∀ i < T.numLayers, ∀ p < k.tokens, (⟨k.rows i p, v.rows i p⟩ : KV D) = T.kvAt noBase (str promptIds) i p

/-- The model's own KV of the first `n` tokens of a prompt, in the layout of its cache. -/
def ownPrefix [Zero D] [Add X] (T : Transformer X D R) (promptIds : List ℕ) (n : ℕ) :
    KVTensor D × KVTensor D :=
  (⟨T.numLayers, n, T.numKvHeads, T.headDim, fun i p => (T.kvAt noBase (str promptIds) i p).key⟩,
    ⟨T.numLayers, n, T.numKvHeads, T.headDim, fun i p => (T.kvAt noBase (str promptIds) i p).value⟩)

theorem ownKV_ownPrefix [Zero D] [Add X] (T : Transformer X D R) (promptIds : List ℕ) (n : ℕ) :
    OwnKV T promptIds (ownPrefix T promptIds n).1 (ownPrefix T promptIds n).2 := fun _ _ _ _ => rfl

namespace ContinuousBatchingEngine

section

variable [Zero D] [Add X] [LinearOrder R] {T : Transformer X D R} {promptIds : List ℕ} {k v : KVTensor D}

/-- The model's own KV does not change the next token. -/
theorem greedyNext_supplied (h : OwnKV T promptIds k v) (hcover : k.tokens < promptIds.length)
    (out : List ℕ) :
    greedyNext T (baseOf (some (k, v))) (promptIds ++ out) = greedyNext T noBase (promptIds ++ out) := by
  rw [greedyNext, greedyNext, T.logitsAfter_own fun i hi p kv hkv => ?_]
  rw [baseOf] at hkv
  simp only at hkv
  split at hkv
  next hp =>
    obtain rfl := Option.some.inj hkv
    rw [h i hi p hp]
    exact T.kvAt_congr noBase i fun j hj => (str_append_of_lt out (by omega)).symm
  next => cases hkv

/-- **The greedy continuation is the one without the supplied KV.** -/
theorem greedy_supplied (h : OwnKV T promptIds k v) (hcover : k.tokens < promptIds.length)
    (stop : ℕ → Bool) (n : ℕ) :
    Autoregressive.greedy (greedyNext T (baseOf (some (k, v)))) stop n promptIds =
      Autoregressive.greedy (greedyNext T noBase) stop n promptIds :=
  Autoregressive.greedy_congr stop n (greedyNext_supplied h hcover)

end

/-! ### Admission and rejection -/

variable {e e' : ContinuousBatchingEngine D R G}

/-- **An import writes the blocks of its own request only**, in any state. -/
theorem importPrefix_frame (e : ContinuousBatchingEngine D R G) (b : Batch) (r i sl : ℕ) {t : BlockTable}
    (hbs : 0 < e.cache.blockSize) (ht : e.cache.manager.tables.lookup r = some t)
    (h : (e.importPrefix b r t).2.1.cache.pool i sl ≠ e.cache.pool i sl) :
    sl / e.cache.blockSize ∈ t.blockIds ∧
      ∃ t', (e.importPrefix b r t).2.1.cache.manager.tables.lookup r = some t' ∧
        t'.blockIds = t.blockIds := by
  rw [importPrefix] at h ⊢
  cases hkv : (e.req r).prefixKv with
  | none =>
    rw [hkv] at h
    exact absurd rfl h
  | some kv =>
    obtain ⟨k, v⟩ := kv
    rw [hkv] at h
    simp only at h ⊢
    have hframe := e.cache.importContiguous_div_mem hbs t.blockIds k v i sl
    have hm := e.cache.importContiguous_manager t.blockIds k v
    rcases himp : e.cache.importContiguous t.blockIds k v with ⟨x | ⟨⟩, c⟩
    · rw [himp] at h hframe hm
      exact ⟨hframe h, t, (congrArg (fun m => m.tables.lookup r) hm).trans ht, rfl⟩
    · rw [himp] at h hframe
      exact ⟨hframe h, _, AList.lookup_insert _, rfl⟩

/-- **An admission writes the blocks of its own request only**, in any state. -/
theorem admitRequest_frame (e : ContinuousBatchingEngine D R G) (b : Batch) (r i sl : ℕ)
    (hbs : 0 < e.cache.blockSize) (h : (e.admitRequest b r).2.1.cache.pool i sl ≠ e.cache.pool i sl) :
    ∃ t, (e.admitRequest b r).2.1.cache.manager.tables.lookup r = some t ∧
      sl / e.cache.blockSize ∈ t.blockIds := by
  rw [admitRequest] at h ⊢
  by_cases hstate : (e.req r).state ≠ .WAITING
  · rw [if_pos hstate] at h
    exact absurd rfl h
  rw [if_neg hstate] at h ⊢
  rcases e.cache.manager.allocate_cases r (e.req r).promptIds.length with
    ⟨msg, halloc⟩ | ⟨-, msg, halloc⟩ | ⟨ids, m, halloc, htouch, -⟩
  · simp only [halloc] at h
    exact absurd rfl h
  · simp only [halloc] at h
    exact absurd rfl h
  · simp only [halloc] at h ⊢
    set e₁ : ContinuousBatchingEngine D R G := e.setManager (m.setTable r ⟨ids, 0⟩)
    have hsize : e₁.cache.blockSize = e.cache.blockSize := htouch.blockSize
    have hlook : e₁.cache.manager.tables.lookup r = some ⟨ids, 0⟩ := AList.lookup_insert _
    have hframe := importPrefix_frame e₁ b r i sl (hsize ▸ hbs) hlook
    rw [hsize] at hframe
    rcases himp : e₁.importPrefix b r ⟨ids, 0⟩ with ⟨x | ⟨⟩, e₂, b₂⟩
    · rw [himp] at h hframe
      obtain ⟨hmem, t, ht, hids⟩ := hframe h
      exact ⟨t, ht, hids ▸ hmem⟩
    · rw [himp] at h hframe
      simp only at h hframe ⊢
      cases hrem : remove e₂.waiting r with
      | error x =>
        simp only [setReq, hrem] at h ⊢
        obtain ⟨hmem, t, ht, hids⟩ := hframe h
        exact ⟨t, ht, hids ▸ hmem⟩
      | ok waiting =>
        simp only [setReq, hrem] at h ⊢
        obtain ⟨hmem, t, ht, hids⟩ := hframe h
        exact ⟨t, ht, hids ▸ hmem⟩

/-- **KV of the wrong shape or length is rejected**, and nothing changes. -/
theorem addRequest_rejects (e : ContinuousBatchingEngine D R G) {s : Submission D R} {k v : KVTensor D}
    (hkv : s.prefixKv = some (k, v))
    (h : (k.layers, k.heads, k.headDim) ≠ (e.cache.numLayers, e.cache.numKvHeads, e.cache.headDim) ∨
      (v.layers, v.tokens, v.heads, v.headDim) ≠
        (e.cache.numLayers, k.tokens, e.cache.numKvHeads, e.cache.headDim) ∨
      k.tokens = 0 ∨ s.promptIds.length ≤ k.tokens) :
    ∃ msg, e.addRequest s = (.error (.ValueError msg), e) := by
  unfold addRequest
  simp only [hkv, checkPrefixKv]
  by_cases hshape : (k.layers, k.heads, k.headDim) =
        (e.cache.numLayers, e.cache.numKvHeads, e.cache.headDim) ∧
      (v.layers, v.tokens, v.heads, v.headDim) =
        (e.cache.numLayers, k.tokens, e.cache.numKvHeads, e.cache.headDim)
  · have hcover : ¬(0 < k.tokens ∧ k.tokens < s.promptIds.length) := by
      rcases h with h | h | h | h
      · exact absurd hshape.1 h
      · exact absurd hshape.2 h
      · omega
      · omega
    rw [if_neg (not_not.2 hshape), if_pos hcover]
    exact ⟨_, rfl⟩
  · rw [if_pos hshape]
    exact ⟨_, rfl⟩

/-- A submission that raises leaves the engine as it was. -/
theorem addRequest_raises {s : Submission D R} {x : Exc} (h : e.addRequest s = (.error x, e')) : e' = e := by
  rcases addRequest_spec e s with ⟨msg, herr⟩ | ⟨hok, -⟩
  · exact (Prod.mk.inj (h.symm.trans herr)).2
  · rw [hok] at h
    cases h

variable [Field R] [LinearOrder R] {torch : Torch R} {src : Source R G} {runner : ModelRunner X D R}

/-- What a run submits has KV of fewer tokens than its prompt. -/
theorem covers_of_calls {cs : List (Call D R)} (hrun : calls torch src runner e cs = .ok e') :
    ∀ s ∈ submissions cs, ∀ k v, s.prefixKv = some (k, v) → k.tokens < s.promptIds.length := by
  have hall := calls_induction
    (P := fun subs _ _ => ∀ s ∈ subs, ∀ k v, s.prefixKv = some (k, v) → k.tokens < s.promptIds.length)
    (Q := fun _ => True) (S := fun _ => True) [] [] ?_ (fun _ _ _ _ h _ _ => h)
    (fun s hs => absurd hs List.not_mem_nil) (fun _ _ => trivial) (fun _ _ _ _ _ => trivial) hrun
  · rwa [List.nil_append] at hall
  · intro subs hist e s r e' hsubs _ heq s' hs'
    rcases addRequest_spec e s with ⟨msg, herr⟩ | ⟨-, hcovers⟩
    · rw [herr] at heq
      cases heq
    · rcases List.mem_append.1 hs' with hs' | hs'
      · exact hsubs s' hs'
      · rw [List.mem_singleton.1 hs']
        exact fun k v hkv => (hcovers k v hkv).2.2

end ContinuousBatchingEngine

open ContinuousBatchingEngine

variable [Zero D] [Add X] [Field R] [LinearOrder R]

/-- **The output with the supplied KV** is the output of the same request without it, in any other run. -/
theorem output_supplied {torch : Torch R} {src src' : Source R G} {T : Transformer X D R}
    {numBlocks blockSize numBlocks' blockSize' : ℕ} (hbs : 1 ≤ blockSize) (hbs' : 1 ≤ blockSize')
    {maxBatchTokens maxBatchTokens' : ℕ} {chunkSize chunkSize' : Option ℕ} {rng rng' : G}
    {cs cs' : List (Call D R)} {e e' : ContinuousBatchingEngine D R G} {r r' : ℕ} {s : Submission D R}
    {k v : KVTensor D} (hkv : s.prefixKv = some (k, v)) (hown : OwnKV T s.promptIds k v)
    (hcover : k.tokens < s.promptIds.length)
    (hprompt : ∀ s ∈ submissions cs, s.promptIds ≠ []) (hprompt' : ∀ s ∈ submissions cs', s.promptIds ≠ [])
    (hfirst : BeforeSteps torch src T.runner (init T numBlocks blockSize maxBatchTokens chunkSize rng) cs
      (GreedyFor r))
    (hfirst' : BeforeSteps torch src' T.runner
      (init T numBlocks' blockSize' maxBatchTokens' chunkSize' rng') cs' (GreedyFor r'))
    (hrun : calls torch src T.runner (init T numBlocks blockSize maxBatchTokens chunkSize rng) cs = .ok e)
    (hrun' : calls torch src' T.runner (init T numBlocks' blockSize' maxBatchTokens' chunkSize' rng') cs' =
      .ok e')
    (hs : (submissions cs)[r]? = some s) (hs' : (submissions cs')[r']? = some { s with prefixKv := none })
    (hfin : r ∈ e.finished) (hfin' : r' ∈ e'.finished) : (e'.req r').outputIds = (e.req r).outputIds := by
  obtain ⟨hafter, hout⟩ := greedySoFar_of_run hbs hprompt hfirst hrun
  obtain ⟨hafter', hout'⟩ := greedySoFar_of_run hbs' hprompt' hfirst' hrun'
  rw [greedy_of_finished hafter hs hfin (hout s hs),
    greedy_of_finished hafter' hs' hfin' (hout' _ hs'), hkv, greedy_supplied hown hcover]
  rfl

/-- **A supplied prefix is as good as prefilling**, for a request whose steps all sample a greedy
request first.  Its output is that of the same request without the KV, in any other
run, and no request is unfinished when there is no work.  In every run it prefills the rest
of its prompt, all requests together what `num_prefill_tokens` counts; an admission writes
blocks of its own request only; KV of the wrong shape or length is rejected, and a rejected
submission leaves the engine, so the next id too, as it was. -/
theorem supplied_prefix_as_prefilled (torch : Torch R) (src : Source R G) (T : Transformer X D R)
    {numBlocks blockSize : ℕ} (hbs : 1 ≤ blockSize) (maxBatchTokens : ℕ) (chunkSize : Option ℕ) (rng : G)
    (cs : List (Call D R)) {e : ContinuousBatchingEngine D R G}
    (hrun : calls torch src T.runner (init T numBlocks blockSize maxBatchTokens chunkSize rng) cs = .ok e)
    {r : ℕ} {s : Submission D R} {k v : KVTensor D} (hs : (submissions cs)[r]? = some s)
    (hkv : s.prefixKv = some (k, v)) (hown : OwnKV T s.promptIds k v) :
    let e₀ := init T numBlocks blockSize maxBatchTokens chunkSize rng
    ((∀ s ∈ submissions cs, s.promptIds ≠ []) → BeforeSteps torch src T.runner e₀ cs (GreedyFor r) →
      (e.hasWork = false → r ∈ e.finished) ∧
      ∀ (src' : Source R G) (numBlocks' blockSize' maxBatchTokens' : ℕ) (chunkSize' : Option ℕ) (rng' : G)
        (cs' : List (Call D R)) (e' : ContinuousBatchingEngine D R G) (r' : ℕ),
        let e₀' := init T numBlocks' blockSize' maxBatchTokens' chunkSize' rng'
        1 ≤ blockSize' → (∀ s ∈ submissions cs', s.promptIds ≠ []) →
        BeforeSteps torch src' T.runner e₀' cs' (GreedyFor r') →
        calls torch src' T.runner e₀' cs' = .ok e' →
        (submissions cs')[r']? = some { s with prefixKv := none } → r ∈ e.finished → r' ∈ e'.finished →
        (e'.req r').outputIds = (e.req r).outputIds) ∧
    (e.numPrefillTokens = ∑ r ∈ Finset.range e.nextId, prefilled torch src T.runner e₀ cs r ∧
      (r ∈ e.running ∨ r ∈ e.finished →
        prefilled torch src T.runner e₀ cs r = s.promptIds.length - k.tokens)) ∧
    (∀ (e : ContinuousBatchingEngine D R G) b r i sl, 0 < e.cache.blockSize →
      (e.admitRequest b r).2.1.cache.pool i sl ≠ e.cache.pool i sl →
      ∃ t, (e.admitRequest b r).2.1.cache.manager.tables.lookup r = some t ∧
        sl / e.cache.blockSize ∈ t.blockIds) ∧
    (∀ (e : ContinuousBatchingEngine D R G) (s : Submission D R) k v, s.prefixKv = some (k, v) →
      ((k.layers, k.heads, k.headDim) ≠ (e.cache.numLayers, e.cache.numKvHeads, e.cache.headDim) ∨
        (v.layers, v.tokens, v.heads, v.headDim) ≠
          (e.cache.numLayers, k.tokens, e.cache.numKvHeads, e.cache.headDim) ∨
        k.tokens = 0 ∨ s.promptIds.length ≤ k.tokens) →
      ∃ msg, e.addRequest s = (.error (.ValueError msg), e)) ∧
    ∀ (e e' : ContinuousBatchingEngine D R G) s x, e.addRequest s = (.error x, e') → e' = e := by
  intro e₀
  have hcover : k.tokens < s.promptIds.length := covers_of_calls hrun s (List.mem_of_getElem? hs) k v hkv
  refine ⟨fun hprompt hfirst => ?_, ?_, fun e b r i sl hbs h => e.admitRequest_frame b r i sl hbs h,
    fun e s k v hkv h => e.addRequest_rejects hkv h, fun e e' s x h => addRequest_raises h⟩
  · obtain ⟨hafter, -⟩ := greedySoFar_of_run hbs hprompt hfirst hrun
    constructor
    · intro hwork
      have hlt : r < e.nextId := by
        rw [hafter.count]
        exact (List.getElem?_eq_some_iff.1 hs).1
      have hnil : e.queued = [] := by
        by_contra hne
        rw [hasWork_iff.2 hne] at hwork
        cases hwork
      have hin : r ∈ e.queued ++ e.finished := (hafter.invOf.created r).2 hlt
      rwa [hnil, List.nil_append] at hin
    · intro src' numBlocks' blockSize' maxBatchTokens' chunkSize' rng' cs' e' r' e₀' hbs' hprompt' hfirst'
        hrun' hs' hfin hfin'
      exact output_supplied hbs hbs' hkv hown hcover hprompt hprompt' hfirst hfirst' hrun hrun' hs hs' hfin
        hfin'
  · have h₀ : Prefilled [] (fun _ => 0) e₀ :=
      ⟨init_queues T numBlocks blockSize maxBatchTokens chunkSize rng, ⟨rfl, fun r s hs => by simp at hs⟩,
        fun r s hs => by simp at hs, rfl, fun _ _ => rfl⟩
    have h := h₀.run cs hrun
    simp only [List.nil_append, Nat.zero_add] at h
    refine ⟨h.numPrefillTokens, fun hr => ?_⟩
    have hprog := h.progress r s hs
    have hend : e.progress r = (e.req r).promptIds.length := by
      rw [progress, if_neg, if_neg]
      · intro hp
        have := not_mem_of_prefilling h.queues.nodup hp
        tauto
      · intro hw
        have := not_mem_of_waiting h.queues.nodup hw
        tauto
    rw [hend, (h.submitted.text r s hs).1, hkv] at hprog
    have hprog : s.promptIds.length = k.tokens + _ := hprog
    omega

/-- **The KV of the first token changes the output of a greedy request.**  In both runs request `1`
is greedy and the KV is the model's own.  Without it the request is sampled alone in the
second step and gets the argmax; with it the request joins the first step, where the
temperature of request `0` counts for both. -/
theorem supplied_prefix_perturbed :
    let torch : Torch ℚ := ⟨fun x => 1 + x, fun _ => []⟩
    let src : Source ℚ Unit := ⟨fun g => (0, g), fun _ g => (1, g)⟩
    let e₀ : ContinuousBatchingEngine ℤ ℚ Unit := init sumModel 8 2 8 (some 1) ()
    let kv := ownPrefix sumModel [1, 1] 1
    let cs (prefixKv : Option (KVTensor ℤ × KVTensor ℤ)) : List (Call ℤ ℚ) :=
      [.addRequest ⟨[0], 1, ⟨1, 1, 0⟩, none, 0, none⟩, .addRequest ⟨[1, 1], 1, .default, none, 0, prefixKv⟩,
        .step, .step]
    OwnKV sumModel [1, 1] kv.1 kv.2 ∧ (SamplingParams.default : SamplingParams ℚ).greedy = true ∧
      (calls torch src sumModel.runner e₀ (cs none)).map collectOutputs = .ok [(0, [1]), (1, [0])] ∧
      (calls torch src sumModel.runner e₀ (cs (some kv))).map collectOutputs = .ok [(0, [1]), (1, [1])] :=
  ⟨ownKV_ownPrefix sumModel [1, 1] 1, by decide +kernel, by decide +kernel, by decide +kernel⟩

/-- The hypotheses are satisfiable: a prompt of five tokens with the KV of the first three, one and
a half blocks, and behind a longer request the whole prompt in chunks of two. -/
theorem supplied_prefix_as_prefilled_resumed :
    let torch : Torch ℚ := ⟨fun x => 1 + x, fun _ => []⟩
    let src : Source ℚ Unit := ⟨fun g => (0, g), fun _ g => (1, g)⟩
    let prompt := [2, 1, 0, 1, 1]
    let kv := ownPrefix sumModel prompt 3
    let e₀ : ContinuousBatchingEngine ℤ ℚ Unit := init sumModel 8 2 8 none ()
    let e₁ := (e₀.addRequest ⟨prompt, 1, .default, none, 0, some kv⟩).2
    let e := (e₁.step torch src sumModel.runner).2
    let e₀' : ContinuousBatchingEngine ℤ ℚ Unit := init sumModel 8 2 8 (some 2) ()
    let e₁' := (e₀'.addRequest ⟨[0, 2], 3, .default, none, 0, none⟩).2
    let e₂' := (e₁'.addRequest ⟨prompt, 1, .default, none, 0, none⟩).2
    let e₃' := ((e₂'.step torch src sumModel.runner).2.step torch src sumModel.runner).2
    let e' := (e₃'.step torch src sumModel.runner).2
    (e'.req 1).outputIds = (e.req 0).outputIds ∧ e.numPrefillTokens = 2 := by
  intro torch src prompt kv e₀ e₁ e e₀' e₁' e₂' e₃' e'
  have hrun : calls torch src sumModel.runner e₀
      [.addRequest ⟨prompt, 1, .default, none, 0, some kv⟩, .step] = .ok e :=
    (calls_addRequest (r := 0) (by decide +kernel) _).trans (calls_step (by decide +kernel) _)
  have hrun' : calls torch src sumModel.runner e₀' [.addRequest ⟨[0, 2], 3, .default, none, 0, none⟩,
      .addRequest ⟨prompt, 1, .default, none, 0, none⟩, .step, .step, .step] = .ok e' :=
    (calls_addRequest (r := 0) (by decide +kernel) _).trans
      ((calls_addRequest (r := 1) (by decide +kernel) _).trans ((calls_step (by decide +kernel) _).trans
        ((calls_step (by decide +kernel) _).trans (calls_step (by decide +kernel) _))))
  have h := supplied_prefix_as_prefilled torch src sumModel (by decide) 8 none () _ hrun (r := 0) rfl rfl
    (ownKV_ownPrefix sumModel prompt 3)
  have hgreedy : BeforeSteps torch src sumModel.runner e₀
      [.addRequest ⟨prompt, 1, .default, none, 0, some kv⟩, .step] (GreedyFor 0) :=
    greedyFor_of_agreeing (by decide) (by simp [submissions, prompt])
      (agreeing_of_greedy (by decide) (by simp [submissions, prompt]) (by decide +kernel)) (r := 0) rfl
      (by decide +kernel)
  have hgreedy' : BeforeSteps torch src sumModel.runner e₀' [.addRequest ⟨[0, 2], 3, .default, none, 0, none⟩,
      .addRequest ⟨prompt, 1, .default, none, 0, none⟩, .step, .step, .step] (GreedyFor 1) :=
    greedyFor_of_agreeing (by decide) (by simp [submissions, prompt])
      (agreeing_of_greedy (by decide) (by simp [submissions, prompt]) (by decide +kernel)) (r := 1) rfl
      (by decide +kernel)
  constructor
  · exact (h.1 (by simp [submissions, prompt]) hgreedy).2 src 8 2 8 (some 2) () _ e' 1 (by decide)
      (by simp [submissions, prompt]) hgreedy' hrun' rfl (by decide +kernel) (by decide +kernel)
  · rw [h.2.1.1]
    have hnext : e.nextId = 1 := by decide +kernel
    have hone := h.2.1.2 (by decide +kernel)
    rw [hnext, Finset.sum_range_one]
    exact hone

end DiSpec
