/-
# Every history of an engine with graphs

Capturing runs `_forward` on the empty cache: it writes slot 0 and changes nothing else,
and leaves buffers of every bucket's size (`capture_spec`).  So a new engine with graphs
is the twin of a new engine without, whatever the buckets (`GraphEngine.init_twin`), and
calls keep them twins (`serve_twin`).
-/

import DiSpec.Engine.GraphGenerate

namespace DiSpec

namespace Transformer

variable {X D R : Type} [Zero D] (T : Transformer X D R) (fused : Option (ℕ → X → List D))
  (pos wslot : ℕ) (cslots : List ℕ) (mask : List Bool)

/-- A layer of `_forward` changes rows of the pool only. -/
theorem graphAttention_pool (layer : ℕ) (h : X) (c : PagedKVCache D) :
    ∃ pool, (T.graphAttention fused layer h pos wslot cslots mask c).2 = { c with pool } := by
  unfold graphAttention
  extract_lets qkv q k
  have hwrite : ∃ pool, (c.write layer [wslot] [⟨k.map (T.rope pos), qkv.2.2⟩]).2 = { c with pool } := by
    unfold PagedKVCache.write
    split
    · exact ⟨_, rfl⟩
    · exact ⟨c.pool, rfl⟩
  obtain ⟨pool, hpool⟩ := hwrite
  refine ⟨pool, ?_⟩
  rw [← hpool]
  rcases c.write layer [wslot] [⟨k.map (T.rope pos), qkv.2.2⟩] with ⟨_ | _, c'⟩
  · rfl
  · dsimp only
    cases c'.gather layer cslots <;> rfl

variable [Add X]

theorem graphLayers_pool (n i : ℕ) (x : X) (c : PagedKVCache D) :
    ∃ pool, (T.graphLayers fused pos wslot cslots mask i n x c).2 = { c with pool } := by
  induction n generalizing i x c with
  | zero => exact ⟨c.pool, rfl⟩
  | succ n ih =>
    obtain ⟨pool, hpool⟩ := graphAttention_pool T fused pos wslot cslots mask i (T.inputLayernorm i x) c
    rw [graphLayers]
    rcases hatt : T.graphAttention fused i (T.inputLayernorm i x) pos wslot cslots mask c with ⟨_ | o, c'⟩
    · rw [hatt] at hpool
      exact ⟨pool, hpool⟩
    · rw [hatt] at hpool
      obtain rfl : c' = { c with pool } := hpool
      exact ih (i + 1) _ { c with pool }

/-- `_forward` changes rows of the pool only. -/
theorem graphForward_pool (tok : ℕ) (c : PagedKVCache D) :
    ∃ pool, (T.graphForward fused tok pos wslot cslots mask c).2 = { c with pool } := by
  obtain ⟨pool, hpool⟩ := graphLayers_pool T fused pos wslot cslots mask T.numLayers 0 (T.embed tok) c
  refine ⟨pool, ?_⟩
  rw [← hpool, graphForward]
  rcases T.graphLayers fused pos wslot cslots mask 0 T.numLayers (T.embed tok) c with ⟨_ | _, _⟩ <;> rfl

end Transformer

namespace CudaGraphDecoder

variable {X D R : Type} [Zero D] [Add X] (T : Transformer X D R) (fused : Option (ℕ → X → List D))

theorem warmup_pool (mc n : ℕ) (c : PagedKVCache D) :
    ∃ pool, (warmup T fused mc n c).2 = { c with pool } := by
  induction n generalizing c with
  | zero => exact ⟨c.pool, rfl⟩
  | succ n ih =>
    obtain ⟨pool, hpool⟩ := T.graphForward_pool fused 0 0 (List.replicate mc 0) (List.replicate mc false) 0 c
    rw [warmup]
    rcases hrun : T.graphForward fused 0 0 0 (List.replicate mc 0) (List.replicate mc false) c with
      ⟨_ | _, c'⟩
    · rw [hrun] at hpool
      exact ⟨pool, hpool⟩
    · rw [hrun] at hpool
      obtain rfl : c' = { c with pool } := hpool
      exact ih { c with pool }

/-- There are buffers of a bucket's size. -/
def Sized (g : CudaGraphDecoder R) (mc : ℕ) : Prop :=
  ∃ b, g.captured.lookup mc = some b ∧ b.cslots.length = mc ∧ b.mask.length = mc

/-- The loop of `capture` keeps the buffers there are and adds those of its buckets. -/
theorem captureLoop_spec {buckets : List ℕ} {g g' : CudaGraphDecoder R} {c c' : PagedKVCache D}
    (hrun : captureLoop T fused buckets g c = (.ok g', c')) :
    (∃ pool, c' = { c with pool }) ∧ g'.buckets = g.buckets ∧ g'.maxCtx = g.maxCtx ∧
      ∀ mc, (mc ∈ buckets ∨ Sized g mc) → Sized g' mc := by
  induction buckets generalizing g c with
  | nil =>
    obtain ⟨hg, rfl⟩ := Prod.mk.inj hrun
    obtain rfl := Except.ok.inj hg
    exact ⟨⟨c.pool, rfl⟩, rfl, rfl, fun mc h => h.resolve_left List.not_mem_nil⟩
  | cons mc rest ih =>
    obtain ⟨pool, hpool⟩ := warmup_pool T fused mc 3 c
    rw [captureLoop] at hrun
    rcases hwarm : warmup T fused mc 3 c with ⟨_ | _, c₁⟩
    · rw [hwarm] at hrun
      cases hrun
    rw [hwarm] at hrun hpool
    obtain rfl : c₁ = { c with pool } := hpool
    obtain ⟨⟨pool', hc'⟩, hbuckets, hmax, hsized⟩ := ih hrun
    refine ⟨⟨pool', hc'⟩, hbuckets, hmax, fun mc' h => hsized mc' ?_⟩
    rcases eq_or_ne mc' mc with rfl | hne
    · exact Or.inr ⟨_, AList.lookup_insert _, List.length_replicate, List.length_replicate⟩
    · refine h.imp (fun hmem => (List.mem_cons.1 hmem).resolve_left hne) fun ⟨b, hb, hlen⟩ => ?_
      exact ⟨b, (AList.lookup_insert_ne hne).trans hb, hlen⟩

/-- **`capture`** leaves a decoder with buffers for each of its buckets, and a cache that differs in
rows of the pool only. -/
theorem capture_spec {buckets : List ℕ} (h0 : buckets ≠ []) {g : CudaGraphDecoder R} {c c' : PagedKVCache D}
    (hrun : capture T fused (init buckets) c = (.ok g, c')) :
    (∃ pool, c' = { c with pool }) ∧ Captured g ∧ g.buckets = buckets.insertionSort (· ≤ ·) := by
  obtain ⟨hpool, hbuckets, hmax, hsized⟩ := captureLoop_spec T fused hrun
  have hbuckets : g.buckets = buckets.insertionSort (· ≤ ·) := hbuckets
  have hne : buckets.insertionSort (· ≤ ·) ≠ [] := fun hnil =>
    h0 (List.length_eq_zero_iff.1 (by rw [← List.length_insertionSort (· ≤ ·), hnil, List.length_nil]))
  refine ⟨hpool, ⟨?_, ?_, fun mc hmc => hsized mc (Or.inl ?_)⟩, hbuckets⟩
  · rw [hbuckets]
    exact List.pairwise_insertionSort (· ≤ ·) buckets
  · rw [hbuckets, hmax, List.getLast?_eq_some_getLast hne]
    show _ = some ((buckets.insertionSort (· ≤ ·)).getLast?.getD 0)
    rw [List.getLast?_eq_some_getLast hne]
    rfl
  · rwa [hbuckets] at hmc

/-- What a decoder can handle is what fits in one of its buckets. -/
theorem Captured.canHandle_iff {g : CudaGraphDecoder R} (h : Captured g) (n : ℕ) :
    g.canHandle n = true ↔ ∃ mc ∈ g.buckets, n ≤ mc := by
  constructor
  · intro hn
    obtain ⟨mc, -, hmem, hle, -⟩ := h.bucketFor hn
    exact ⟨mc, hmem, hle⟩
  · rintro ⟨mc, hmem, hle⟩
    have hne : g.buckets ≠ [] := List.ne_nil_of_mem hmem
    have hlast : g.buckets.getLast hne = g.maxCtx :=
      Option.some.inj ((List.getLast?_eq_some_getLast hne).symm.trans h.largest)
    have hmax := h.sorted.rel_getLast hmem
    rw [hlast] at hmax
    simpa [canHandle] using hle.trans hmax

end CudaGraphDecoder

/-- A call of `generate`: its sequence id and arguments, and the state of its generator. -/
structure GenerateCall (R G : Type) where
  seqId : ℕ
  promptIds : List ℕ
  maxNewTokens : ℕ
  params : SamplingParams R
  eos : Option ℕ
  generator : G

section Serve

variable {κ X D R G : Type} [Zero D] [Add X] [Field R] [LinearOrder R] [DecidableEq κ]

/-- The calls one after the other, each with its result and the generator it leaves. -/
def LLMEngine.serve (H : RollingHash κ) (torch : Torch R) (src : Source R G) (runner : ModelRunner X D R) :
    List (GenerateCall R G) → LLMEngine κ D → List (Except Exc (List ℕ) × G) × LLMEngine κ D
  | [], e => ([], e)
  | call :: calls, e =>
    match e.generate H torch src runner call.generator call.seqId call.promptIds call.maxNewTokens
      call.params call.eos with
    | (r, e, g) =>
      match LLMEngine.serve H torch src runner calls e with
      | (rs, e) => ((r, g) :: rs, e)

/-- The calls on an engine with graphs. -/
def GraphEngine.serve (H : RollingHash κ) (torch : Torch R) (src : Source R G) (T : Transformer X D R)
    (fused : Option (ℕ → X → List D)) :
    List (GenerateCall R G) → GraphEngine κ D R →
      List (Except GraphExc (List ℕ) × G) × GraphEngine κ D R
  | [], ge => ([], ge)
  | call :: calls, ge =>
    match ge.generate H torch src T fused call.generator call.seqId call.promptIds call.maxNewTokens
      call.params call.eos with
    | (r, ge, g) =>
      match GraphEngine.serve H torch src T fused calls ge with
      | (rs, ge) => ((r, g) :: rs, ge)

end Serve

namespace GraphEngine

open LLMEngine CudaGraphDecoder

variable {κ X D R G : Type} [Zero D] [Add X] {T : Transformer X D R}

/-- **A new engine with graphs** is the twin of a new engine: no slot is read yet. -/
theorem init_twin (fused : Option (ℕ → X → List D)) {numBlocks blockSize : ℕ} {prefixCache : Bool}
    {buckets : List ℕ} (h0 : buckets ≠ []) {ge : GraphEngine κ D R}
    (hinit : init T fused numBlocks blockSize prefixCache buckets = .ok ge) :
    ∃ pool, ge.engine = (LLMEngine.init T numBlocks blockSize prefixCache).withPool pool ∧
      ge.graph.Captured ∧ ge.graph.buckets = buckets.insertionSort (· ≤ ·) := by
  unfold init at hinit
  rcases hcap : capture T fused (.init buckets)
      (LLMEngine.init T numBlocks blockSize prefixCache : LLMEngine κ D).cache with ⟨x | graph, cache⟩
  · simp only [hcap] at hinit
    cases hinit
  · simp only [hcap] at hinit
    obtain rfl := Except.ok.inj hinit
    obtain ⟨⟨pool, rfl⟩, hg, hbuckets⟩ := capture_spec T fused h0 hcap
    exact ⟨pool, rfl, hg, hbuckets⟩

variable [Field R] [LinearOrder R] [DecidableEq κ] {H : RollingHash κ}

/-- **A history** on twins. -/
theorem serve_twin (hgqa : T.numKvHeads ∣ T.numHeads) (fused : Option (ℕ → X → List D)) (torch : Torch R)
    (src : Source R G) (calls : List (GenerateCall R G)) {e : LLMEngine κ D} {pool : ℕ → ℕ → KV D}
    {graph : CudaGraphDecoder R} (h : Tally e) (hno : ∀ s, e.cache.manager.tables.lookup s = none)
    (hagree : Agrees T.numLayers (fun s => s / e.blockSize ∈ e.pins) e pool) (hg : graph.Captured) :
    let eager := e.serve H torch src (T.withFused fused).runner calls
    let graphed := serve H torch src T fused calls ⟨e.withPool pool, graph⟩
    graphed.1 = eager.1.map (fun r => (r.1.mapError .raised, r.2)) ∧
      (∃ pool', graphed.2.engine = eager.2.withPool pool') ∧ Later graph graphed.2.graph := by
  induction calls generalizing e pool graph with
  | nil => exact ⟨rfl, ⟨pool, rfl⟩, hg.refl⟩
  | cons call calls ih =>
    obtain ⟨r, e', g', pool', graph', hgen, hgen', htal, hno', hagree', hlater⟩ :=
      generate_twin (H := H) hgqa fused torch src h hno hagree hg call.generator call.seqId call.promptIds
        call.maxNewTokens call.params call.eos
    obtain ⟨hres, heng, hlater'⟩ := ih htal hno' hagree' hlater.captured
    simp only [serve, LLMEngine.serve, hgen, hgen', List.map_cons]
    exact ⟨congrArg _ hres, heng, hlater.trans hlater'⟩

end GraphEngine

open LLMEngine GraphEngine

variable {κ X D R G : Type} [Zero D] [Add X] [Field R] [LinearOrder R] [DecidableEq κ]

/-- **Decoding with graphs is eager decoding.**  For any buckets in any order, any calls on an engine
with graphs, with or without a prefix cache, return the tokens, raise the exceptions and
leave the generators that they do on an engine without.  In whatever state they leave the
decoder, it can handle what fits in a bucket and then finds the smallest such bucket;
what a replay returns does not depend on the replays before it; and it is the eager step on
any cache, so the padding of its window contributes nothing. -/
theorem graphed_generate_is_eager {T : Transformer X D R} (hgqa : T.numKvHeads ∣ T.numHeads)
    (fused : Option (ℕ → X → List D)) (H : RollingHash κ) (torch : Torch R) (src : Source R G)
    {numBlocks blockSize : ℕ} (hbs : 1 ≤ blockSize) {prefixCache : Bool} {buckets : List ℕ}
    (h0 : buckets ≠ []) {ge : GraphEngine κ D R}
    (hinit : GraphEngine.init T fused numBlocks blockSize prefixCache buckets = .ok ge)
    (calls : List (GenerateCall R G)) :
    let runner := (T.withFused fused).runner
    let eager :=
      (LLMEngine.init (T.withFused fused) numBlocks blockSize prefixCache).serve H torch src runner calls
    let after calls := ge.serve H torch src T fused calls
    let graph := (after calls).2.graph
    (after calls).1 = eager.1.map (fun r => (r.1.mapError .raised, r.2)) ∧
    (∀ n, graph.canHandle n = true ↔ ∃ mc ∈ buckets, n ≤ mc) ∧
    (∀ n, graph.canHandle n = true → ∃ mc, graph.bucketFor n = some mc ∧ mc ∈ buckets ∧ n ≤ mc ∧
      ∀ mc' ∈ buckets, n ≤ mc' → mc ≤ mc') ∧
    (∀ calls' c token position writeSlot ctxSlots,
      let graph' := (after calls').2.graph
      (graph'.decode T fused c token position writeSlot ctxSlots).1 =
          (graph.decode T fused c token position writeSlot ctxSlots).1 ∧
        (graph'.decode T fused c token position writeSlot ctxSlots).2.1 =
          (graph.decode T fused c token position writeSlot ctxSlots).2.1) ∧
    ∀ c ids cur token, Window c ids cur → graph.canHandle (cur + 1) = true →
      ∃ x logits pool graph', runner.forward [token] [cur] [c.newest ids cur] [⟨ids, 1, cur + 1⟩] c =
          (.ok [x], { c with pool }) ∧ runner.logits [x] = [logits] ∧
        graph.decode T fused c token cur (c.newest ids cur) (c.window ids cur) =
          (.ok logits, { c with pool }, graph') := by
  intro runner eager after graph
  obtain ⟨pool, heng, hcap, hbuckets⟩ := init_twin fused h0 hinit
  have hge : ge = ⟨(LLMEngine.init T numBlocks blockSize prefixCache).withPool pool, ge.graph⟩ := by
    rw [← heng]
  have htal : Tally (LLMEngine.init T numBlocks blockSize prefixCache : LLMEngine κ D) :=
    init_tally T H numBlocks hbs prefixCache
  have hpins : (LLMEngine.init T numBlocks blockSize prefixCache : LLMEngine κ D).pins = 0 := by
    cases prefixCache <;> rfl
  have hagree : Agrees T.numLayers (fun s =>
      s / (LLMEngine.init T numBlocks blockSize prefixCache : LLMEngine κ D).blockSize ∈
        (LLMEngine.init T numBlocks blockSize prefixCache : LLMEngine κ D).pins)
      (LLMEngine.init T numBlocks blockSize prefixCache : LLMEngine κ D) pool := by
    intro i _ s hs
    rw [hpins] at hs
    exact absurd hs (Multiset.notMem_zero _)
  have hserve := fun calls =>
    serve_twin (H := H) hgqa fused torch src calls htal (fun _ => rfl) hagree hcap
  rw [← hge] at hserve
  obtain ⟨hres, -, hgraph⟩ := hserve calls
  have hmem : ∀ mc, mc ∈ graph.buckets ↔ mc ∈ buckets := fun mc => by
    rw [show graph.buckets = buckets.insertionSort (· ≤ ·) from hgraph.buckets.trans hbuckets,
      List.mem_insertionSort]
  refine ⟨hres, fun n => ?_, fun n hn => ?_, fun calls' c token position writeSlot ctxSlots => ?_,
    fun c ids cur token hw hcan => ?_⟩
  · exact (hgraph.captured.canHandle_iff n).trans
      (exists_congr fun mc => and_congr_left fun _ => hmem mc)
  · obtain ⟨mc, hfind, hmc, hle, hleast⟩ := hgraph.captured.bucketFor hn
    exact ⟨mc, hfind, (hmem mc).1 hmc, hle, fun mc' hmc' => hleast mc' ((hmem mc').2 hmc')⟩
  · obtain ⟨-, -, hgraph'⟩ := hserve calls'
    exact hgraph.captured.decode_congr hgraph'.captured (hgraph'.buckets.trans hgraph.buckets.symm) fused c
      token position writeSlot ctxSlots
  · obtain ⟨x, pool', graph', heager, hdec, -⟩ := hgraph.captured.decode_spec hgqa fused token cur hw hcan
    exact ⟨x, T.lmHead x, pool', graph', heager, rfl, hdec⟩

/-- The hypotheses are satisfiable: with buckets of 3 and 2 slots, two calls on one engine go
through both buckets and past them, and return what the eager engine returns. -/
theorem graphed_generate_is_eager_small :
    let torch : Torch ℚ := ⟨id, fun _ => []⟩
    let src : Source ℚ Unit := ⟨fun g => (0, g), fun _ g => (0, g)⟩
    let calls : List (GenerateCall ℚ Unit) :=
      [⟨0, [1], 5, .default, none, ()⟩, ⟨1, [1, 2, 0], 3, .default, none, ()⟩]
    ∃ ge : GraphEngine (List ℕ) ℤ ℚ, GraphEngine.init sumModel none 4 2 true [3, 2] = .ok ge ∧
      (ge.serve listHash torch src sumModel none calls).1.map (fun r => r.1.toOption) =
        [some [0, 0, 1, 2, 2], some [2, 0, 2]] := by
  intro torch src calls
  set new : Except Exc (GraphEngine (List ℕ) ℤ ℚ) := GraphEngine.init sumModel none 4 2 true [3, 2]
  have hok : new.toOption.isSome = true := by
    decide +kernel
  rcases hinit : new with x | ge
  · rw [hinit] at hok
    cases hok
  have h := (graphed_generate_is_eager (T := sumModel) ⟨1, rfl⟩ none listHash torch src (by decide)
    (List.cons_ne_nil 3 [2]) hinit calls).1
  refine ⟨ge, rfl, ?_⟩
  rw [h]
  decide +kernel

end DiSpec
