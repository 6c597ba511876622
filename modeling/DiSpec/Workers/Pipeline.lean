/-
# The two workers and their queues

`dispec/workers/disaggregated.py`: `_prefill_main`, `_decode_main`, `DisaggregatedEngine`;
`dispec/transport/cuda_ipc.py`: `CudaIpcTransport`; `dispec/transport/base.py`: `KVPayload`.

The two workers are processes of a pipeline (`Pipeline.Net`): a request is a pair of an id and a
prompt, a payload carries the prompt, its KV, the id and the first token, and a result carries
the id and the tokens.  One round of a worker's loop is its stage on its own cache, with its own
counter of sequence ids and its own generator.  Where a stage raises, the process ends with
the request in its hands.  `ready` and the start of the processes are over when the client
begins; times and byte counts are left out.

A payload that the prefill worker passes on belongs to its request (`PayloadOf`), and a result to
its request (`ResultOf`), wherever the two workers are by then.  Both are kept by a stage
(`prefillMain_keeps`, `decodeMain_keeps`), so the rules of the pipeline say the rest.
-/

import DiSpec.Lib.Pipeline
import DiSpec.Workers.Stages

namespace DiSpec

open Pipeline PagedKVCache BlockManager

/-- `BLOCK_SIZE`. -/
def BLOCK_SIZE : ℕ := 16

/-- `DisaggConfig`; the model stands for its name. -/
structure DisaggConfig (R : Type) where
  numBlocks : ℕ
  maxNewTokens : ℕ
  eosId : Option ℕ
  temperature : R

/-- The `meta` of a payload. -/
structure PayloadMeta where
  rid : ℕ
  firstToken : ℕ

/-- `KVPayload`. -/
structure KVPayload (D : Type) where
  tokens : List ℕ
  k : KVTensor D
  v : KVTensor D
  metadata : PayloadMeta

/-- `CudaIpcTransport`: what was sent and is kept alive. -/
structure CudaIpcTransport (D : Type) where
  inflight : List (KVPayload D)

/-- `send`, apart from the queue. -/
def CudaIpcTransport.send {D : Type} (t : CudaIpcTransport D) (payload : KVPayload D) : CudaIpcTransport D :=
  { inflight := t.inflight ++ [payload] }

/-- What the decode worker puts on `res_q`. -/
structure DecodeResult where
  rid : ℕ
  out : List ℕ

/-- The locals of `_prefill_main`. -/
structure PrefillWorker (D G : Type) where
  cache : PagedKVCache D
  transport : CudaIpcTransport D
  sid : ℕ
  rng : G

/-- The locals of `_decode_main`. -/
structure DecodeWorker (D G : Type) where
  cache : PagedKVCache D
  sid : ℕ
  rng : G

section Definitions

variable {X D R G : Type} [Field R] [LinearOrder R]

/-- `SamplingParams(cfg.temperature)`. -/
def DisaggConfig.params (cfg : DisaggConfig R) : SamplingParams R :=
  { SamplingParams.default with temperature := cfg.temperature }

/-- One round of the loop of `_prefill_main`: the payload for a request. -/
def prefillMain (torch : Torch R) (src : Source R G) (runner : ModelRunner X D R) (cfg : DisaggConfig R)
    (w : PrefillWorker D G) (item : ℕ × List ℕ) : Except Exc (KVPayload D) × PrefillWorker D G :=
  let sid := w.sid + 1
  match prefillExport torch src runner w.cache w.rng sid item.2 cfg.params with
  | (.error x, cache, rng) => (.error x, { w with cache, sid, rng })
  | (.ok (k, v, first), cache, rng) =>
    let payload : KVPayload D := ⟨item.2, k, v, ⟨item.1, first⟩⟩
    (.ok payload, ⟨cache, w.transport.send payload, sid, rng⟩)

/-- One round of the loop of `_decode_main`: the result for a payload. -/
def decodeMain (torch : Torch R) (src : Source R G) (runner : ModelRunner X D R) (cfg : DisaggConfig R)
    (w : DecodeWorker D G) (payload : KVPayload D) : Except Exc DecodeResult × DecodeWorker D G :=
  let sid := w.sid + 1
  match decodeFromKv torch src runner w.cache w.rng sid payload.tokens payload.k payload.v
    payload.metadata.firstToken cfg.maxNewTokens cfg.params cfg.eosId with
  | (.error x, cache, rng) => (.error x, ⟨cache, sid, rng⟩)
  | (.ok out, cache, rng) => (.ok ⟨payload.metadata.rid, out⟩, ⟨cache, sid, rng⟩)

/-- A call on a `DisaggregatedEngine`. -/
inductive EngineCall
  | submit (rid : ℕ) (promptIds : List ℕ)
  | collect (n : ℕ)
  | shutdown
  deriving DecidableEq

/-- What `submit`, `collect` and `shutdown` do to the queues and processes. -/
def EngineCall.calls : EngineCall → List (Call (ℕ × List ℕ))
  | submit rid promptIds => [.put (some (rid, promptIds))]
  | collect n => List.replicate n .get
  | shutdown => [.put none, .join, .putMid, .join]

/-- The request that a call submits. -/
def EngineCall.requests : EngineCall → List (ℕ × List ℕ)
  | submit rid promptIds => [(rid, promptIds)]
  | _ => []

/-- The two workers of an engine, its queues and its client. -/
abbrev DisaggregatedEngine (D G : Type) : Type :=
  Net (ℕ × List ℕ) (KVPayload D) DecodeResult (PrefillWorker D G) (DecodeWorker D G)

variable [Zero D] [Add X]

/-- `DisaggregatedEngine.__init__`, and the calls to come; `g` and `g'` are the generators of the two
processes. -/
def DisaggregatedEngine.init (T : Transformer X D R) (cfg : DisaggConfig R) (g g' : G)
    (program : List EngineCall) : DisaggregatedEngine D G :=
  start (program.flatMap EngineCall.calls) ⟨T.newCache cfg.numBlocks BLOCK_SIZE, ⟨[]⟩, 0, g⟩
    ⟨T.newCache cfg.numBlocks BLOCK_SIZE, 0, g'⟩

/-- Any interleaving of the client and the two workers. -/
def DisaggregatedEngine.Reaches (torch : Torch R) (src : Source R G) (T : Transformer X D R)
    (cfg : DisaggConfig R) : DisaggregatedEngine D G → DisaggregatedEngine D G → Prop :=
  Pipeline.Reaches (prefillMain torch src T.runner cfg) (decodeMain torch src T.runner cfg)

/-- The colocated baseline: `decode_from_kv` of `prefill_export` of one prompt, on two new caches. -/
def colocated (torch : Torch R) (src : Source R G) (T : Transformer X D R) (cfg : DisaggConfig R) (g g' : G)
    (promptIds : List ℕ) : Except Exc (List ℕ) :=
  match (prefillExport torch src T.runner (T.newCache cfg.numBlocks BLOCK_SIZE) g 1 promptIds
    cfg.params).1 with
  | .error x => .error x
  | .ok (k, v, first) =>
    (decodeFromKv torch src T.runner (T.newCache cfg.numBlocks BLOCK_SIZE) g' 1 promptIds k v first
      cfg.maxNewTokens cfg.params cfg.eosId).1

end Definitions

/-! ### What the workers pass on -/

section Stages

variable {X D R G : Type} [Zero D] [Add X] [Field R] [LinearOrder R] (torch : Torch R) (src : Source R G)
  (T : Transformer X D R) (cfg : DisaggConfig R)

/-- The blocks that `n` tokens need in the pool of a worker. -/
def DisaggConfig.blocksNeeded (n : ℕ) : ℕ := (BlockManager.init cfg.numBlocks BLOCK_SIZE).blocksNeeded n

/-- The payload belongs to the request: its id, its prompt, the KV of the prompt, and a first token drawn
after it. -/
structure PayloadOf (req : ℕ × List ℕ) (payload : KVPayload D) : Prop where
  rid : payload.metadata.rid = req.1
  tokens : payload.tokens = req.2
  nonempty : req.2 ≠ []
  fits : cfg.blocksNeeded req.2.length ≤ cfg.numBlocks
  carries : Carries T req.2 payload.k payload.v
  first : ∃ g, payload.metadata.firstToken = ((drawNext torch T cfg.params req.2).run src g).1

/-- The result belongs to the request: its id, and what the colocated baseline returns for its prompt. -/
structure ResultOf (req : ℕ × List ℕ) (res : DecodeResult) : Prop where
  rid : res.rid = req.1
  out : ∃ g g', colocated torch src T cfg g g' req.2 = .ok res.out

variable {torch src T cfg}

omit [Add X] [Zero D] [Field R] [LinearOrder R] in
/-- The block counts of a resting cache. -/
theorem blocksNeeded_of_resting {c : PagedKVCache D}
    (h : Resting T cfg.numBlocks BLOCK_SIZE c) (n : ℕ) : c.manager.blocksNeeded n = cfg.blocksNeeded n :=
  blocksNeeded_congr h.blockSize n

variable (torch src)

/-- **The prefill stage, whatever the pool stored before.** -/
theorem prefillExport_resting {c : PagedKVCache D} (h : Resting T cfg.numBlocks BLOCK_SIZE c) (g : G)
    (sid : ℕ) (promptIds : List ℕ) :
    ∃ r c' g', prefillExport torch src T.runner c g sid promptIds cfg.params = (r, c', g') ∧
      ((∀ a, r ≠ .ok a) ∧ ¬ (promptIds ≠ [] ∧ cfg.blocksNeeded promptIds.length ≤ cfg.numBlocks) ∨
        promptIds ≠ [] ∧ cfg.blocksNeeded promptIds.length ≤ cfg.numBlocks ∧
          Resting T cfg.numBlocks BLOCK_SIZE c' ∧
          ∃ k v, r = .ok (k, v, ((drawNext torch T cfg.params promptIds).run src g).1) ∧
            Carries T promptIds k v) := by
  obtain ⟨r, c', g', heq, hcase⟩ := prefillExport_idle torch src h g sid promptIds cfg.params
  rw [blocksNeeded_of_resting h] at hcase
  refine ⟨r, c', g', heq, ?_⟩
  rcases hcase with ⟨hlt, msg, rfl⟩ | ⟨h0, rfl⟩ | ⟨h0, hle, ⟨a, rfl⟩, hrest⟩
  · exact Or.inl ⟨fun a ha => (by cases ha), fun hfit => absurd hfit.2 (not_le.2 hlt)⟩
  · exact Or.inl ⟨fun a ha => (by cases ha), fun hfit => absurd h0 hfit.1⟩
  obtain ⟨r₂, c₂, g₂, heq₂, -, hcase₂⟩ := prefillExport_spec torch src (h.ready sid) h0 cfg.params g
  rw [heq] at heq₂
  cases heq₂
  rcases hcase₂ with ⟨msg, hmsg⟩ | ⟨k, v, hr, hkv⟩
  · cases hmsg
  · exact Or.inr ⟨h0, hle, hrest, k, v, (Prod.mk.inj hr).1, hkv⟩

/-- **The colocated baseline**, where the pools are large enough for what is drawn. -/
theorem colocated_eq {promptIds : List ℕ} (h0 : promptIds ≠ []) (g g' : G) :
    let first := ((drawNext torch T cfg.params promptIds).run src g).1
    let rest := ((LLMEngine.restOf torch T cfg.params cfg.eosId (cfg.maxNewTokens - 1) first
      (promptIds ++ [first])).run src g').1
    cfg.blocksNeeded (promptIds.length + rest.length) ≤ cfg.numBlocks →
      colocated torch src T cfg g g' promptIds = .ok (first :: rest) := by
  intro first rest hfits
  have hnew : Resting T cfg.numBlocks BLOCK_SIZE (T.newCache cfg.numBlocks BLOCK_SIZE) :=
    Resting.new T cfg.numBlocks (by decide)
  have hprompt : cfg.blocksNeeded promptIds.length ≤ cfg.numBlocks :=
    (blocksNeeded_mono _ (show 0 < BLOCK_SIZE by decide) (Nat.le_add_right _ _)).trans hfits
  obtain ⟨r, c', g₁, heq, ⟨-, hno⟩ | ⟨-, -, -, k, v, rfl, hkv⟩⟩ :=
    prefillExport_resting torch src hnew g 1 promptIds
  · exact absurd ⟨h0, hprompt⟩ hno
  obtain ⟨r₂, c₂, g₂, heq₂, ⟨hlt, -⟩ | ⟨-, rfl, -⟩⟩ :=
    decodeFromKv_idle torch src hnew hkv first cfg.maxNewTokens cfg.params cfg.eosId g' 1
  · rw [blocksNeeded_of_resting hnew] at hlt
    exact absurd hfits (not_le.2 hlt)
  · simp only [colocated, heq]
    exact congrArg Prod.fst heq₂

/-- **A round of the prefill worker** makes the payload of the request it took. -/
theorem prefillMain_keeps :
    Keeps (prefillMain torch src T.runner cfg) (fun w => Resting T cfg.numBlocks BLOCK_SIZE w.cache)
      (· = ·) (PayloadOf torch src T cfg) := by
  rintro w w' req _ payload h rfl hrun
  obtain ⟨rid, promptIds⟩ := req
  obtain ⟨r, c', g', heq, ⟨hno, -⟩ | ⟨h0, hfits, hrest, k, v, rfl, hkv⟩⟩ :=
    prefillExport_resting torch src h w.rng (w.sid + 1) promptIds
  · simp only [prefillMain, heq] at hrun
    cases r with
    | error x => cases hrun
    | ok a => exact absurd rfl (hno a)
  · simp only [prefillMain, heq] at hrun
    cases hrun
    exact ⟨hrest, rfl, rfl, h0, hfits, hkv, w.rng, rfl⟩

/-- **A round of the decode worker** makes the result of the request whose payload it took. -/
theorem decodeMain_keeps :
    Keeps (decodeMain torch src T.runner cfg) (fun w => Resting T cfg.numBlocks BLOCK_SIZE w.cache)
      (PayloadOf torch src T cfg) (ResultOf torch src T cfg) := by
  rintro w w' ⟨rid, promptIds⟩ payload res h hpay hrun
  obtain ⟨g, hfirst⟩ := hpay.first
  have heqtokens : payload.tokens = promptIds := hpay.tokens
  have hkv : Carries T payload.tokens payload.k payload.v := by
    rw [heqtokens]
    exact hpay.carries
  obtain ⟨r, c', g', heq, ⟨-, msg, rfl⟩ | ⟨hfits, rfl, hrest⟩⟩ :=
    decodeFromKv_idle torch src h hkv payload.metadata.firstToken cfg.maxNewTokens cfg.params cfg.eosId
      w.rng (w.sid + 1)
  · simp only [decodeMain, heq] at hrun
    cases hrun
  · simp only [decodeMain, heq] at hrun
    cases hrun
    rw [blocksNeeded_of_resting h, heqtokens, hfirst] at hfits
    refine ⟨hrest, hpay.rid, g, w.rng, ?_⟩
    rw [colocated_eq torch src hpay.nonempty g w.rng hfits, heqtokens, hfirst]

/-- The pools are large enough for the prompt and for all the tokens but the last that may be generated. -/
def DisaggConfig.Fits (cfg : DisaggConfig R) (req : ℕ × List ℕ) : Prop :=
  req.2 ≠ [] ∧ cfg.blocksNeeded (req.2.length + (cfg.maxNewTokens - 1)) ≤ cfg.numBlocks

instance (cfg : DisaggConfig R) (req : ℕ × List ℕ) : Decidable (cfg.Fits req) :=
  inferInstanceAs (Decidable (_ ∧ _))

omit [Field R] [LinearOrder R] in
/-- Fewer tokens need no more blocks. -/
theorem DisaggConfig.blocksNeeded_mono {k n : ℕ} (h : k ≤ n) : cfg.blocksNeeded k ≤ cfg.blocksNeeded n :=
  BlockManager.blocksNeeded_mono _ (show 0 < BLOCK_SIZE by decide) h

/-- The prefill stage does not raise on a request that fits. -/
theorem prefillMain_total {w : PrefillWorker D G} {req : ℕ × List ℕ}
    (h : Resting T cfg.numBlocks BLOCK_SIZE w.cache) (h0 : req.2 ≠ [])
    (hfits : cfg.blocksNeeded req.2.length ≤ cfg.numBlocks) :
    ∃ payload w', prefillMain torch src T.runner cfg w req = (.ok payload, w') := by
  obtain ⟨r, c', g', heq, ⟨-, hno⟩ | ⟨-, -, -, k, v, rfl, -⟩⟩ :=
    prefillExport_resting torch src h w.rng (w.sid + 1) req.2
  · exact absurd ⟨h0, hfits⟩ hno
  · simp only [prefillMain, heq]
    exact ⟨_, _, rfl⟩

/-- The decode stage does not raise on the payload of a request that fits. -/
theorem decodeMain_total {w : DecodeWorker D G} {req : ℕ × List ℕ} {payload : KVPayload D}
    (h : Resting T cfg.numBlocks BLOCK_SIZE w.cache) (hfits : cfg.Fits req)
    (hpay : PayloadOf torch src T cfg req payload) :
    ∃ res w', decodeMain torch src T.runner cfg w payload = (.ok res, w') := by
  have hkv : Carries T payload.tokens payload.k payload.v := by
    rw [hpay.tokens]
    exact hpay.carries
  obtain ⟨r, c', g', heq, ⟨hlt, -⟩ | ⟨-, rfl, -⟩⟩ :=
    decodeFromKv_idle torch src h hkv payload.metadata.firstToken cfg.maxNewTokens cfg.params cfg.eosId
      w.rng (w.sid + 1)
  · have hlen := Nat.le_of_succ_le_succ (LLMEngine.restOf_stops torch src T cfg.params cfg.eosId
      (cfg.maxNewTokens - 1) payload.metadata.firstToken (payload.tokens ++ [payload.metadata.firstToken])
      w.rng).length_le
    rw [blocksNeeded_of_resting h, hpay.tokens] at hlt
    rw [hpay.tokens] at hlen
    exact absurd (hlt.trans_le (cfg.blocksNeeded_mono (Nat.add_le_add_left hlen _))) (not_lt.2 hfits.2)
  · simp only [decodeMain, heq]
    exact ⟨_, _, rfl⟩

/-- The rest of a greedy generation does not depend on the generator. -/
theorem restOf_greedy (hg : cfg.params.greedy = true) (n nextId : ℕ) (ctx : List ℕ) (g g' : G) :
    ((LLMEngine.restOf torch T cfg.params cfg.eosId n nextId ctx).run src g).1 =
      ((LLMEngine.restOf torch T cfg.params cfg.eosId n nextId ctx).run src g').1 := by
  unfold LLMEngine.restOf
  split
  · rfl
  · rw [funext (drawNext_greedy torch T hg), Autoregressive.decode_pure]
    rfl

/-- **Greedy results depend on the prompt alone.** -/
theorem colocated_greedy (hg : cfg.params.greedy = true) {promptIds out : List ℕ} {g g' : G}
    (h : colocated torch src T cfg g g' promptIds = .ok out) (h₁ h₂ : G) :
    colocated torch src T cfg h₁ h₂ promptIds = .ok out := by
  have hnew : Resting T cfg.numBlocks BLOCK_SIZE (T.newCache cfg.numBlocks BLOCK_SIZE) :=
    Resting.new T cfg.numBlocks (by decide)
  have hdraw : ∀ g : G, ((drawNext torch T cfg.params promptIds).run src g).1 =
      greedyNext T noBase promptIds := fun g => by
    rw [drawNext_greedy torch T hg]
    rfl
  obtain ⟨r, c', g₁, heq, ⟨hno, -⟩ | ⟨h0, -, -, k, v, rfl, hkv⟩⟩ :=
    prefillExport_resting torch src hnew g 1 promptIds
  · simp only [colocated, heq] at h
    cases r with
    | error x => cases h
    | ok a => exact absurd rfl (hno a)
  obtain ⟨r₂, c₂, g₂, heq₂, ⟨-, msg, rfl⟩ | ⟨hfits, rfl, -⟩⟩ :=
    decodeFromKv_idle torch src hnew hkv (((drawNext torch T cfg.params promptIds).run src g).1)
      cfg.maxNewTokens cfg.params cfg.eosId g' 1
  · simp only [colocated, heq, heq₂] at h
    cases h
  · simp only [colocated, heq, heq₂] at h
    obtain rfl := Except.ok.inj h
    rw [blocksNeeded_of_resting hnew, hdraw, restOf_greedy torch src hg _ _ _ g' h₂] at hfits
    rw [hdraw, restOf_greedy torch src hg _ _ _ g' h₂]
    have hsame : _ → colocated torch src T cfg h₁ h₂ promptIds = .ok _ := colocated_eq torch src h0 h₁ h₂
    rw [hdraw] at hsame
    exact hsame hfits

/-! ### Runs of the engine -/

omit [Zero D] [Add X] [Field R] [LinearOrder R] in
/-- All blocks of a resting cache are free. -/
theorem PagedKVCache.Resting.all_free {T : Transformer X D R} {c : PagedKVCache D}
    (h : Resting T cfg.numBlocks BLOCK_SIZE c) :
    (∀ s, c.manager.tables.lookup s = none) ∧ c.manager.freeList.length = cfg.numBlocks :=
  ⟨h.idle.none, (h.idle.accounted.free_all h.idle.none).trans h.numBlocks⟩

/-- The calls send what is submitted. -/
theorem sends_calls (program : List EngineCall) :
    (program.flatMap EngineCall.calls).flatMap Call.sends = program.flatMap EngineCall.requests := by
  rw [List.flatMap_assoc]
  refine List.flatMap_congr fun call _ => ?_
  cases call with
  | submit rid promptIds => rfl
  | collect n =>
    refine List.flatMap_eq_nil_iff.2 fun c hc => ?_
    rw [List.eq_of_mem_replicate hc]
    rfl
  | shutdown => rfl

/-- Only `shutdown` puts a sentinel. -/
theorem shutdown_of_sentinel {program : List EngineCall}
    (h : .put none ∈ program.flatMap EngineCall.calls ∨ .putMid ∈ program.flatMap EngineCall.calls) :
    EngineCall.shutdown ∈ program := by
  rw [List.mem_flatMap, List.mem_flatMap] at h
  have hcall : ∃ call ∈ program, .put none ∈ call.calls ∨ .putMid ∈ call.calls :=
    h.elim (fun ⟨call, hmem, hput⟩ => ⟨call, hmem, Or.inl hput⟩) fun ⟨call, hmem, hput⟩ =>
      ⟨call, hmem, Or.inr hput⟩
  obtain ⟨call, hmem, hput⟩ := hcall
  cases call with
  | submit rid promptIds => simp [EngineCall.calls] at hput
  | collect n => simp [EngineCall.calls] at hput
  | shutdown => exact hmem

/-- A run of the engine, whatever the interleaving, puts each request in one place and follows the calls. -/
theorem DisaggregatedEngine.Reaches.spec {g g' : G} {program : List EngineCall} {n : DisaggregatedEngine D G}
    (h : DisaggregatedEngine.Reaches torch src T cfg (.init T cfg g g' program) n) :
    n.first.Good (fun w => Resting T cfg.numBlocks BLOCK_SIZE w.cache) ∧
      n.second.Good (fun w => Resting T cfg.numBlocks BLOCK_SIZE w.cache) ∧
      (∃ served working moving, Flows (PayloadOf torch src T cfg) (ResultOf torch src T cfg) n served working
        moving) ∧
      ∃ past, Past (program.flatMap EngineCall.calls) past n := by
  have hnew : Resting T cfg.numBlocks BLOCK_SIZE (T.newCache cfg.numBlocks BLOCK_SIZE) :=
    Resting.new T cfg.numBlocks (by decide)
  obtain ⟨hfirst, hsecond, hflows⟩ := Reaches.flows (prefillMain_keeps torch src) (decodeMain_keeps torch src)
    hnew hnew h
  exact ⟨hfirst, hsecond, hflows, Pipeline.Reaches.past h⟩

/-- A `submit` for each request. -/
def EngineCall.submits (reqs : List (ℕ × List ℕ)) : List EngineCall :=
  reqs.map fun req => .submit req.1 req.2

theorem EngineCall.calls_submits (reqs : List (ℕ × List ℕ)) (rest : List EngineCall) :
    (submits reqs ++ rest).flatMap calls =
      reqs.map (fun req => .put (some req)) ++ rest.flatMap calls := by
  rw [List.flatMap_append, submits, List.flatMap_map]
  congr 1
  induction reqs with
  | nil => rfl
  | cons req reqs ih => rw [List.flatMap_cons, ih]; rfl

/-- The workers may serve the first requests, which fit, before the client collects anything. -/
theorem DisaggregatedEngine.serves {done : List (ℕ × List ℕ)} (hfit : ∀ req ∈ done, cfg.Fits req)
    (left : List (ℕ × List ℕ)) (rest : List EngineCall) (g g' : G) :
    ∃ w w' out, Resting T cfg.numBlocks BLOCK_SIZE w.cache ∧ Resting T cfg.numBlocks BLOCK_SIZE w'.cache ∧
      List.Forall₂ (ResultOf torch src T cfg) done out ∧
      DisaggregatedEngine.Reaches torch src T cfg
        (.init T cfg g g' (EngineCall.submits (done ++ left) ++ rest))
        ⟨rest.flatMap EngineCall.calls, left.map some, .idle w, [], .idle w', out, done ++ left, []⟩ := by
  have hnew : Resting T cfg.numBlocks BLOCK_SIZE (T.newCache cfg.numBlocks BLOCK_SIZE) :=
    Resting.new T cfg.numBlocks (by decide)
  have hputs : DisaggregatedEngine.Reaches torch src T cfg
      (DisaggregatedEngine.init T cfg g g' (EngineCall.submits (done ++ left) ++ rest)) _ :=
    Pipeline.Reaches.puts (done ++ left) (EngineCall.calls_submits _ rest)
  obtain ⟨w, w', out, hout, hw, hw', hserves⟩ := Pipeline.Reaches.serves (prefillMain_keeps torch src)
    (decodeMain_keeps torch src)
    (fun w req hw hreq => prefillMain_total torch src hw hreq.1
      ((cfg.blocksNeeded_mono (Nat.le_add_right _ _)).trans hreq.2))
    (fun w req payload hw hreq hpay => decodeMain_total torch src hw hreq hpay) done hfit
    (n := ⟨rest.flatMap EngineCall.calls, (done ++ left).map some,
      .idle ⟨T.newCache cfg.numBlocks BLOCK_SIZE, ⟨[]⟩, 0, g⟩, [],
      .idle ⟨T.newCache cfg.numBlocks BLOCK_SIZE, 0, g'⟩, [], done ++ left, []⟩)
    List.map_append rfl rfl rfl hnew hnew
  exact ⟨w, w', out, hw, hw', hout, hputs.trans hserves⟩

/-- **The pipeline neither loses, duplicates nor mixes requests.**  For any calls of `submit` and
`collect` and any interleaving of the client and the two workers: each request sent is in one place,
and the places follow one another in the order of submission; the results collected are those
of the first requests submitted, each with its own id and what the colocated baseline returns for its own
prompt, for greedy parameters whatever the generators are; a worker that waits for an item has every block
free; and where no stage raised, a run comes to an end only with the result of every request. -/
theorem disaggregated_pipeline (torch : Torch R) (src : Source R G) (T : Transformer X D R)
    (cfg : DisaggConfig R) (g g' : G) {program : List EngineCall} (hprog : EngineCall.shutdown ∉ program)
    {n : DisaggregatedEngine D G}
    (h : DisaggregatedEngine.Reaches torch src T cfg (.init T cfg g g' program) n) :
    n.sent <+: program.flatMap EngineCall.requests ∧
    (none ∉ n.inQ ∧ none ∉ n.midQ ∧
      ∃ served working moving,
        n.sent = served ++ (working ++ moving) ++ (n.first.held ++ n.inQ.reduceOption) ∧
        List.Forall₂ (PayloadOf torch src T cfg) moving n.midQ.reduceOption ∧
        List.Forall₂ (PayloadOf torch src T cfg) working n.second.held ∧
        List.Forall₂ (ResultOf torch src T cfg) served (n.received ++ n.outQ)) ∧
    List.Forall₂ (ResultOf torch src T cfg) (n.sent.take n.received.length) n.received ∧
    (cfg.params.greedy = true → List.Forall₂
      (fun req res => res.rid = req.1 ∧ ∀ h₁ h₂, colocated torch src T cfg h₁ h₂ req.2 = .ok res.out)
      (n.sent.take n.received.length) n.received) ∧
    (∀ w, n.first = .idle w →
      (∀ s, w.cache.manager.tables.lookup s = none) ∧ w.cache.manager.freeList.length = cfg.numBlocks) ∧
    (∀ w, n.second = .idle w →
      (∀ s, w.cache.manager.tables.lookup s = none) ∧ w.cache.manager.freeList.length = cfg.numBlocks) ∧
    ((∀ w req, n.first ≠ .failed req w) → (∀ w payload, n.second ≠ .failed payload w) →
      (∀ n', ¬ Pipeline.Step (prefillMain torch src T.runner cfg) (decodeMain torch src T.runner cfg) n n') →
      List.Forall₂ (ResultOf torch src T cfg) n.sent (n.received ++ n.outQ) ∧
        (n.client = [] ∨ n.outQ = [])) := by
  obtain ⟨hfirst, hsecond, ⟨served, working, moving, hf⟩, past, hpast⟩ := h.spec torch src
  -- no worker has met a sentinel
  have hputs : ∀ c, c ∈ past → c ∈ program.flatMap EngineCall.calls := fun c hc => by
    rw [hpast.program]
    exact List.mem_append_left _ hc
  have hopen₁ : ¬ Proc.Closed n.inQ n.first := fun hc =>
    hprog (shutdown_of_sentinel (Or.inl (hputs _ (hpast.first hc))))
  have hopen₂ : ¬ Proc.Closed n.midQ n.second := fun hc =>
    hprog (shutdown_of_sentinel (Or.inr (hputs _ (hpast.second hc))))
  have hcollected : List.Forall₂ (ResultOf torch src T cfg) (n.sent.take n.received.length) n.received := by
    have hlen := hf.served.length_eq
    rw [List.length_append] at hlen
    have htake := List.forall₂_take n.received.length hf.served
    rw [List.take_left] at htake
    rwa [hf.sent, List.append_assoc, List.take_append_of_le_length (by omega)]
  refine ⟨?_, ⟨fun hmem => hopen₁ (Or.inl hmem), fun hmem => hopen₂ (Or.inl hmem), served, working, moving,
    hf.sent, hf.moving, hf.working, hf.served⟩, hcollected, fun hg => ?_, fun w hw => ?_, fun w hw => ?_,
    fun hno₁ hno₂ hstuck => ?_⟩
  · rw [hpast.sent, ← sends_calls, hpast.program, List.flatMap_append]
    exact List.prefix_append _ _
  · refine hcollected.imp fun req res hres => ⟨hres.rid, ?_⟩
    obtain ⟨h₁, h₂, hout⟩ := hres.out
    exact colocated_greedy torch src hg hout
  · rw [hw] at hfirst
    exact hfirst.all_free
  · rw [hw] at hsecond
    exact hsecond.all_free
  · obtain ⟨hin, hheld₁, hmid, hheld₂, hend⟩ := stuck hstuck
      (fun hex => hex.cases.elim (fun hp => hopen₁ (Or.inr hp)) fun ⟨req, w, hp⟩ => hno₁ w req hp)
      (fun hex => hex.cases.elim (fun hp => hopen₂ (Or.inr hp)) fun ⟨payload, w, hp⟩ => hno₂ w payload hp)
    have hworking := hf.working
    have hmoving := hf.moving
    rw [hheld₂, List.forall₂_nil_right_iff] at hworking
    rw [hmid, List.reduceOption_nil, List.forall₂_nil_right_iff] at hmoving
    refine ⟨?_, hend⟩
    rw [hf.sent, hworking, hmoving, hheld₁, hin, List.reduceOption_nil]
    simpa using hf.served

/-- The hypotheses are satisfiable: two requests, served and collected. -/
theorem disaggregated_pipeline_two :
    let torch : Torch ℚ := ⟨id, fun _ => []⟩
    let src : Source ℚ Unit := ⟨fun g => (0, g), fun _ g => (0, g)⟩
    let cfg : DisaggConfig ℚ := ⟨1, 3, none, 0⟩
    ∃ n : DisaggregatedEngine ℤ Unit,
      DisaggregatedEngine.Reaches torch src sumModel cfg
        (.init sumModel cfg () () [.submit 7 [0, 1], .submit 9 [2], .collect 2]) n ∧
      List.Forall₂ (fun req res => res.rid = req.1 ∧
        ∀ h₁ h₂, colocated torch src sumModel cfg h₁ h₂ req.2 = .ok res.out) [(7, [0, 1]), (9, [2])]
        n.received := by
  intro torch src cfg
  have hfit : ∀ req ∈ [(7, [0, 1]), (9, [2])], cfg.Fits req := by decide
  obtain ⟨w, w', out, -, -, hout, hserves⟩ :=
    DisaggregatedEngine.serves torch src (T := sumModel) hfit [] [.collect 2] () ()
  have hlen : out.length = 2 := hout.length_eq.symm
  have hgets : DisaggregatedEngine.Reaches torch src sumModel cfg
      ⟨[EngineCall.collect 2].flatMap EngineCall.calls, [], .idle w, [], .idle w', out,
        [(7, [0, 1]), (9, [2])], []⟩
      ⟨[], [], .idle w, [], .idle w', [], [(7, [0, 1]), (9, [2])], [] ++ out⟩ :=
    Pipeline.Reaches.gets out (by rw [hlen]; rfl) (List.append_nil out).symm
  refine ⟨_, hserves.trans hgets, ?_⟩
  have hall :=
    (disaggregated_pipeline torch src sumModel cfg () () (by decide) (hserves.trans hgets)).2.2.2.1 rfl
  rwa [List.nil_append, hlen] at hall

end Stages

end DiSpec
