/-
# The continuous-batching engine

`dispec/sched/scheduler.py`: `State`, `Request`, `ContinuousBatchingEngine`.

A request is an object that several lists point to, so the engine keeps the
objects by id (`req`) and the four queues hold ids.  One `step` is written in two
halves.  `schedule` is phases 1 and 2: it takes a decode token of every running
request, continues chunked prefills, admits waiting requests, and collects the flat
batch in the local variables of the source (`Batch`).  `execute` is phases 3 to 5:
one forward, one call of `sample`, outputs appended and finished requests retired.
An exception leaves the engine as the code leaves it at that point.

`Batch.imports` is not in the source: it records, for each row that
`import_contiguous` writes at admission, the request, the position and the slot.
-/

import DiSpec.Engine.ModelRunner
import DiSpec.Sampling
import Mathlib.Data.Prod.Lex

namespace DiSpec

/-- `State`. -/
inductive State
  | WAITING
  | PREFILLING
  | RUNNING
  | FINISHED
  deriving DecidableEq

/-- `Request`. -/
structure Request (D R : Type) where
  id : ℕ
  promptIds : List ℕ
  params : SamplingParams R
  maxNewTokens : ℕ
  eosId : Option ℕ
  outputIds : List ℕ
  state : State
  curLen : ℕ
  prefilled : Bool
  priority : ℤ
  prefillPos : ℕ
  prefixKv : Option (KVTensor D × KVTensor D)

namespace Request

variable {D R : Type}

/-- `done`. -/
def done (q : Request D R) : Bool :=
  decide (q.maxNewTokens ≤ q.outputIds.length) ||
    match q.outputIds.getLast? with
    | none => false
    | some t => decide (some t = q.eosId)

/-- The tokens of a request: its prompt and its output so far. -/
def tokens (q : Request D R) : List ℕ := q.promptIds ++ q.outputIds

end Request

/-- `ContinuousBatchingEngine`.  `rng` is the global generator that `sample` draws from. -/
structure ContinuousBatchingEngine (D R G : Type) where
  cache : PagedKVCache D
  maxBatchTokens : ℕ
  chunkSize : ℕ
  req : ℕ → Request D R
  waiting : List ℕ
  prefilling : List ℕ
  running : List ℕ
  finished : List ℕ
  nextId : ℕ
  numSteps : ℕ
  numPrefillTokens : ℕ
  numDecodeTokens : ℕ
  rng : G

/-- The local variables of `step`. -/
structure Batch where
  batch : List ℕ
  tokenIds : List ℕ
  positions : List ℕ
  writeSlots : List ℕ
  seqMeta : List SeqMeta
  lastIdx : List ℤ
  sampled : List Bool
  budget : ℕ
  cursor : ℕ
  imports : List (ℕ × ℕ × ℕ)

/-- The request of each token of the flat batch. -/
def Batch.owners (b : Batch) : List ℕ :=
  (b.batch.zip b.seqMeta).flatMap fun p => List.replicate p.2.qLen p.1

/-- The slots the forward of the batch writes, each with its request and position. -/
def Batch.writes (b : Batch) : List (ℕ × ℕ × ℕ) := b.owners.zip (b.positions.zip b.writeSlots)

/-- Python's `xs.remove(x)`. -/
def remove (xs : List ℕ) (x : ℕ) : Except Exc (List ℕ) :=
  if x ∈ xs then .ok (xs.erase x) else .error (.ValueError "list.remove(x): x not in list")

/-- Indexing the rows of a tensor by a list of indices, a negative one counting from
the end: `hidden[idx]`. -/
def indexRows {X : Type} (hidden : List X) : List ℤ → Except Exc (List X)
  | [] => .ok []
  | i :: is =>
    match hidden[(if i < 0 then i + hidden.length else i).toNat]?, indexRows hidden is with
    | some x, .ok xs => if i < -hidden.length then .error .IndexError else .ok (x :: xs)
    | _, _ => .error .IndexError

namespace ContinuousBatchingEngine

variable {X D R G : Type}

/-- `self.cache.manager` after a call on it. -/
def setManager (e : ContinuousBatchingEngine D R G) (m : BlockManager) :
    ContinuousBatchingEngine D R G := { e with cache := { e.cache with manager := m } }

/-- Request `r` after its fields were assigned. -/
def setReq (e : ContinuousBatchingEngine D R G) (r : ℕ) (q : Request D R) :
    ContinuousBatchingEngine D R G := { e with req := Function.update e.req r q }

/-! ### Submission -/

/-- The text of a shape in an error message. -/
def shapeText (layers tokens heads headDim : ℕ) : String :=
  s!"({layers}, {tokens}, {heads}, {headDim})"

/-- `_check_prefix_kv`. -/
def checkPrefixKv (e : ContinuousBatchingEngine D R G) (k v : KVTensor D) (promptLen : ℕ) :
    Except Exc Unit :=
  let c := e.cache
  if ¬((k.layers, k.heads, k.headDim) = (c.numLayers, c.numKvHeads, c.headDim) ∧
      (v.layers, v.tokens, v.heads, v.headDim) = (c.numLayers, k.tokens, c.numKvHeads, c.headDim)) then
    .error (.ValueError (s!"prefix_kv shapes {shapeText k.layers k.tokens k.heads k.headDim}/" ++
      s!"{shapeText v.layers v.tokens v.heads v.headDim} do not match this model's cache layout " ++
      shapeText c.numLayers k.tokens c.numKvHeads c.headDim))
  else if ¬(0 < k.tokens ∧ k.tokens < promptLen) then
    .error (.ValueError (s!"prefix_kv covers {k.tokens} tokens of a {promptLen}-token " ++
      "prompt; it must cover at least one and fewer than all of them"))
  else .ok ()

/-- What a caller of `add_request` submits. -/
structure Submission (D R : Type) where
  promptIds : List ℕ
  maxNewTokens : ℕ
  params : SamplingParams R
  eosId : Option ℕ
  priority : ℤ
  prefixKv : Option (KVTensor D × KVTensor D)

/-- `add_request`: queue a request and return its id. -/
def addRequest (e : ContinuousBatchingEngine D R G) (s : Submission D R) :
    Except Exc ℕ × ContinuousBatchingEngine D R G :=
  match (match s.prefixKv with
    | some (k, v) => e.checkPrefixKv k v s.promptIds.length
    | none => .ok ()) with
  | .error x => (.error x, e)
  | .ok () =>
    let q : Request D R := ⟨e.nextId, s.promptIds, s.params, s.maxNewTokens, s.eosId, [], .WAITING, 0,
      false, s.priority, 0, s.prefixKv⟩
    (.ok e.nextId, { e.setReq e.nextId q with
      waiting := e.waiting ++ [e.nextId], nextId := e.nextId + 1 })

/-! ### Phases 1 and 2: the batch -/

/-- The local variables at the start of `step`. -/
def emptyBatch (e : ContinuousBatchingEngine D R G) : Batch :=
  ⟨[], [], [], [], [], [], [], e.maxBatchTokens, 0, []⟩

/-- Phase 1: one decode token of each running request, within the budget. -/
def decodeLoop (e : ContinuousBatchingEngine D R G) (b : Batch) :
    List ℕ → Except Exc Unit × ContinuousBatchingEngine D R G × Batch
  | [] => (.ok (), e, b)
  | r :: rs =>
    if b.budget < 1 then (.ok (), e, b)
    else
      match e.cache.manager.blockTable r with
      | .error x => (.error x, e, b)
      | .ok table =>
        let pos := table.numTokens
        match e.cache.manager.appendToken r with
        | (.error x, m) => (.error x, e.setManager m, b)
        | (.ok (blk, off), m) =>
          match (e.req r).outputIds.getLast?, m.blockTable r with
          | some token, .ok table =>
            decodeLoop { e.setManager m with numDecodeTokens := e.numDecodeTokens + 1 }
              { b with
                tokenIds := b.tokenIds ++ [token]
                positions := b.positions ++ [pos]
                writeSlots := b.writeSlots ++ [blk * e.cache.blockSize + off]
                seqMeta := b.seqMeta ++ [⟨table.blockIds, 1, table.numTokens⟩]
                cursor := b.cursor + 1
                lastIdx := b.lastIdx ++ [((b.cursor + 1 : ℕ) : ℤ) - 1]
                batch := b.batch ++ [r]
                budget := b.budget - 1 } rs
          | none, _ => (.error .IndexError, e.setManager m, b)
          | _, .error x => (.error x, e.setManager m, b)

/-- The order of admission: higher priority first, then the older request. -/
def admissionOrder (e : ContinuousBatchingEngine D R G) (r r' : ℕ) : Prop :=
  toLex (-(e.req r).priority, (e.req r).id) ≤ toLex (-(e.req r').priority, (e.req r').id)

instance (e : ContinuousBatchingEngine D R G) : DecidableRel e.admissionOrder := fun r r' =>
  inferInstanceAs (Decidable (toLex (-(e.req r).priority, (e.req r).id) ≤
    toLex (-(e.req r').priority, (e.req r').id)))

/-- The slots that an import of KV of request `r` wrote, each with its position. -/
def importedAt (r : ℕ) : Except Exc (List ℕ) → List (ℕ × ℕ × ℕ)
  | .error _ => []
  | .ok slots => ((List.range slots.length).zip slots).map (Prod.mk r)

/-- The import of a supplied prefix into the table of a request just allocated. -/
def importPrefix (e : ContinuousBatchingEngine D R G) (b : Batch) (r : ℕ) (table : BlockTable) :
    Except Exc Unit × ContinuousBatchingEngine D R G × Batch :=
  match (e.req r).prefixKv with
  | none => (.ok (), e, b)
  | some (k, v) =>
    match e.cache.importContiguous table.blockIds k v with
    | (.error x, c) => (.error x, { e with cache := c }, b)
    | (.ok (), c) =>
      let e := { e with cache := c }
      (.ok (),
        (e.setManager (e.cache.manager.setTable r { table with numTokens := k.tokens })).setReq r
          { e.req r with prefillPos := k.tokens, prefixKv := none },
        { b with imports := b.imports ++ importedAt r (e.cache.contextSlots table.blockIds k.tokens) })

/-- The admission of a waiting request: `false` where the source breaks out of the loop
because there are too few free blocks. -/
def admitRequest (e : ContinuousBatchingEngine D R G) (b : Batch) (r : ℕ) :
    Except Exc Bool × ContinuousBatchingEngine D R G × Batch :=
  if (e.req r).state ≠ .WAITING then (.ok true, e, b)
  else
    match e.cache.manager.allocate r (e.req r).promptIds.length [] with
    | (.error x, m) =>
      if x.isOutOfBlocks then (.ok false, e.setManager m, b) else (.error x, e.setManager m, b)
    | (.ok table, m) =>
      let table := { table with numTokens := 0 }
      match (e.setManager (m.setTable r table)).importPrefix b r table with
      | (.error x, e, b) => (.error x, e, b)
      | (.ok (), e, b) =>
        let e := e.setReq r { e.req r with state := .PREFILLING }
        match remove e.waiting r with
        | .error x => (.error x, e, b)
        | .ok waiting => (.ok true, { e with waiting, prefilling := e.prefilling ++ [r] }, b)

/-- The next chunk of a prompt, and the end of its prefill.  An empty chunk raises: there is no
slot to look up. -/
def prefillChunk (e : ContinuousBatchingEngine D R G) (b : Batch) (r : ℕ) :
    Except Exc Unit × ContinuousBatchingEngine D R G × Batch :=
  match e.cache.manager.blockTable r with
  | .error x => (.error x, e, b)
  | .ok table =>
    let q := e.req r
    let pl := q.promptIds.length
    let chunk := min (min (pl - q.prefillPos) e.chunkSize) b.budget
    let pos := List.range' q.prefillPos chunk
    match e.cache.slotsForList table.blockIds pos with
    | .error x => (.error x, e, b)
    | .ok slots =>
      let prefillPos := q.prefillPos + chunk
      let cursor := b.cursor + chunk
      let b : Batch := { b with
        tokenIds := b.tokenIds ++ (q.promptIds.drop q.prefillPos).take chunk
        positions := b.positions ++ pos
        writeSlots := b.writeSlots ++ slots
        seqMeta := b.seqMeta ++ [⟨table.blockIds, chunk, prefillPos⟩]
        cursor := cursor
        budget := b.budget - chunk
        batch := b.batch ++ [r] }
      let e := { e.setManager (e.cache.manager.setTable r { table with numTokens := prefillPos }) with
        numPrefillTokens := e.numPrefillTokens + chunk }
      if pl ≤ prefillPos then
        let b := { b with lastIdx := b.lastIdx ++ [(cursor : ℤ) - 1], sampled := b.sampled ++ [true] }
        let e := e.setReq r { q with prefillPos, prefilled := true, state := .RUNNING }
        match remove e.prefilling r with
        | .error x => (.error x, e, b)
        | .ok prefilling => (.ok (), { e with prefilling, running := e.running ++ [r] }, b)
      else
        (.ok (), e.setReq r { q with prefillPos }, { b with sampled := b.sampled ++ [false] })

/-- Phase 2: continue the prefills under way, then admit, within the budget. -/
def prefillLoop (e : ContinuousBatchingEngine D R G) (b : Batch) :
    List ℕ → Except Exc Unit × ContinuousBatchingEngine D R G × Batch
  | [] => (.ok (), e, b)
  | r :: rs =>
    if b.budget < 1 then (.ok (), e, b)
    else
      match e.admitRequest b r with
      | (.error x, e, b) => (.error x, e, b)
      | (.ok false, e, b) => (.ok (), e, b)
      | (.ok true, e, b) =>
        match e.prefillChunk b r with
        | (.error x, e, b) => (.error x, e, b)
        | (.ok (), e, b) => prefillLoop e b rs

/-- Phases 1 and 2 of `step`. -/
def schedule (e : ContinuousBatchingEngine D R G) :
    Except Exc Unit × ContinuousBatchingEngine D R G × Batch :=
  match e.decodeLoop e.emptyBatch e.running with
  | (.error x, e, b) => (.error x, e, b)
  | (.ok (), e, b) =>
    let b := { b with sampled := List.replicate b.batch.length true }
    let e := { e with waiting := e.waiting.insertionSort e.admissionOrder }
    e.prefillLoop b (e.prefilling ++ e.waiting)

/-! ### Phases 3 to 5 -/

variable [Field R] [LinearOrder R]

/-- The first loop of phase 5: append the tokens; the requests that are done. -/
def appendOutputs (e : ContinuousBatchingEngine D R G) :
    List (ℕ × ℕ) → Except Exc (List ℕ) × ContinuousBatchingEngine D R G
  | [] => (.ok [], e)
  | (r, tid) :: rest =>
    let q := { e.req r with outputIds := (e.req r).outputIds ++ [tid] }
    match e.cache.manager.blockTable r with
    | .error x => (.error x, e.setReq r q)
    | .ok table =>
      let q := { q with curLen := table.numTokens }
      if q.done then
        match (e.setReq r { q with state := .FINISHED }).appendOutputs rest with
        | (.error x, e) => (.error x, e)
        | (.ok finished, e) => (.ok (r :: finished), e)
      else (e.setReq r q).appendOutputs rest

/-- The second loop of phase 5: retire the finished requests. -/
def retire (e : ContinuousBatchingEngine D R G) :
    List ℕ → Except Exc Unit × ContinuousBatchingEngine D R G
  | [] => (.ok (), e)
  | r :: rs =>
    match remove e.running r with
    | .error x => (.error x, e)
    | .ok running =>
      let e := { e with running, finished := e.finished ++ [r] }
      match e.cache.manager.free r with
      | (.error x, m) => (.error x, e.setManager m)
      | (.ok (), m) => (e.setManager m).retire rs

/-- `[r for r, s in zip(batch, sampled) if s]`. -/
def sampleBatch (b : Batch) : List ℕ :=
  ((b.batch.zip b.sampled).filter fun p => p.2).map Prod.fst

/-- Phases 3 to 5 of `step`. -/
def execute (torch : Torch R) (src : Source R G) (runner : ModelRunner X D R)
    (e : ContinuousBatchingEngine D R G) (b : Batch) :
    Except Exc Unit × ContinuousBatchingEngine D R G :=
  match runner.forward b.tokenIds b.positions b.writeSlots b.seqMeta e.cache with
  | (.error x, cache) => (.error x, { e with cache })
  | (.ok hidden, cache) =>
    let e := { e with cache, numSteps := e.numSteps + 1 }
    if b.lastIdx = [] then (.ok (), e)
    else
      match indexRows hidden b.lastIdx, sampleBatch b with
      | .error x, _ => (.error x, e)
      | .ok _, [] => (.error .IndexError, e)
      | .ok rows, first :: rest =>
        let drawn := (sample torch (e.req first).params (runner.logits rows)).run src e.rng
        match { e with rng := drawn.2 }.appendOutputs ((first :: rest).zip drawn.1) with
        | (.error x, e) => (.error x, e)
        | (.ok finished, e) => e.retire finished

/-- `step`. -/
def step (torch : Torch R) (src : Source R G) (runner : ModelRunner X D R)
    (e : ContinuousBatchingEngine D R G) : Except Exc Unit × ContinuousBatchingEngine D R G :=
  match e.schedule with
  | (.error x, e, _) => (.error x, e)
  | (.ok (), e, b) => if b.batch = [] then (.ok (), e) else e.execute torch src runner b

/-- `collect_outputs`: the outputs of the finished and the running requests, by id. -/
def collectOutputs (e : ContinuousBatchingEngine D R G) : List (ℕ × List ℕ) :=
  (e.finished ++ e.running).map fun r => ((e.req r).id, (e.req r).outputIds)

/-- `ContinuousBatchingEngine.__init__`; `chunk_size` defaults to the token budget. -/
def init [Zero D] (T : Transformer X D R) (numBlocks blockSize maxBatchTokens : ℕ)
    (chunkSize : Option ℕ) (rng : G) : ContinuousBatchingEngine D R G where
  cache := T.newCache numBlocks blockSize
  maxBatchTokens := maxBatchTokens
  chunkSize := match chunkSize with
    | none | some 0 => maxBatchTokens
    | some c => c
  req id := ⟨id, [], .default, 0, none, [], .WAITING, 0, false, 0, 0, none⟩
  waiting := []
  prefilling := []
  running := []
  finished := []
  nextId := 0
  numSteps := 0
  numPrefillTokens := 0
  numDecodeTokens := 0
  rng := rng

omit [LinearOrder R] in
/-- A chunk takes something unless the token budget is zero. -/
theorem init_chunkSize [Zero D] (T : Transformer X D R) (numBlocks blockSize maxBatchTokens : ℕ)
    (chunkSize : Option ℕ) (rng : G) :
    0 < (init T numBlocks blockSize maxBatchTokens chunkSize rng).chunkSize ∨ maxBatchTokens = 0 := by
  rcases chunkSize with _ | _ | c
  · exact (Nat.eq_zero_or_pos maxBatchTokens).symm
  · exact (Nat.eq_zero_or_pos maxBatchTokens).symm
  · exact Or.inl c.succ_pos

end ContinuousBatchingEngine

end DiSpec
