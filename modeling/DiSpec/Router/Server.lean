/-
# The inference server

`dispec/router/server.py`: `InferenceServer.generate`, `generate_stream`, `_run`,
`_reap`, `_push_delta`.

One lock makes each submission, with its pending entry, and each iteration of the
background loop one atomic action; a run of the server is any list of them
(`InferenceServer.run`).  A client owns a future, or a queue if it streams, made
together with its pending entry, so the id of the request names them: `sent r` is what
was handed to the event loop for the future or the queue of request `r`, in order.

The tokenizer is a parameter.  A text is the list of its characters.  Times, metrics
and the autoscaler, which decide nothing here, are left out.
-/

import DiSpec.Sched.Progress

namespace DiSpec

/-- What the server uses of a tokenizer: `tok(prompt).input_ids`, `tok.eos_token_id` and
`tok.decode(ids, skip_special_tokens=True)`. -/
structure Tokenizer where
  inputIds : List Char → List ℕ
  eosTokenId : Option ℕ
  decode : List ℕ → List Char

/-- `_Pending`: whether there is a queue, and the text streamed so far. -/
structure Pending where
  queue : Bool
  decoded : List Char
  deriving DecidableEq

/-- What an event loop is handed: the result of a future, or what is put on a queue, where
`None` is the end sentinel. -/
inductive Event
  | result (outputIds : List ℕ)
  | delta (text : List Char)
  | sentinel
  deriving DecidableEq

/-- The arguments of `generate` and `generate_stream`. -/
structure Ask (R : Type) where
  prompt : List Char
  maxNewTokens : ℕ
  temperature : R
  priority : ℤ

/-- `InferenceServer`. -/
structure InferenceServer (D R G : Type) where
  engine : ContinuousBatchingEngine D R G
  tok : Tokenizer
  pending : Dict ℕ Pending
  sent : ℕ → List Event

namespace InferenceServer

open ContinuousBatchingEngine

variable {X D R G : Type}

/-- `InferenceServer.__init__`. -/
def init [Zero D] [Field R] [LinearOrder R] (T : Transformer X D R) (tok : Tokenizer)
    (numBlocks blockSize maxBatchTokens : ℕ) (chunkSize : Option ℕ) (rng : G) : InferenceServer D R G where
  engine := .init T numBlocks blockSize maxBatchTokens chunkSize rng
  tok := tok
  pending := ∅
  sent _ := []

/-- `call_soon_threadsafe`: events for the future or the queue of a request. -/
def post (s : InferenceServer D R G) (rid : ℕ) (events : List Event) : InferenceServer D R G :=
  { s with sent := Function.update s.sent rid (s.sent rid ++ events) }

/-! ### Submission -/

section

variable [Field R]

/-- The submission that a call makes: greedy or by temperature alone. -/
def submission (tok : Tokenizer) (a : Ask R) : Submission D R :=
  ⟨tok.inputIds a.prompt, a.maxNewTokens, ⟨a.temperature, 1, 0⟩, tok.eosTokenId, a.priority, none⟩

/-- What `generate` and `generate_stream` do under the lock. -/
def submit (s : InferenceServer D R G) (queue : Bool) (a : Ask R) :
    Except Exc ℕ × InferenceServer D R G :=
  match s.engine.addRequest (submission s.tok a) with
  | (.error x, engine) => (.error x, { s with engine })
  | (.ok rid, engine) => (.ok rid, { s with engine, pending := s.pending.insert rid ⟨queue, []⟩ })

/-- `generate`, up to where it awaits its future. -/
def generate (s : InferenceServer D R G) (a : Ask R) : Except Exc ℕ × InferenceServer D R G :=
  s.submit false a

/-- `generate_stream`, up to where it awaits its queue. -/
def generateStream (s : InferenceServer D R G) (a : Ask R) : Except Exc ℕ × InferenceServer D R G :=
  s.submit true a

end

/-- What `generate` returns once its future is resolved. -/
def response (tok : Tokenizer) (outIds : List ℕ) : List Char × ℕ := (tok.decode outIds, outIds.length)

/-! ### The background loop -/

/-- `_push_delta`: decode the full output and push the text that is new by its length. -/
def pushDelta (tok : Tokenizer) (p : Pending) (outputIds : List ℕ) : Pending × List Event :=
  let full := tok.decode outputIds
  if p.decoded.length < full.length then
    ({ p with decoded := full }, [.delta (full.drop p.decoded.length)])
  else (p, [])

/-- `{r.id: r for r in self.engine.running}.get(rid)`. -/
def byId (e : ContinuousBatchingEngine D R G) (rid : ℕ) : Option ℕ :=
  e.running.reverse.find? fun r => (e.req r).id = rid

/-- The first loop of `_reap`, over the pending entries. -/
def reapRunning (s : InferenceServer D R G) : List (ℕ × Pending) → InferenceServer D R G
  | [] => s
  | (rid, p) :: rest =>
    match byId s.engine rid with
    | none => s.reapRunning rest
    | some r =>
      if (s.engine.req r).outputIds = [] then s.reapRunning rest
      else if p.queue then
        match pushDelta s.tok p (s.engine.req r).outputIds with
        | (p, events) =>
          ({ s with pending := s.pending.replace rid p }.post rid events).reapRunning rest
      else s.reapRunning rest

/-- The second loop of `_reap`, over the finished requests. -/
def reapFinished (s : InferenceServer D R G) : List ℕ → InferenceServer D R G
  | [] => s
  | r :: rs =>
    let rid := (s.engine.req r).id
    match s.pending.lookup rid with
    | none => s.reapFinished rs
    | some p =>
      let s := { s with pending := s.pending.erase rid }
      if p.queue then
        (s.post rid ((pushDelta s.tok p (s.engine.req r).outputIds).2 ++ [.sentinel])).reapFinished rs
      else (s.post rid [.result (s.engine.req r).outputIds]).reapFinished rs

/-- `_reap`. -/
def reap (s : InferenceServer D R G) : InferenceServer D R G :=
  let s := s.reapRunning s.pending.items
  if s.engine.finished = [] then s
  else
    let s := s.reapFinished s.engine.finished
    { s with engine := { s.engine with finished := [] } }

variable [Field R] [LinearOrder R]

/-- One round of `_run`. -/
def iterate (torch : Torch R) (src : Source R G) (runner : ModelRunner X D R)
    (s : InferenceServer D R G) : Except Exc Unit × InferenceServer D R G :=
  if s.engine.hasWork then
    match s.engine.step torch src runner with
    | (.error x, engine) => (.error x, { s with engine })
    | (.ok (), engine) => (.ok (), { s with engine }.reap)
  else (.ok (), s)

/-- What happens at a server. -/
inductive Action (R : Type)
  | generate (a : Ask R)
  | generateStream (a : Ask R)
  | iterate

/-- One action. -/
def act (torch : Torch R) (src : Source R G) (runner : ModelRunner X D R) (s : InferenceServer D R G) :
    Action R → Except Exc Unit × InferenceServer D R G
  | .generate a => match s.generate a with | (r, s) => (r.map fun _ => (), s)
  | .generateStream a => match s.generateStream a with | (r, s) => (r.map fun _ => (), s)
  | .iterate => s.iterate torch src runner

/-- A run in which no action raises. -/
def run (torch : Torch R) (src : Source R G) (runner : ModelRunner X D R) :
    InferenceServer D R G → List (Action R) → Except Exc (InferenceServer D R G)
  | s, [] => .ok s
  | s, a :: acts =>
    match s.act torch src runner a with
    | (.error x, _) => .error x
    | (.ok (), s) => run torch src runner s acts

/-- The submissions of a run, each with whether it streams. -/
def asks : List (Action R) → List (Bool × Ask R)
  | [] => []
  | .generate a :: acts => (false, a) :: asks acts
  | .generateStream a :: acts => (true, a) :: asks acts
  | .iterate :: acts => asks acts

end InferenceServer

end DiSpec
