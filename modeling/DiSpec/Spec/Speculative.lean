/-
# The speculative engine

`dispec/spec/speculative.py`: `SpecStats`, `SpeculativeEngine`.

One sequence is stored twice, in the cache of the target and in that of the draft
model.  A round drafts `K` tokens, lets the target verify them in one forward,
calls `rejection_sample`, rolls both caches back to what was accepted, forwards
what is missing, and emits.  The distributions after the text so far are carried
from round to round.

The sequence id is an argument: the counter it comes from is shared by all engines
of the process.  `calls` and `rounds` are not in the source.  They record each call
of `_forward` that reaches the model, with the length of the table before the
call, and what each round hands to `rejection_sample`.
-/

import DiSpec.Engine.ModelRunner
import DiSpec.Spec.Rejection

namespace DiSpec

/-- A call of `_forward`, for the record. -/
structure SpecCall where
  numTokens : ℕ
  startPos : ℕ
  tokens : List ℕ
  blockIds : List ℕ
  writeSlots : List ℕ

/-- What a round hands to `rejection_sample`, for the record; `out` is the text before it. -/
structure SpecRound (R : Type) where
  out : List ℕ
  draftTokens : List ℕ
  qStack : List (List R)
  pStack : List (List R)
  pBonus : List R

/-- The cache of one of the two models. -/
structure Side (D : Type) where
  cache : PagedKVCache D
  calls : List SpecCall

namespace Side

variable {X D R : Type}

/-- `cache.manager` after a call on it. -/
def setManager (s : Side D) (m : BlockManager) : Side D :=
  { s with cache := { s.cache with manager := m } }

/-- `_forward`: the logits of `tokens` at the positions from `startPos` on. -/
def forward (runner : ModelRunner X D R) (s : Side D) (sid : ℕ) (tokens : List ℕ) (startPos : ℕ) :
    Except Exc (List (List R)) × Side D :=
  match s.cache.manager.blockTable sid with
  | .error x => (.error x, s)
  | .ok before =>
    let n := tokens.length
    match s.cache.manager.reserve sid ((startPos : ℤ) + n - before.numTokens) with
    | (.error x, m) => (.error x, s.setManager m)
    | (.ok (), m) =>
      -- the same table, as `reserve` left it
      match m.blockTable sid with
      | .error x => (.error x, s.setManager m)
      | .ok table =>
        match (s.setManager m).cache.slotsForPositions table.blockIds (List.range' startPos n) with
        | .error x => (.error x, s.setManager m)
        | .ok slots =>
          let s := s.setManager (m.setTable sid { table with numTokens := startPos + n })
          let calls := s.calls ++ [⟨before.numTokens, startPos, tokens, table.blockIds, slots⟩]
          match runner.forward tokens (List.range' startPos n) slots
            [⟨table.blockIds, n, startPos + n⟩] s.cache with
          | (.error x, cache) => (.error x, { cache, calls })
          | (.ok hidden, cache) => (.ok (runner.logits hidden), { cache, calls })

/-- `_forward` at the position `block_table(sid).num_tokens`. -/
def extend (runner : ModelRunner X D R) (s : Side D) (sid : ℕ) (tokens : List ℕ) :
    Except Exc (List (List R)) × Side D :=
  match s.cache.manager.blockTable sid with
  | .error x => (.error x, s)
  | .ok table => s.forward runner sid tokens table.numTokens

/-- `cache.manager.allocate(sid, numTokens)`. -/
def allocate (s : Side D) (sid numTokens : ℕ) : Except Exc BlockTable × Side D :=
  match s.cache.manager.allocate sid numTokens [] with
  | (r, m) => (r, s.setManager m)

/-- `cache.manager.truncate(sid, numTokens)`. -/
def truncate (s : Side D) (sid numTokens : ℕ) : Except Exc Unit × Side D :=
  match s.cache.manager.truncate sid numTokens with
  | (r, m) => (r, s.setManager m)

/-- `cache.manager.free(sid)`. -/
def free (s : Side D) (sid : ℕ) : Except Exc Unit × Side D :=
  match s.cache.manager.free sid with
  | (r, m) => (r, s.setManager m)

end Side

/-- `SpecStats`. -/
structure SpecStats where
  iters : ℕ
  proposed : ℕ
  accepted : ℕ
  emitted : ℕ
  deriving DecidableEq

/-- What `SpeculativeEngine.__init__` fixes: the two runners, `num_speculative_tokens`, and
the vocabulary common to both models. -/
structure SpecSetup (X D Y E R : Type) where
  tgt : ModelRunner X D R
  drf : ModelRunner Y E R
  numSpeculativeTokens : ℕ
  vocab : ℕ

/-- `SpeculativeEngine`: its two caches. -/
structure SpeculativeEngine (D E R : Type) where
  tgt : Side D
  drf : Side E
  rounds : List (SpecRound R)

/-- The locals of `generate` at the head of its loop. -/
structure SpecLoop (D E R G : Type) where
  engine : SpeculativeEngine D E R
  out : List ℕ
  pNext : List R
  qNext : List R
  stats : SpecStats
  g : G

namespace SpecLoop

variable {D E R G : Type}

/-- The target's cache after a call on it. -/
def setTgt (s : SpecLoop D E R G) (tgt : Side D) : SpecLoop D E R G :=
  { s with engine := { s.engine with tgt } }

/-- The draft's cache after a call on it. -/
def setDrf (s : SpecLoop D E R G) (drf : Side E) : SpecLoop D E R G :=
  { s with engine := { s.engine with drf } }

end SpecLoop

namespace SpeculativeEngine

section Init

variable {X D Y E R : Type} [Zero D] [Add X] [Zero E] [Add Y]

/-- `__init__` on a target and a draft model, the part that does not change. -/
def setup (target : Transformer X D R) (draft : Transformer Y E R) (numSpeculativeTokens : ℕ) :
    SpecSetup X D Y E R where
  tgt := target.runner
  drf := draft.runner
  numSpeculativeTokens := numSpeculativeTokens
  vocab := min target.vocabSize draft.vocabSize

/-- `__init__` on a target and a draft model, the caches. -/
def init (target : Transformer X D R) (draft : Transformer Y E R) (numBlocks blockSize : ℕ) :
    SpeculativeEngine D E R where
  tgt := ⟨target.newCache numBlocks blockSize, []⟩
  drf := ⟨draft.newCache numBlocks blockSize, []⟩
  rounds := []

end Init

variable {X D Y E R G : Type} [Field R] [LinearOrder R]

section Distributions

variable (torch : Torch R) (vocab : ℕ) (params : SamplingParams R)

/-- `_probs`: the distribution over the common vocabulary. -/
def probs (logits : List R) : List R := logitsToProbs torch params (logits.take vocab)

/-- `_probs` of the last row. -/
def lastProbs (logits : List (List R)) : Except Exc (List R) :=
  match logits.getLast? with
  | none => .error .IndexError
  | some row => .ok (probs torch vocab params row)

end Distributions

section Round

variable (S : SpecSetup X D Y E R) (torch : Torch R) (src : Source R G) (sid : ℕ)
  (params : SamplingParams R)

/-- `n` more rounds of the drafting loop after `tok`: the tokens and their distributions. -/
def draftRest : (n tok : ℕ) → Side E → G → Except Exc (List ℕ × List (List R)) × Side E × G
  | 0, _, drf, g => (.ok ([], []), drf, g)
  | n + 1, tok, drf, g =>
    match drf.extend S.drf sid [tok] with
    | (.error x, drf) => (.error x, drf, g)
    | (.ok dl, drf) =>
      match lastProbs torch S.vocab params dl with
      | .error x => (.error x, drf, g)
      | .ok qd =>
        match (sampleFromProbs qd).run src g with
        | (tok, g) =>
          match draftRest n tok drf g with
          | (.error x, drf, g) => (.error x, drf, g)
          | (.ok (draftTokens, qStack), drf, g) => (.ok (tok :: draftTokens, qd :: qStack), drf, g)

/-- Step 1: draft `K` tokens. -/
def draft (qNext : List R) (drf : Side E) (g : G) :
    Except Exc (List ℕ × List (List R)) × Side E × G :=
  match (sampleFromProbs qNext).run src g with
  | (tok, g) =>
    match draftRest S torch src sid params (S.numSpeculativeTokens - 1) tok drf g with
    | (.error x, drf, g) => (.error x, drf, g)
    | (.ok (draftTokens, qStack), drf, g) => (.ok (tok :: draftTokens, qNext :: qStack), drf, g)

/-- Step 2: the target verifies the draft in one forward.  Returns `tgt_start`, `p_stack`
and `p_bonus`. -/
def verify (pNext : List R) (draftTokens : List ℕ) (tgt : Side D) :
    Except Exc (ℕ × List (List R) × List R) × Side D :=
  match tgt.cache.manager.blockTable sid with
  | .error x => (.error x, tgt)
  | .ok table =>
    match tgt.forward S.tgt sid draftTokens table.numTokens with
    | (.error x, tgt) => (.error x, tgt)
    | (.ok tl, tgt) =>
      match tl[S.numSpeculativeTokens - 1]? with
      | none => (.error .IndexError, tgt)
      | some row =>
        -- row `K - 1` exists, so the rows before it do
        let pStack := pNext :: (tl.take (S.numSpeculativeTokens - 1)).map (probs torch S.vocab params)
        (.ok (table.numTokens, pStack, probs torch S.vocab params row), tgt)

/-- Step 4 for the target: keep the accepted tokens, forward the last emitted one. -/
def resyncTgt (tgtStart nAcc last : ℕ) (tgt : Side D) : Except Exc (List R) × Side D :=
  match tgt.truncate sid (tgtStart + nAcc) with
  | (.error x, tgt) => (.error x, tgt)
  | (.ok (), tgt) =>
    match tgt.forward S.tgt sid [last] (tgtStart + nAcc) with
    | (.error x, tgt) => (.error x, tgt)
    | (.ok tl, tgt) => (lastProbs torch S.vocab params tl, tgt)

/-- Where step 4 cuts the draft's table, and what it forwards then.  The draft has not
forwarded its last token, which matters when all are accepted. -/
def draftCut (K drfBase nAcc last : ℕ) (draftTokens : List ℕ) : Except Exc (ℕ × List ℕ) :=
  if nAcc < K then .ok (drfBase + nAcc, [last])
  else
    match draftTokens[K - 1]? with
    | none => .error .IndexError
    | some t => .ok (drfBase + K - 1, [t, last])

/-- Step 4 for the draft. -/
def resyncDrf (drfBase nAcc last : ℕ) (draftTokens : List ℕ) (drf : Side E) :
    Except Exc (List R) × Side E :=
  match draftCut S.numSpeculativeTokens drfBase nAcc last draftTokens with
  | .error x => (.error x, drf)
  | .ok (cut, toFwd) =>
    match drf.truncate sid cut with
    | (.error x, drf) => (.error x, drf)
    | (.ok (), drf) =>
      match drf.extend S.drf sid toFwd with
      | (.error x, drf) => (.error x, drf)
      | (.ok dl, drf) => (lastProbs torch S.vocab params dl, drf)

/-- Step 5: append the emitted tokens, up to `max_new_tokens` or EOS.  The flag tells
whether `generate` returns. -/
def emit (maxNewTokens : ℕ) (eos : Option ℕ) :
    (emitted out : List ℕ) → SpecStats → Bool × List ℕ × SpecStats
  | [], out, stats => (false, out, stats)
  | t :: ts, out, stats =>
    let out := out ++ [t]
    let stats := { stats with emitted := stats.emitted + 1 }
    if maxNewTokens ≤ out.length ∨ some t = eos then (true, out, stats)
    else emit maxNewTokens eos ts out stats

/-- Steps 1 and 2 of a round: what is handed to `rejection_sample`, and `tgt_start`. -/
def propose (s : SpecLoop D E R G) : Except Exc (ℕ × SpecRound R) × SpecLoop D E R G :=
  match draft S torch src sid params s.qNext s.engine.drf s.g with
  | (.error x, drf, g) => (.error x, { s.setDrf drf with g })
  | (.ok (draftTokens, qStack), drf, g) =>
    let s := { s.setDrf drf with g }
    match verify S torch sid params s.pNext draftTokens s.engine.tgt with
    | (.error x, tgt) => (.error x, s.setTgt tgt)
    | (.ok (tgtStart, pStack, pBonus), tgt) =>
      let rd : SpecRound R := ⟨s.out, draftTokens, qStack, pStack, pBonus⟩
      (.ok (tgtStart, rd), { s with engine := ⟨tgt, s.engine.drf, s.engine.rounds ++ [rd]⟩ })

variable (promptLen : ℕ)

/-- Step 4 of a round: both caches and both distributions after `nAcc` drafted tokens and
the last emitted one. -/
def resync (tgtStart nAcc last : ℕ) (draftTokens : List ℕ) (s : SpecLoop D E R G) :
    Except Exc Unit × SpecLoop D E R G :=
  match resyncTgt S torch sid params tgtStart nAcc last s.engine.tgt with
  | (.error x, tgt) => (.error x, s.setTgt tgt)
  | (.ok pNext, tgt) =>
    let s := { s.setTgt tgt with pNext }
    match resyncDrf S torch sid params (promptLen + s.out.length) nAcc last draftTokens
      s.engine.drf with
    | (.error x, drf) => (.error x, s.setDrf drf)
    | (.ok qNext, drf) => (.ok (), { s.setDrf drf with qNext })

variable (maxNewTokens : ℕ) (eos : Option ℕ)

/-- Steps 3 to 5 of a round, and whether `generate` returns in it. -/
def settle (tgtStart : ℕ) (rd : SpecRound R) (s : SpecLoop D E R G) :
    Except Exc Bool × SpecLoop D E R G :=
  match (rejectionSample rd.pBonus rd.draftTokens rd.qStack rd.pStack).run src s.g with
  | (.error x, g) => (.error x, { s with g })
  | (.ok (emitted, nAcc), g) =>
    let stats := { s.stats with
      iters := s.stats.iters + 1,
      proposed := s.stats.proposed + S.numSpeculativeTokens,
      accepted := s.stats.accepted + nAcc }
    let s := { s with g, stats }
    match emitted.getLast? with
    | none => (.error .IndexError, s)
    | some last =>
      match resync S torch sid params promptLen tgtStart nAcc last rd.draftTokens s with
      | (.error x, s) => (.error x, s)
      | (.ok (), s) =>
        match emit maxNewTokens eos emitted s.out s.stats with
        | (done, out, stats) => (.ok done, { s with out, stats })

/-- One round of the loop of `generate`, and whether `generate` returns in it. -/
def round (s : SpecLoop D E R G) : Except Exc Bool × SpecLoop D E R G :=
  match propose S torch src sid params s with
  | (.error x, s) => (.error x, s)
  | (.ok (tgtStart, rd), s) =>
    settle S torch src sid params promptLen maxNewTokens eos tgtStart rd s

/-- The loop of `generate`, in at most `fuel` rounds. -/
def loop : (fuel : ℕ) → SpecLoop D E R G → Except Exc (List ℕ × SpecStats) × SpecLoop D E R G
  | 0, s => (.ok (s.out.take maxNewTokens, s.stats), s)
  | fuel + 1, s =>
    if s.out.length < maxNewTokens then
      match round S torch src sid params promptLen maxNewTokens eos s with
      | (.error x, s) => (.error x, s)
      | (.ok true, s) => (.ok (s.out.take maxNewTokens, s.stats), s)
      | (.ok false, s) => loop fuel s
    else (.ok (s.out.take maxNewTokens, s.stats), s)

end Round

section Generate

variable (S : SpecSetup X D Y E R) (torch : Torch R) (src : Source R G) (e : SpeculativeEngine D E R)
  (g : G) (sid : ℕ) (promptIds : List ℕ) (params : SamplingParams R)

/-- The two calls of `allocate`. -/
def allocate : Except Exc Unit × SpeculativeEngine D E R :=
  match e.tgt.allocate sid promptIds.length with
  | (.error x, tgt) => (.error x, { e with tgt })
  | (.ok _, tgt) =>
    match e.drf.allocate sid promptIds.length with
    | (.error x, drf) => (.error x, { e with tgt, drf })
    | (.ok _, drf) => (.ok (), { e with tgt, drf })

/-- The prefill of both models, up to the head of the loop. -/
def prefill : Except Exc (SpecLoop D E R G) × SpeculativeEngine D E R :=
  match e.tgt.forward S.tgt sid promptIds 0 with
  | (.error x, tgt) => (.error x, { e with tgt })
  | (.ok tgtLogits, tgt) =>
    match e.drf.forward S.drf sid promptIds 0 with
    | (.error x, drf) => (.error x, { e with tgt, drf })
    | (.ok drfLogits, drf) =>
      let e := { e with tgt, drf }
      match lastProbs torch S.vocab params tgtLogits, lastProbs torch S.vocab params drfLogits with
      | .ok pNext, .ok qNext => (.ok ⟨e, [], pNext, qNext, ⟨0, 0, 0, 0⟩, g⟩, e)
      | _, _ => (.error .IndexError, e)

/-- The two calls of `free`. -/
def free : Except Exc Unit × SpeculativeEngine D E R :=
  match e.tgt.free sid with
  | (.error x, tgt) => (.error x, { e with tgt })
  | (.ok (), tgt) =>
    match e.drf.free sid with
    | (r, drf) => (r, { e with tgt, drf })

variable (maxNewTokens : ℕ) (eos : Option ℕ)

/-- The body of the `try` of `generate`.  A round emits at least one token. -/
def generateBody : Except Exc (List ℕ × SpecStats) × SpeculativeEngine D E R × G :=
  match prefill S torch e g sid promptIds params with
  | (.error x, e) => (.error x, e, g)
  | (.ok s, _) =>
    match loop S torch src sid params promptIds.length maxNewTokens eos maxNewTokens s with
    | (r, s) => (r, s.engine, s.g)

/-- `generate`.  The allocations are outside the `try`. -/
def generate : Except Exc (List ℕ × SpecStats) × SpeculativeEngine D E R × G :=
  match e.allocate sid promptIds with
  | (.error x, e) => (.error x, e, g)
  | (.ok (), e) =>
    match e.generateBody S torch src g sid promptIds params maxNewTokens eos with
    | (r, e, g) =>
      match e.free sid with
      | (.error x, e) => (.error x, e, g)
      | (.ok (), e) => (r, e, g)

end Generate

end SpeculativeEngine

end DiSpec
