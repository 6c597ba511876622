/-
# The single-sequence engine

`dispec/engine/engine.py`: `LLMEngine.generate`, with or without a prefix cache,
without CUDA graphs.

`generate` matches the prompt against the prefix cache, adopts the blocks found,
prefills the rest, registers the prompt's full blocks, and decodes token by token;
`finally` frees the sequence whatever happened.  The sequence id is an argument:
the counter it comes from is shared by all engines of the process.

`calls` is not in the source.  It records each call of `forward` with its tokens, the slots
it writes and the blocks that are spoken for at that moment: those the prefix cache
holds and those the sequence adopted from it.
-/

import DiSpec.Engine.ModelRunner
import DiSpec.KV.PrefixCache
import DiSpec.Sampling

namespace DiSpec

/-- A call of `forward`, for the record. -/
structure ForwardCall where
  tokenIds : List ℕ
  positions : List ℕ
  writeSlots : List ℕ
  held : List ℕ
  adopted : List ℕ

/-- `LLMEngine`: its pool and prefix cache; `lastPrefillTokens` is as in the source. -/
structure LLMEngine (κ D : Type) where
  cache : PagedKVCache D
  prefixCache : Option (PrefixCache κ)
  lastPrefillTokens : ℕ
  calls : List ForwardCall

/-- Python's `xs[-1:]`. -/
def lastRow {α : Type} (xs : List α) : List α := xs.drop (xs.length - 1)

namespace LLMEngine

variable {κ X D R G : Type}

/-- `LLMEngine.__init__`. -/
def init [Zero D] (T : Transformer X D R) (numBlocks blockSize : ℕ) (prefixCache : Bool) :
    LLMEngine κ D where
  cache := T.newCache numBlocks blockSize
  prefixCache := if prefixCache then some (.init blockSize) else none
  lastPrefillTokens := 0
  calls := []

/-- `block_size`. -/
def blockSize (e : LLMEngine κ D) : ℕ := e.cache.blockSize

/-- `self.cache.manager` after a call on it. -/
def setManager (e : LLMEngine κ D) (m : BlockManager) : LLMEngine κ D :=
  { e with cache := { e.cache with manager := m } }

/-- The blocks the prefix cache holds. -/
def held (e : LLMEngine κ D) : List ℕ :=
  match e.prefixCache with
  | none => []
  | some c => c.nodes.items.map fun n => n.2.block

/-- `self.runner.forward(…, self.cache)`, recorded. -/
def forward (runner : ModelRunner X D R) (e : LLMEngine κ D) (adopted tokenIds positions
    writeSlots : List ℕ) (seqMeta : List SeqMeta) : Except Exc (List X) × LLMEngine κ D :=
  match runner.forward tokenIds positions writeSlots seqMeta e.cache with
  | (r, cache) =>
    (r, { e with cache, calls := e.calls ++ [⟨tokenIds, positions, writeSlots, e.held, adopted⟩] })

/-- `while reuse and len(reuse) * block_size >= n: reuse.pop()`, in at most `fuel` rounds. -/
def popReuse (blockSize n : ℕ) : (fuel : ℕ) → List ℕ → List ℕ
  | 0, reuse => reuse
  | fuel + 1, reuse =>
    if reuse ≠ [] ∧ n ≤ reuse.length * blockSize then popReuse blockSize n fuel reuse.dropLast
    else reuse

variable [DecidableEq κ]

/-- The blocks to adopt: the longest cached run, short of the final token. -/
def adopt (H : RollingHash κ) (e : LLMEngine κ D) (promptIds : List ℕ) : List ℕ × LLMEngine κ D :=
  match e.prefixCache with
  | none => ([], e)
  | some c =>
    match c.match H promptIds with
    | (reuse, c) =>
      (popReuse e.blockSize promptIds.length reuse.length reuse, { e with prefixCache := some c })

/-- `if self.prefix_cache is not None: self.prefix_cache.insert(…)`. -/
def register (H : RollingHash κ) (e : LLMEngine κ D) (promptIds blockIds : List ℕ) :
    Except Exc Unit × LLMEngine κ D :=
  match e.prefixCache with
  | none => (.ok (), e)
  | some c =>
    match c.insert H e.cache.manager promptIds blockIds with
    | (r, c, m) => (r, { e.setManager m with prefixCache := some c })

variable [Field R] [LinearOrder R]

/-- `int(sample(logits, params, generator)[0])`. -/
def sampleNext (torch : Torch R) (src : Source R G) (params : SamplingParams R)
    (logits : List (List R)) (g : G) : Except Exc ℕ × G :=
  match (sample torch params logits).run src g with
  | ([], g) => (.error .IndexError, g)
  | (t :: _, g) => (.ok t, g)

/-- The prefill of `generate`: forward the tokens that are not adopted, register the
prompt and draw the first token. -/
def prefill (H : RollingHash κ) (torch : Torch R) (src : Source R G) (runner : ModelRunner X D R)
    (e : LLMEngine κ D) (g : G) (seqId : ℕ) (promptIds reuse : List ℕ) (table : BlockTable)
    (params : SamplingParams R) : Except Exc ℕ × LLMEngine κ D × G :=
  let n := promptIds.length
  let start := reuse.length * e.blockSize
  let q := n - start
  let e := { e with lastPrefillTokens := q }
  match e.cache.slotsForPositions table.blockIds (List.range' start q) with
  | .error x => (.error x, e, g)
  | .ok writeSlots =>
    match e.forward runner reuse (promptIds.drop start) (List.range' start q) writeSlots
      [⟨table.blockIds, q, n⟩] with
    | (.error x, e) => (.error x, e, g)
    | (.ok hidden, e) =>
      match (e.setManager (e.cache.manager.setTable seqId { table with numTokens := n })).register
        H promptIds table.blockIds with
      | (.error x, e) => (.error x, e, g)
      | (.ok (), e) =>
        match sampleNext torch src params (runner.logits (lastRow hidden)) g with
        | (r, g) => (r, e, g)

/-- The decode loop of `generate`, with `n` tokens still allowed after `nextId`, which
stands at position `cur`. -/
def decode (torch : Torch R) (src : Source R G) (runner : ModelRunner X D R) (seqId : ℕ)
    (reuse : List ℕ) (params : SamplingParams R) (eos : Option ℕ) :
    (n nextId cur : ℕ) → LLMEngine κ D → G → Except Exc (List ℕ) × LLMEngine κ D × G
  | 0, _, _, e, g => (.ok [], e, g)
  | n + 1, nextId, cur, e, g =>
    if some nextId = eos then (.ok [], e, g)
    else
      match e.cache.manager.appendToken seqId with
      | (.error x, m) => (.error x, e.setManager m, g)
      | (.ok (blk, off), m) =>
        match m.blockTable seqId with
        | .error x => (.error x, e.setManager m, g)
        | .ok table =>
          match (e.setManager m).forward runner reuse [nextId] [cur] [blk * e.blockSize + off]
            [⟨table.blockIds, 1, cur + 1⟩] with
          | (.error x, e) => (.error x, e, g)
          | (.ok hidden, e) =>
            match sampleNext torch src params (runner.logits (lastRow hidden)) g with
            | (.error x, g) => (.error x, e, g)
            | (.ok t, g) =>
              match decode torch src runner seqId reuse params eos n t (cur + 1) e g with
              | (.error x, e, g) => (.error x, e, g)
              | (.ok out, e, g) => (.ok (t :: out), e, g)

/-- The body of the `try` of `generate`. -/
def generateBody (H : RollingHash κ) (torch : Torch R) (src : Source R G)
    (runner : ModelRunner X D R) (e : LLMEngine κ D) (g : G) (seqId : ℕ) (promptIds reuse : List ℕ)
    (table : BlockTable) (maxNewTokens : ℕ) (params : SamplingParams R) (eos : Option ℕ) :
    Except Exc (List ℕ) × LLMEngine κ D × G :=
  match e.prefill H torch src runner g seqId promptIds reuse table params with
  | (.error x, e, g) => (.error x, e, g)
  | (.ok t, e, g) =>
    match decode torch src runner seqId reuse params eos (maxNewTokens - 1) t promptIds.length e g with
    | (.error x, e, g) => (.error x, e, g)
    | (.ok out, e, g) => (.ok (t :: out), e, g)

/-- `generate`. -/
def generate (H : RollingHash κ) (torch : Torch R) (src : Source R G) (runner : ModelRunner X D R)
    (e : LLMEngine κ D) (g : G) (seqId : ℕ) (promptIds : List ℕ) (maxNewTokens : ℕ)
    (params : SamplingParams R) (eos : Option ℕ) : Except Exc (List ℕ) × LLMEngine κ D × G :=
  match e.adopt H promptIds with
  | (reuse, e) =>
    match e.cache.manager.allocate seqId promptIds.length reuse with
    | (.error x, m) => (.error x, e.setManager m, g)
    | (.ok table, m) =>
      match (e.setManager m).generateBody H torch src runner g seqId promptIds reuse table
        maxNewTokens params eos with
      | (r, e, g) =>
        match e.cache.manager.free seqId with
        | (.error x, m) => (.error x, e.setManager m, g)
        | (.ok (), m) => (r, e.setManager m, g)

end LLMEngine

end DiSpec
