/-
# The prefix cache

`dispec/kv/prefix_cache.py`: `PrefixCache`.

Each full block of a prompt is keyed by a rolling hash of all tokens up to and
including that block.  Python's `hash` on `(h, chunk)` is a parameter,
`RollingHash.hash`, and the initial `0` is `RollingHash.seed`; nothing is assumed
of them here.  `_nodes` keeps its insertion order, because `evict` sorts its items
by the last-used stamp with a stable sort.

The cache works on the manager it was built with, so a method takes and returns
both.
-/

import DiSpec.KV.BlockManager
import Mathlib.Data.List.Sort

namespace DiSpec

/-- Python's `hash` on a pair of a hash value and a tuple of tokens, and the
value `_block_hashes` starts from. -/
structure RollingHash (κ : Type) where
  seed : κ
  hash : κ → List ℕ → κ

/-- A node `[block_id, last_used]`. -/
structure CacheNode where
  block : ℕ
  lastUsed : ℕ
  deriving DecidableEq

/-- `PrefixCache`, with `nodes` for `_nodes` and `clock` for `_clock`. -/
structure PrefixCache (κ : Type) where
  bs : ℕ
  nodes : Dict κ CacheNode
  clock : ℕ
  hits : ℕ
  misses : ℕ

/-- Python's slice `xs[:k]`, a negative `k` counting from the end. -/
def sliceTo {α : Type} (xs : List α) (k : ℤ) : List α :=
  if 0 ≤ k then xs.take k.toNat else xs.take (xs.length - k.natAbs)

namespace PrefixCache

variable {κ : Type}

/-- `PrefixCache.__init__`. -/
def init (blockSize : ℕ) : PrefixCache κ := ⟨blockSize, ∅, 0, 0, 0⟩

/-- The loop of `_block_hashes` over the next `n` full blocks. -/
def hashChain (H : RollingHash κ) (bs : ℕ) : κ → ℕ → List ℕ → List κ
  | _, 0, _ => []
  | h, n + 1, toks =>
    H.hash h (toks.take bs) :: hashChain H bs (H.hash h (toks.take bs)) n (toks.drop bs)

/-- `_block_hashes`: one key for each full block of `tokenIds`. -/
def blockHashes (H : RollingHash κ) (bs : ℕ) (tokenIds : List ℕ) : List κ :=
  hashChain H bs H.seed (tokenIds.length / bs) tokenIds

variable [DecidableEq κ]

/-- The loop of `match`: follow the keys until one is missing, touching each node. -/
def matchLoop (c : PrefixCache κ) : List κ → List ℕ × PrefixCache κ
  | [] => ([], c)
  | key :: keys =>
    match c.nodes.lookup key with
    | none => ([], c)
    | some node =>
      let r := { c with nodes := c.nodes.replace key { node with lastUsed := c.clock } }.matchLoop keys
      (node.block :: r.1, r.2)

/-- `match`: the longest run of cached blocks for the leading full blocks. -/
def «match» (H : RollingHash κ) (c : PrefixCache κ) (tokenIds : List ℕ) : List ℕ × PrefixCache κ :=
  let r := { c with clock := c.clock + 1 }.matchLoop (blockHashes H c.bs tokenIds)
  (r.1, { r.2 with hits := r.2.hits + r.1.length })

/-- The loop of `insert`: pin the block of each new key, touch the node of a known one. -/
def insertLoop (c : PrefixCache κ) (m : BlockManager) :
    List (κ × ℕ) → Except Exc Unit × PrefixCache κ × BlockManager
  | [] => (.ok (), c, m)
  | (key, blk) :: rest =>
    match c.nodes.lookup key with
    | none =>
      match m.addRef blk with
      | (.error e, m) => (.error e, c, m)
      | (.ok (), m) =>
        { c with nodes := c.nodes.insert key ⟨blk, c.clock⟩, misses := c.misses + 1 }.insertLoop
          m rest
    | some node =>
      { c with nodes := c.nodes.replace key { node with lastUsed := c.clock } }.insertLoop m rest

/-- `insert`: register the full blocks of a sequence. -/
def insert (H : RollingHash κ) (c : PrefixCache κ) (m : BlockManager) (tokenIds blockIds : List ℕ) :
    Except Exc Unit × PrefixCache κ × BlockManager :=
  { c with clock := c.clock + 1 }.insertLoop m ((blockHashes H c.bs tokenIds).zip blockIds)

/-- `sorted(self._nodes.items(), key=lambda kv: kv[1][1])`: oldest stamp first,
insertion order among equal stamps. -/
def byLastUsed (c : PrefixCache κ) : List (κ × CacheNode) :=
  c.nodes.items.insertionSort fun a b => a.2.lastUsed ≤ b.2.lastUsed

/-- The loop of `evict`: forget each victim and release its block. -/
def evictLoop (c : PrefixCache κ) (m : BlockManager) :
    List (κ × CacheNode) → Except Exc Unit × PrefixCache κ × BlockManager
  | [] => (.ok (), c, m)
  | (key, node) :: rest =>
    match m.release node.block with
    | (.error e, m) => (.error e, { c with nodes := c.nodes.erase key }, m)
    | (.ok (), m) => { c with nodes := c.nodes.erase key }.evictLoop m rest

/-- `evict`: release up to `numBlocks` least recently used blocks, and count them. -/
def evict (c : PrefixCache κ) (m : BlockManager) (numBlocks : ℤ) :
    Except Exc ℕ × PrefixCache κ × BlockManager :=
  let victims := sliceTo c.byLastUsed numBlocks
  match c.evictLoop m victims with
  | (.error e, c, m) => (.error e, c, m)
  | (.ok (), c, m) => (.ok victims.length, c, m)

end PrefixCache

end DiSpec
