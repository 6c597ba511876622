/-
# The forward pass over a paged KV pool

`dispec/engine/model_runner.py`: `SeqMeta`, `ModelRunner.forward`,
`ModelRunner.logits`, on the native backend with unfused weights.

A flat batch is the concatenation of new tokens of several sequences, one
`SeqMeta` for each.  What torch and the HuggingFace modules compute for a single
token is a parameter (`Transformer`): embedding, norms, projections, rotation of a
head at a position, MLP, and the attention of one query head over an ordered list
of keys and values.  What the source adds is here: the rows written to the pool
before any is read, the slice of the batch that belongs to a sequence, the
context gathered through its block table or taken from the batch itself when the
sequence is fresh, the causal mask aligned at the bottom right, and the KV head
that a query head reads.
-/

import DiSpec.KV.PagedCache
import Mathlib.Algebra.Field.Rat
import Mathlib.Algebra.Order.Ring.Rat

namespace DiSpec

/-- One sequence's slice within a flat batch. -/
structure SeqMeta where
  blockIds : List ℕ
  qLen : ℕ
  ctxLen : ℕ
  deriving DecidableEq

/-- A model: its configuration, and what its modules do with the row `X` of one token or
the vector `D` of one head.  `attn` is `scaled_dot_product_attention` of one query
head over the keys and values it may see, in order. -/
structure Transformer (X D R : Type) where
  numLayers : ℕ
  numHeads : ℕ
  numKvHeads : ℕ
  headDim : ℕ
  vocabSize : ℕ
  qkNorm : Bool
  embed : ℕ → X
  inputLayernorm : ℕ → X → X
  qProj : ℕ → X → List D
  kProj : ℕ → X → List D
  vProj : ℕ → X → List D
  qNorm : ℕ → D → D
  kNorm : ℕ → D → D
  rope : ℕ → D → D
  attn : D → List (D × D) → D
  oProj : ℕ → List D → X
  postAttentionLayernorm : ℕ → X → X
  mlp : ℕ → X → X
  norm : X → X
  lmHead : X → List R

/-- `ModelRunner` as the engines call it.  The hidden rows are `X`, the head vectors `D`,
the logits `R`. -/
structure ModelRunner (X D R : Type) where
  forward (tokenIds positions writeSlots : List ℕ) (seqMeta : List SeqMeta) (c : PagedKVCache D) :
    Except Exc (List X) × PagedKVCache D
  logits (hidden : List X) : List (List R)

/-- `forward` of `torch.tensor(token_ids)`.  The tensor of an empty list is one of floats, which the embedding
refuses. -/
def ModelRunner.forwardList {X D R : Type} (runner : ModelRunner X D R)
    (tokenIds positions writeSlots : List ℕ) (seqMeta : List SeqMeta) (c : PagedKVCache D) :
    Except Exc (List X) × PagedKVCache D :=
  if tokenIds = [] then (.error .RuntimeError, c) else runner.forward tokenIds positions writeSlots seqMeta c

theorem ModelRunner.forwardList_eq {X D R : Type} (runner : ModelRunner X D R) {tokenIds : List ℕ}
    (h : tokenIds ≠ []) (positions writeSlots : List ℕ) (seqMeta : List SeqMeta) (c : PagedKVCache D) :
    runner.forwardList tokenIds positions writeSlots seqMeta c =
      runner.forward tokenIds positions writeSlots seqMeta c := if_neg h

/-- A forward that writes the pool and leaves the block manager alone. -/
def ModelRunner.WritesPool {X D R : Type} (runner : ModelRunner X D R) : Prop :=
  ∀ tokenIds positions slots seqMeta c,
    (runner.forward tokenIds positions slots seqMeta c).2.manager = c.manager

namespace Transformer

variable {X D R : Type} [Zero D] [Add X]

/-- `kv_groups`: the number of query heads that read one KV head. -/
def kvGroups (T : Transformer X D R) : ℕ := T.numHeads / T.numKvHeads

/-- The query heads of a token at a position. -/
def query (T : Transformer X D R) (layer pos : ℕ) (x : X) : List D :=
  let q := T.qProj layer x
  (if T.qkNorm then q.map (T.qNorm layer) else q).map (T.rope pos)

/-- The keys and values of a token at a position. -/
def keyValue (T : Transformer X D R) (layer pos : ℕ) (x : X) : KV D :=
  let k := T.kProj layer x
  ⟨(if T.qkNorm then k.map (T.kNorm layer) else k).map (T.rope pos), T.vProj layer x⟩

/-- Attention of the query heads of one token over its context, query head `h`
reading KV head `h / kv_groups` (`enable_gqa`). -/
def attendRow (T : Transformer X D R) (q : List D) (ctx : List (KV D)) : List D :=
  (List.range T.numHeads).map fun h =>
    T.attn (q.getD h 0)
      (ctx.map fun kv => (kv.key.getD (h / T.kvGroups) 0, kv.value.getD (h / T.kvGroups) 0))

/-- The context of one sequence: the rows of the batch if it is fresh, otherwise
what the pool holds for it. -/
def context (c : PagedKVCache D) (layer : ℕ) (info : SeqMeta) (kv : List (KV D)) :
    Except Exc (List (KV D)) :=
  if info.ctxLen = info.qLen then .ok (kv.take info.qLen)
  else
    match c.contextSlots info.blockIds info.ctxLen with
    | .error e => .error e
    | .ok slots => c.gather layer slots

/-- The loop of `_attention` over the sequences; `q` and `kv` are what is left of the
batch.  Row `i` of a sequence sees its context up to `ctx_len - q_len + i`. -/
def attend (T : Transformer X D R) (c : PagedKVCache D) (layer : ℕ) :
    List SeqMeta → List (List D) → List (KV D) → Except Exc (List (List D))
  | [], _, _ => .ok []
  | info :: rest, q, kv =>
    match context c layer info kv with
    | .error e => .error e
    | .ok ctx =>
      match T.attend c layer rest (q.drop info.qLen) (kv.drop info.qLen) with
      | .error e => .error e
      | .ok out =>
        .ok ((q.take info.qLen).mapIdx (fun i qi =>
          T.attendRow qi (ctx.take (info.ctxLen - info.qLen + i + 1))) ++ out)

/-- `_attention` of one layer: write the new rows, then attend. -/
def attention (T : Transformer X D R) (layer : ℕ) (x : List X) (positions writeSlots : List ℕ)
    (seqMeta : List SeqMeta) (c : PagedKVCache D) : Except Exc (List X) × PagedKVCache D :=
  let q := List.zipWith (T.query layer) positions x
  let kv := List.zipWith (T.keyValue layer) positions x
  match c.write layer writeSlots kv with
  | (.error e, c) => (.error e, c)
  | (.ok (), c) =>
    match T.attend c layer seqMeta q kv with
    | .error e => (.error e, c)
    | .ok out => (.ok (out.map (T.oProj layer)), c)

/-- The layers `i`, …, `i + n - 1` of `forward`. -/
def layers (T : Transformer X D R) (positions writeSlots : List ℕ) (seqMeta : List SeqMeta) :
    (i n : ℕ) → List X → PagedKVCache D → Except Exc (List X) × PagedKVCache D
  | _, 0, x, c => (.ok x, c)
  | i, n + 1, x, c =>
    match T.attention i (x.map (T.inputLayernorm i)) positions writeSlots seqMeta c with
    | (.error e, c) => (.error e, c)
    | (.ok o, c) =>
      let x := List.zipWith (· + ·) x o
      let h := x.map (T.postAttentionLayernorm i)
      T.layers positions writeSlots seqMeta (i + 1) n (List.zipWith (· + ·) x (h.map (T.mlp i))) c

/-- `forward`: the normalized hidden rows of a flat batch. -/
def forward (T : Transformer X D R) (tokenIds positions writeSlots : List ℕ) (seqMeta : List SeqMeta)
    (c : PagedKVCache D) : Except Exc (List X) × PagedKVCache D :=
  match T.layers positions writeSlots seqMeta 0 T.numLayers (tokenIds.map T.embed) c with
  | (.error e, c) => (.error e, c)
  | (.ok x, c) => (.ok (x.map T.norm), c)

/-- `logits`. -/
def logits (T : Transformer X D R) (hidden : List X) : List (List R) := hidden.map T.lmHead

/-- `ModelRunner(model)`. -/
def runner (T : Transformer X D R) : ModelRunner X D R := ⟨T.forward, T.logits⟩

/-- `PagedKVCache.for_model`. -/
def newCache (T : Transformer X D R) (numBlocks blockSize : ℕ) : PagedKVCache D :=
  .init T.numLayers numBlocks blockSize T.numKvHeads T.headDim

end Transformer

/-- A small model with three tokens, to run things on: rows and head vectors are
integers, and attention adds up the values it sees. -/
def sumModel : Transformer ℤ ℤ ℚ where
  numLayers := 1
  numHeads := 1
  numKvHeads := 1
  headDim := 1
  vocabSize := 3
  qkNorm := false
  embed t := t + 1
  inputLayernorm _ x := x
  qProj _ x := [x]
  kProj _ x := [x]
  vProj _ x := [x]
  qNorm _ q := q
  kNorm _ k := k
  rope p x := x + p
  attn q ctx := q + (ctx.map Prod.snd).sum
  oProj _ heads := heads.sum
  postAttentionLayernorm _ x := x
  mlp _ x := x
  norm x := x
  lmHead x := (List.range 3).map fun i => if x % 3 = i then 1 else 0

end DiSpec
