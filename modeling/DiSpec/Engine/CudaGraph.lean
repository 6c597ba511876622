/-
# CUDA-graph decode

`dispec/engine/cuda_graph.py`: `CudaGraphDecoder`, and the decode loop of
`LLMEngine.generate` with `cuda_graph=True`.

A bucket owns static buffers for one token: its id, position and write slot, a window
of context slots and a mask, and the logits.  `decode` fills the buffers of the
smallest bucket that fits and replays its graph, which executes `_forward` again on
what the buffers hold now.  `_forward` is a second copy of the transformer step for a
batch of one: it gathers the whole window, the padding included, repeats the KV heads
for the query heads and masks the padding out.  Attention with a boolean mask is
attention over the keys and values that the mask lets through (`unmasked`).

`fused` is the fused QKV projection of `ModelRunner(fuse=True)`, if there is one.  The
eager runner splits its result in the same way (`Transformer.withFused`).
-/

import DiSpec.Engine.Engine
import Mathlib.Data.List.Sort

namespace DiSpec

/-- What the mask lets through. -/
def unmasked {α : Type} : List Bool → List α → List α
  | true :: mask, x :: xs => x :: unmasked mask xs
  | false :: mask, _ :: xs => unmasked mask xs
  | _, _ => []

/-- `repeat_interleave(groups, dim=1)` of the heads of one row. -/
def repeatInterleave {D : Type} (groups : ℕ) (heads : List D) : List D :=
  heads.flatMap (List.replicate groups)

namespace Transformer

variable {X D R : Type} [Zero D] [Add X]

/-- The query, key and value heads of a row: three projections, or one that is split. -/
def project (T : Transformer X D R) (fused : Option (ℕ → X → List D)) (layer : ℕ) (x : X) :
    List D × List D × List D :=
  match fused with
  | some qkvProj =>
    let qkv := qkvProj layer x
    (qkv.take T.numHeads, (qkv.drop T.numHeads).take T.numKvHeads,
      (qkv.drop (T.numHeads + T.numKvHeads)).take T.numKvHeads)
  | none => (T.qProj layer x, T.kProj layer x, T.vProj layer x)

/-- The model as the eager runner runs it, fused or not. -/
def withFused (T : Transformer X D R) (fused : Option (ℕ → X → List D)) : Transformer X D R :=
  { T with
    qProj := fun i x => (T.project fused i x).1
    kProj := fun i x => (T.project fused i x).2.1
    vProj := fun i x => (T.project fused i x).2.2 }

/-- The attention of one layer of `_forward`. -/
def graphAttention (T : Transformer X D R) (fused : Option (ℕ → X → List D)) (layer : ℕ) (h : X)
    (pos wslot : ℕ) (cslots : List ℕ) (mask : List Bool) (c : PagedKVCache D) :
    Except Exc X × PagedKVCache D :=
  let qkv := T.project fused layer h
  let q := if T.qkNorm then qkv.1.map (T.qNorm layer) else qkv.1
  let k := if T.qkNorm then qkv.2.1.map (T.kNorm layer) else qkv.2.1
  let q := q.map (T.rope pos)
  let k := k.map (T.rope pos)
  match c.write layer [wslot] [⟨k, qkv.2.2⟩] with
  | (.error x, c) => (.error x, c)
  | (.ok (), c) =>
    match c.gather layer cslots with
    | .error x => (.error x, c)
    | .ok rows =>
      let ki := rows.map fun row => repeatInterleave T.kvGroups row.key
      let vi := rows.map fun row => repeatInterleave T.kvGroups row.value
      let oh := (List.range T.numHeads).map fun i =>
        T.attn (q.getD i 0)
          (unmasked mask (List.zipWith (fun k v => (k.getD i 0, v.getD i 0)) ki vi))
      (.ok (T.oProj layer oh), c)

/-- The layers `i`, …, `i + n - 1` of `_forward`. -/
def graphLayers (T : Transformer X D R) (fused : Option (ℕ → X → List D)) (pos wslot : ℕ)
    (cslots : List ℕ) (mask : List Bool) :
    (i n : ℕ) → X → PagedKVCache D → Except Exc X × PagedKVCache D
  | _, 0, x, c => (.ok x, c)
  | i, n + 1, x, c =>
    match T.graphAttention fused i (T.inputLayernorm i x) pos wslot cslots mask c with
    | (.error e, c) => (.error e, c)
    | (.ok o, c) =>
      let x := x + o
      T.graphLayers fused pos wslot cslots mask (i + 1) n (x + T.mlp i (T.postAttentionLayernorm i x)) c

/-- `CudaGraphDecoder._forward`: the logits of one token. -/
def graphForward (T : Transformer X D R) (fused : Option (ℕ → X → List D)) (tok pos wslot : ℕ)
    (cslots : List ℕ) (mask : List Bool) (c : PagedKVCache D) : Except Exc (List R) × PagedKVCache D :=
  match T.graphLayers fused pos wslot cslots mask 0 T.numLayers (T.embed tok) c with
  | (.error e, c) => (.error e, c)
  | (.ok x, c) => (.ok (T.lmHead (T.norm x)), c)

end Transformer

/-- `_Bucket`: the static buffers of one captured graph. -/
structure GraphBucket (R : Type) where
  maxCtx : ℕ
  tok : ℕ
  pos : ℕ
  wslot : ℕ
  cslots : List ℕ
  mask : List Bool
  out : List R

/-- `CudaGraphDecoder`. -/
structure CudaGraphDecoder (R : Type) where
  buckets : List ℕ
  maxCtx : ℕ
  captured : Dict ℕ (GraphBucket R)

/-- What `generate` with a graph can raise besides its own exceptions: `next` on an exhausted
generator. -/
inductive GraphExc
  | StopIteration
  | raised (e : Exc)

/-- `buffer.zero_()` and `buffer[:len(xs)] = xs`. -/
def fillFrom {α : Type} (zero : α) (xs buffer : List α) : List α :=
  xs ++ (List.replicate buffer.length zero).drop xs.length

namespace CudaGraphDecoder

variable {X D R : Type} [Zero D] [Add X]

/-- `CudaGraphDecoder.__init__`. -/
def init (buckets : List ℕ) : CudaGraphDecoder R where
  buckets := buckets.insertionSort (· ≤ ·)
  maxCtx := (buckets.insertionSort (· ≤ ·)).getLast?.getD 0
  captured := ∅

/-- The warmup runs of `_forward` before a capture. -/
def warmup (T : Transformer X D R) (fused : Option (ℕ → X → List D)) (mc : ℕ) :
    ℕ → PagedKVCache D → Except Exc Unit × PagedKVCache D
  | 0, c => (.ok (), c)
  | n + 1, c =>
    match T.graphForward fused 0 0 0 (List.replicate mc 0) (List.replicate mc false) c with
    | (.error e, c) => (.error e, c)
    | (.ok _, c) => warmup T fused mc n c

/-- The loop of `capture` over the buckets.  Recording a graph runs nothing, so its output buffer holds
nothing yet. -/
def captureLoop (T : Transformer X D R) (fused : Option (ℕ → X → List D)) :
    List ℕ → CudaGraphDecoder R → PagedKVCache D → Except Exc (CudaGraphDecoder R) × PagedKVCache D
  | [], g, c => (.ok g, c)
  | mc :: rest, g, c =>
    match warmup T fused mc 3 c with
    | (.error e, c) => (.error e, c)
    | (.ok (), c) =>
      let b : GraphBucket R := ⟨mc, 0, 0, 0, List.replicate mc 0, List.replicate mc false, []⟩
      captureLoop T fused rest { g with captured := g.captured.insert mc b } c

/-- `capture`. -/
def capture (T : Transformer X D R) (fused : Option (ℕ → X → List D)) (g : CudaGraphDecoder R)
    (c : PagedKVCache D) : Except Exc (CudaGraphDecoder R) × PagedKVCache D :=
  captureLoop T fused g.buckets g c

/-- `can_handle`. -/
def canHandle (g : CudaGraphDecoder R) (ctxLen : ℕ) : Bool := ctxLen ≤ g.maxCtx

/-- `next(b for b in self.buckets if b >= ctx_len)`. -/
def bucketFor (g : CudaGraphDecoder R) (ctxLen : ℕ) : Option ℕ := g.buckets.find? (ctxLen ≤ ·)

/-- `decode`: fill the buffers of a bucket and replay its graph. -/
def decode (T : Transformer X D R) (fused : Option (ℕ → X → List D)) (g : CudaGraphDecoder R)
    (c : PagedKVCache D) (token position writeSlot : ℕ) (ctxSlots : List ℕ) :
    Except GraphExc (List R) × PagedKVCache D × CudaGraphDecoder R :=
  match g.bucketFor ctxSlots.length with
  | none => (.error .StopIteration, c, g)
  | some mc =>
    match g.captured.lookup mc with
    | none => (.error (.raised .KeyError), c, g)
    | some b =>
      let b := { b with
        tok := token
        pos := position
        wslot := writeSlot
        cslots := fillFrom 0 ctxSlots b.cslots
        mask := fillFrom false (List.replicate ctxSlots.length true) b.mask }
      match T.graphForward fused b.tok b.pos b.wslot b.cslots b.mask c with
      | (.error e, c) => (.error (.raised e), c, { g with captured := g.captured.insert mc b })
      | (.ok out, c) => (.ok out, c, { g with captured := g.captured.insert mc { b with out } })

end CudaGraphDecoder

/-- An `LLMEngine` with its graph. -/
structure GraphEngine (κ D R : Type) where
  engine : LLMEngine κ D
  graph : CudaGraphDecoder R

namespace GraphEngine

variable {κ X D R G : Type} [Zero D] [Add X]

/-- `LLMEngine.__init__` with `cuda_graph=True`: the graphs are captured on the empty cache. -/
def init (T : Transformer X D R) (fused : Option (ℕ → X → List D)) (numBlocks blockSize : ℕ)
    (prefixCache : Bool) (graphBuckets : List ℕ) : Except Exc (GraphEngine κ D R) :=
  let e : LLMEngine κ D := .init T numBlocks blockSize prefixCache
  match CudaGraphDecoder.capture T fused (.init graphBuckets) e.cache with
  | (.error x, _) => .error x
  | (.ok graph, cache) => .ok ⟨{ e with cache }, graph⟩

/-- `self.graph.decode(next_id, cur, wslot, cslots)`, recorded as a call of `forward`. -/
def replay (T : Transformer X D R) (fused : Option (ℕ → X → List D)) (ge : GraphEngine κ D R)
    (adopted : List ℕ) (token position writeSlot : ℕ) (ctxSlots : List ℕ) :
    Except GraphExc (List R) × GraphEngine κ D R :=
  match ge.graph.decode T fused ge.engine.cache token position writeSlot ctxSlots with
  | (r, cache, graph) =>
    let call : ForwardCall := ⟨[token], [position], [writeSlot], ge.engine.held, adopted⟩
    (r, ⟨{ ge.engine with cache, calls := ge.engine.calls ++ [call] }, graph⟩)

/-- The logits of one decoded token: replayed if the graph can handle the context, otherwise by the
eager runner. -/
def step (T : Transformer X D R) (fused : Option (ℕ → X → List D)) (ge : GraphEngine κ D R)
    (adopted blockIds : List ℕ) (nextId cur wslot : ℕ) :
    Except GraphExc (List (List R)) × GraphEngine κ D R :=
  if ge.graph.canHandle (cur + 1) then
    match ge.engine.cache.contextSlots blockIds (cur + 1) with
    | .error x => (.error (.raised x), ge)
    | .ok cslots =>
      match ge.replay T fused adopted nextId cur wslot cslots with
      | (.error x, ge) => (.error x, ge)
      | (.ok logits, ge) => (.ok [logits], ge)
  else
    match ge.engine.forward (T.withFused fused).runner adopted [nextId] [cur] [wslot]
      [⟨blockIds, 1, cur + 1⟩] with
    | (.error x, e) => (.error (.raised x), ⟨e, ge.graph⟩)
    | (.ok hidden, e) => (.ok ((T.withFused fused).runner.logits (lastRow hidden)), ⟨e, ge.graph⟩)

variable [Field R] [LinearOrder R]

/-- The decode loop of `generate` with a graph. -/
def decode (torch : Torch R) (src : Source R G) (T : Transformer X D R)
    (fused : Option (ℕ → X → List D)) (seqId : ℕ) (reuse : List ℕ) (params : SamplingParams R)
    (eos : Option ℕ) :
    (n nextId cur : ℕ) → GraphEngine κ D R → G → Except GraphExc (List ℕ) × GraphEngine κ D R × G
  | 0, _, _, ge, g => (.ok [], ge, g)
  | n + 1, nextId, cur, ge, g =>
    if some nextId = eos then (.ok [], ge, g)
    else
      match ge.engine.cache.manager.appendToken seqId with
      | (.error x, m) => (.error (.raised x), ⟨ge.engine.setManager m, ge.graph⟩, g)
      | (.ok (blk, off), m) =>
        match m.blockTable seqId with
        | .error x => (.error (.raised x), ⟨ge.engine.setManager m, ge.graph⟩, g)
        | .ok table =>
          match step T fused ⟨ge.engine.setManager m, ge.graph⟩ reuse table.blockIds nextId cur
            (blk * ge.engine.blockSize + off) with
          | (.error x, ge) => (.error x, ge, g)
          | (.ok logits, ge) =>
            match LLMEngine.sampleNext torch src params logits g with
            | (.error x, g) => (.error (.raised x), ge, g)
            | (.ok t, g) =>
              match decode torch src T fused seqId reuse params eos n t (cur + 1) ge g with
              | (.error x, ge, g) => (.error x, ge, g)
              | (.ok out, ge, g) => (.ok (t :: out), ge, g)

variable [DecidableEq κ]

/-- The body of the `try` of `generate`. -/
def generateBody (H : RollingHash κ) (torch : Torch R) (src : Source R G) (T : Transformer X D R)
    (fused : Option (ℕ → X → List D)) (ge : GraphEngine κ D R) (g : G) (seqId : ℕ)
    (promptIds reuse : List ℕ) (table : BlockTable) (maxNewTokens : ℕ) (params : SamplingParams R)
    (eos : Option ℕ) : Except GraphExc (List ℕ) × GraphEngine κ D R × G :=
  match ge.engine.prefill H torch src (T.withFused fused).runner g seqId promptIds reuse table params with
  | (.error x, e, g) => (.error (.raised x), ⟨e, ge.graph⟩, g)
  | (.ok t, e, g) =>
    match decode torch src T fused seqId reuse params eos (maxNewTokens - 1) t promptIds.length
      ⟨e, ge.graph⟩ g with
    | (.error x, ge, g) => (.error x, ge, g)
    | (.ok out, ge, g) => (.ok (t :: out), ge, g)

/-- `generate` with a graph. -/
def generate (H : RollingHash κ) (torch : Torch R) (src : Source R G) (T : Transformer X D R)
    (fused : Option (ℕ → X → List D)) (ge : GraphEngine κ D R) (g : G) (seqId : ℕ) (promptIds : List ℕ)
    (maxNewTokens : ℕ) (params : SamplingParams R) (eos : Option ℕ) :
    Except GraphExc (List ℕ) × GraphEngine κ D R × G :=
  match ge.engine.adopt H promptIds with
  | (reuse, e) =>
    match e.cache.manager.allocate seqId promptIds.length reuse with
    | (.error x, m) => (.error (.raised x), ⟨e.setManager m, ge.graph⟩, g)
    | (.ok table, m) =>
      match generateBody H torch src T fused ⟨e.setManager m, ge.graph⟩ g seqId promptIds reuse table
        maxNewTokens params eos with
      | (r, ge, g) =>
        match ge.engine.cache.manager.free seqId with
        | (.error x, m) => (.error (.raised x), ⟨ge.engine.setManager m, ge.graph⟩, g)
        | (.ok (), m) => (r, ⟨ge.engine.setManager m, ge.graph⟩, g)

end GraphEngine

end DiSpec
