/-
# The Triton decode kernels

`dispec/engine/triton_attn.py`: `_paged_decode_kernel`, `_batched_paged_decode_kernel`
and their wrappers; and the decode fast path of `dispec/engine/model_runner.py`
(`attn_backend="triton"`), over exact real numbers.

A tensor is memory with an address for each element, row-major; a pointer is a
function from addresses.  One program computes one query head of one sequence.  It
scales its query, reads the slots of its sequence in blocks of `BLOCK_N` lanes, the
lanes past `ctx_len` being masked to the score `-∞`, and keeps the online softmax of
`Lib/OnlineSoftmax.lean` from block to block.  The two kernels differ in where a
program finds its query, its context length and its slots.

`none` stands for an output that is not a number.
-/

import DiSpec.Engine.ModelRunner
import DiSpec.Lib.OnlineSoftmax
import Mathlib.Analysis.SpecialFunctions.Pow.Real

namespace DiSpec

open OnlineSoftmax

/-- A tensor of shape `[_, heads, d]` in memory. -/
def rowMajor {d : ℕ} (heads : ℕ) (x : ℕ → ℕ → Fin d → ℝ) (a : ℕ) : ℝ :=
  if h : a % d < d then x (a / (heads * d)) (a / d % heads) ⟨a % d, h⟩ else 0

/-- An element is at its row, head and lane. -/
theorem rowMajor_at {d : ℕ} {heads h : ℕ} (hh : h < heads) (x : ℕ → ℕ → Fin d → ℝ) (i : ℕ) (j : Fin d) :
    rowMajor heads x (i * (heads * d) + h * d + j) = x i h j := by
  have hd : 0 < d := j.pos
  have hmod : (i * (heads * d) + h * d + j) % d = j := by
    rw [← Nat.mul_assoc, ← Nat.add_mul, Nat.mul_comm, Nat.mul_add_mod, Nat.mod_eq_of_lt j.isLt]
  have hdiv : (i * (heads * d) + h * d + j) / d = i * heads + h := by
    rw [← Nat.mul_assoc, ← Nat.add_mul, Nat.mul_comm, Nat.mul_add_div hd, Nat.div_eq_of_lt j.isLt,
      Nat.add_zero]
  have hhead : (i * (heads * d) + h * d + j) / d % heads = h := by
    rw [hdiv, Nat.mul_comm, Nat.mul_add_mod, Nat.mod_eq_of_lt hh]
  have hrow : (i * (heads * d) + h * d + j) / (heads * d) = i := by
    rw [Nat.mul_comm heads, ← Nat.div_div_eq_div_mul, Nat.mul_comm d, hdiv, Nat.mul_comm,
      Nat.mul_add_div (by omega), Nat.div_eq_of_lt hh, Nat.add_zero]
  rw [rowMajor, dif_pos (by rw [hmod]; exact j.isLt), hrow, hhead]
  exact congrArg _ (Fin.ext hmod)

namespace Triton

/-- `tl.load(ptr + off, mask=mask, other=other)`. -/
def load {α : Type} (ptr : ℕ → α) (off : ℕ) (mask : Prop) [Decidable mask] (other : α) : α :=
  if mask then ptr off else other

/-- The key and value cache of one layer: two pointers with the same strides. -/
structure KVMemory where
  kPtr : ℕ → ℝ
  vPtr : ℕ → ℝ
  strideKslot : ℕ
  strideKhead : ℕ

/-- `start + tl.arange(0, BLOCK_N)` for `start` in `range(0, ctx_len, BLOCK_N)`. -/
def offsets (ctxLen blockN : ℕ) : List (List ℕ) :=
  (List.range ((ctxLen + blockN - 1) / blockN)).map fun i => (List.range blockN).map (i * blockN + ·)

variable {d : ℕ}

/-- Lane `n` of a block: its score and its value. -/
noncomputable def lane (q : Fin d → ℝ) (mem : KVMemory) (slotsPtr : ℕ → ℕ) (ctxLen kvHead n : ℕ) :
    Score × (Fin d → ℝ) :=
  let slot := load slotsPtr n (n < ctxLen) 0
  let base (j : Fin d) := slot * mem.strideKslot + kvHead * mem.strideKhead + j
  let k (j : Fin d) := load mem.kPtr (base j) (n < ctxLen) 0
  let v (j : Fin d) := load mem.vPtr (base j) (n < ctxLen) 0
  (if n < ctxLen then ((∑ j, q j * k j : ℝ) : Score) else ⊥, v)

/-- The loop of both kernels: `m_i`, `l_i` and `acc` after the last block. -/
noncomputable def loop (q : Fin d → ℝ) (mem : KVMemory) (slotsPtr : ℕ → ℕ) (ctxLen kvHead blockN : ℕ) :
    Option (Acc (Fin d → ℝ)) :=
  run .start ((offsets ctxLen blockN).map fun offs => offs.map (lane q mem slotsPtr ctxLen kvHead))

/-- `acc / l_i`. -/
noncomputable def quotient (a : Acc (Fin d → ℝ)) : Option (Fin d → ℝ) :=
  if a.denom = 0 then none else some fun j => a.numer j / a.denom

/-- The loop of `_paged_decode_kernel` in the program of a head. -/
noncomputable def pagedDecodeLoop (qPtr : ℕ → ℝ) (mem : KVMemory) (slotsPtr : ℕ → ℕ) (ctxLen : ℕ)
    (scale : ℝ) (kvGroups headDim blockN head : ℕ) : Option (Acc (Fin headDim → ℝ)) :=
  loop (fun j => qPtr (head * headDim + j) * scale) mem slotsPtr ctxLen (head / kvGroups) blockN

/-- `_paged_decode_kernel`: what the program of a head stores. -/
noncomputable def pagedDecodeKernel (qPtr : ℕ → ℝ) (mem : KVMemory) (slotsPtr : ℕ → ℕ) (ctxLen : ℕ)
    (scale : ℝ) (kvGroups headDim blockN head : ℕ) : Option (Fin headDim → ℝ) :=
  (pagedDecodeLoop qPtr mem slotsPtr ctxLen scale kvGroups headDim blockN head).bind quotient

/-- The loop of `_batched_paged_decode_kernel` in the program of a sequence and a head. -/
noncomputable def batchedPagedDecodeLoop (qPtr : ℕ → ℝ) (mem : KVMemory) (slotTablePtr ctxLensPtr : ℕ → ℕ)
    (scale : ℝ) (kvGroups strideQb strideTb headDim blockN b head : ℕ) :
    Option (Acc (Fin headDim → ℝ)) :=
  loop (fun j => qPtr (b * strideQb + head * headDim + j) * scale) mem
    (fun n => slotTablePtr (b * strideTb + n)) (ctxLensPtr b) (head / kvGroups) blockN

/-- `_batched_paged_decode_kernel`: what the program of a sequence and a head stores. -/
noncomputable def batchedPagedDecodeKernel (qPtr : ℕ → ℝ) (mem : KVMemory) (slotTablePtr ctxLensPtr : ℕ → ℕ)
    (scale : ℝ) (kvGroups strideQb strideTb headDim blockN b head : ℕ) : Option (Fin headDim → ℝ) :=
  (batchedPagedDecodeLoop qPtr mem slotTablePtr ctxLensPtr scale kvGroups strideQb strideTb headDim blockN b
    head).bind quotient

/-- `scale or head_dim ** -0.5`. -/
noncomputable def scaleOr (headDim : ℕ) (scale : Option ℝ) : ℝ :=
  match scale with
  | none => (headDim : ℝ) ^ (-(1 / 2) : ℝ)
  | some s => if s = 0 then (headDim : ℝ) ^ (-(1 / 2) : ℝ) else s

end Triton

open Triton

variable {d : ℕ} {X R : Type}

/-- The pointers and strides of one layer of the pool. -/
def PagedKVCache.memory (c : PagedKVCache (Fin d → ℝ)) (layer : ℕ) : KVMemory where
  kPtr := rowMajor c.numKvHeads fun s h => (c.pool layer s).key.getD h 0
  vPtr := rowMajor c.numKvHeads fun s h => (c.pool layer s).value.getD h 0
  strideKslot := c.numKvHeads * d
  strideKhead := d

/-- The pointer of a query tensor of shape `[B, heads, d]`. -/
def qMemory (heads : ℕ) (q : List (List (Fin d → ℝ))) : ℕ → ℝ :=
  rowMajor heads fun b h => (q.getD b []).getD h 0

/-- `decode_batch`: the padded slot table, of shape `[B, max_ctx]`, and the context lengths. -/
structure DecodeBatch where
  maxCtx : ℕ
  slotTable : List (List ℕ)
  ctxLens : List ℕ

/-- The pointer of the context lengths. -/
def DecodeBatch.ctxLensPtr (batch : DecodeBatch) (b : ℕ) : ℕ := batch.ctxLens.getD b 0

/-- The pointer of the slot table. -/
def DecodeBatch.slotTablePtr (batch : DecodeBatch) (a : ℕ) : ℕ :=
  (batch.slotTable.getD (a / batch.maxCtx) []).getD (a % batch.maxCtx) 0

/-- `batched_paged_decode_attention(q, cache.key[layer], cache.value[layer], slot_table, ctx_lens,
kv_groups, scale)`, with the source's `BLOCK_N` as an argument. -/
noncomputable def batchedPagedDecodeAttention (blockN heads : ℕ) (q : List (List (Fin d → ℝ)))
    (mem : KVMemory) (batch : DecodeBatch) (kvGroups : ℕ) (scale : Option ℝ) :
    Option (List (List (Fin d → ℝ))) :=
  (List.range q.length).mapM fun b => (List.range heads).mapM fun head =>
    batchedPagedDecodeKernel (qMemory heads q) mem batch.slotTablePtr batch.ctxLensPtr (scaleOr d scale)
      kvGroups (heads * d) batch.maxCtx d blockN b head

/-- `paged_decode_attention(q, cache.key[layer], cache.value[layer], slots, kv_groups, scale)`. -/
noncomputable def pagedDecodeAttention (blockN heads : ℕ) (q : List (Fin d → ℝ)) (mem : KVMemory)
    (slots : List ℕ) (kvGroups : ℕ) (scale : Option ℝ) : Option (List (Fin d → ℝ)) :=
  (List.range heads).mapM fun head =>
    pagedDecodeKernel (qMemory heads [q]) mem (fun n => slots.getD n 0) slots.length (scaleOr d scale)
      kvGroups d blockN head

/-- The rows of `slot_table`: the context slots of each sequence, then zeros up to `max_ctx`. -/
def slotRows {D : Type} (c : PagedKVCache D) (maxCtx : ℕ) : List SeqMeta → Except Exc (List (List ℕ))
  | [] => .ok []
  | info :: rest =>
    match c.contextSlots info.blockIds info.ctxLen with
    | .error e => .error e
    | .ok slots =>
      match slotRows c maxCtx rest with
      | .error e => .error e
      | .ok rows => .ok ((slots ++ List.replicate (maxCtx - info.ctxLen) 0) :: rows)

/-- The `decode_batch` that `forward` builds for an all-decode batch. -/
def decodeBatch {D : Type} (c : PagedKVCache D) (seqMeta : List SeqMeta) : Except Exc DecodeBatch :=
  let ctxLens := seqMeta.map SeqMeta.ctxLen
  let maxCtx := ctxLens.foldr max 0
  match slotRows c maxCtx seqMeta with
  | .error e => .error e
  | .ok slotTable => .ok ⟨maxCtx, slotTable, ctxLens⟩

namespace Transformer

/-- `self.scale`. -/
noncomputable def scale (_ : Transformer X (Fin d → ℝ) R) : ℝ := (d : ℝ) ^ (-(1 / 2) : ℝ)

/-- `_attention` with a `decode_batch`. -/
noncomputable def attentionDecode (T : Transformer X (Fin d → ℝ) R) (layer : ℕ) (x : List X)
    (positions writeSlots : List ℕ) (batch : DecodeBatch) (c : PagedKVCache (Fin d → ℝ)) :
    Option (Except Exc (List X) × PagedKVCache (Fin d → ℝ)) :=
  let q := List.zipWith (T.query layer) positions x
  let kv := List.zipWith (T.keyValue layer) positions x
  match c.write layer writeSlots kv with
  | (.error e, c) => some (.error e, c)
  | (.ok (), c) =>
    match batchedPagedDecodeAttention 128 T.numHeads q (c.memory layer) batch T.kvGroups (some T.scale) with
    | none => none
    | some o => some (.ok (o.map (T.oProj layer)), c)

/-- The layers `i`, …, `i + n - 1` of `forward` with a `decode_batch`. -/
noncomputable def layersDecode [Add X] (T : Transformer X (Fin d → ℝ) R) (positions writeSlots : List ℕ)
    (batch : DecodeBatch) : (i n : ℕ) → List X → PagedKVCache (Fin d → ℝ) →
      Option (Except Exc (List X) × PagedKVCache (Fin d → ℝ))
  | _, 0, x, c => some (.ok x, c)
  | i, n + 1, x, c =>
    match T.attentionDecode i (x.map (T.inputLayernorm i)) positions writeSlots batch c with
    | none => none
    | some (.error e, c) => some (.error e, c)
    | some (.ok o, c) =>
      let x := List.zipWith (· + ·) x o
      let h := x.map (T.postAttentionLayernorm i)
      T.layersDecode positions writeSlots batch (i + 1) n (List.zipWith (· + ·) x (h.map (T.mlp i))) c

/-- `forward` with `attn_backend="triton"`. -/
noncomputable def forwardTriton [Add X] (T : Transformer X (Fin d → ℝ) R)
    (tokenIds positions writeSlots : List ℕ) (seqMeta : List SeqMeta) (c : PagedKVCache (Fin d → ℝ)) :
    Option (Except Exc (List X) × PagedKVCache (Fin d → ℝ)) :=
  if seqMeta ≠ [] ∧ ∀ info ∈ seqMeta, info.qLen = 1 then
    match decodeBatch c seqMeta with
    | .error e => some (.error e, c)
    | .ok batch =>
      match T.layersDecode positions writeSlots batch 0 T.numLayers (tokenIds.map T.embed) c with
      | none => none
      | some (.error e, c) => some (.error e, c)
      | some (.ok x, c) => some (.ok (x.map T.norm), c)
  else some (T.forward tokenIds positions writeSlots seqMeta c)

end Transformer

/-- `scaled_dot_product_attention` of one query head over the keys and values it may see, in
exact arithmetic and with its default scale `1 / sqrt(head_dim)`. -/
noncomputable def sdpa (q : Fin d → ℝ) (ctx : List ((Fin d → ℝ) × (Fin d → ℝ))) : Fin d → ℝ :=
  average (ctx.map fun kv => ((∑ j, q j * kv.1 j) / √d, kv.2))

end DiSpec
