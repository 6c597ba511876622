/-
# The paged KV pool

`dispec/kv/paged_cache.py`: `PagedKVCache`.

The two tensors `key` and `value` of shape `[layers, slots, kv heads, head_dim]`
are one function from a layer and a slot to the row stored there, a key and a
value vector for each KV head.  A slot is the flat index `block * block_size +
offset`.  torch raises `IndexError` for an index out of range and for a number
of rows that is not the number of slots.  What is assigned to a part of a tensor is
broadcast to its shape; where it cannot be, torch raises `RuntimeError`.

The rows of a sequence are read and written through its block table;
`slotsForPositions_spec` turns that translation into `Paging.slotAt`, which is
how all later proofs speak of slots.
-/

import DiSpec.KV.BlockManager
import DiSpec.Lib.Paging
import DiSpec.Lib.Scatter

namespace DiSpec

/-- The KV of one token in one layer: a vector for each KV head. -/
structure KV (D : Type) where
  key : List D
  value : List D
  deriving DecidableEq

/-- A tensor of shape `[layers, tokens, heads, headDim]`, the last two dimensions as one
list of head vectors for each layer and token.  A head vector of a single element stands for
the vector it is broadcast to. -/
structure KVTensor (D : Type) where
  layers : ℕ
  tokens : ℕ
  heads : ℕ
  headDim : ℕ
  rows : ℕ → ℕ → List D

/-- `PagedKVCache`.  `num_blocks` and `block_size` are those of the manager. -/
structure PagedKVCache (D : Type) where
  numLayers : ℕ
  numKvHeads : ℕ
  headDim : ℕ
  pool : ℕ → ℕ → KV D
  manager : BlockManager

namespace PagedKVCache

variable {D : Type}

/-- `block_size`. -/
def blockSize (c : PagedKVCache D) : ℕ := c.manager.blockSize

/-- The number of slots of the pool. -/
def numSlots (c : PagedKVCache D) : ℕ := c.manager.numBlocks * c.manager.blockSize

/-- `PagedKVCache.__init__`: a pool of zeros. -/
def init [Zero D] (numLayers numBlocks blockSize numKvHeads headDim : ℕ) : PagedKVCache D where
  numLayers := numLayers
  numKvHeads := numKvHeads
  headDim := headDim
  pool _ _ := ⟨List.replicate numKvHeads 0, List.replicate numKvHeads 0⟩
  manager := .init numBlocks blockSize

/-- `write`: `index_copy_` of the rows at the slots of one layer. -/
def write (c : PagedKVCache D) (layer : ℕ) (slots : List ℕ) (rows : List (KV D)) :
    Except Exc Unit × PagedKVCache D :=
  if slots.length = rows.length ∧ ∀ s ∈ slots, s < c.numSlots then
    (.ok (), { c with pool := Function.update c.pool layer (scatter (c.pool layer) slots rows) })
  else (.error .IndexError, c)

/-- `gather`: the rows at the slots of one layer. -/
def gather (c : PagedKVCache D) (layer : ℕ) (slots : List ℕ) : Except Exc (List (KV D)) :=
  if ∀ s ∈ slots, s < c.numSlots then .ok (slots.map (c.pool layer)) else .error .IndexError

/-- `slots_for_positions`: the flat slots of a tensor of positions, of a sequence with `blockIds`. -/
def slotsForPositions (c : PagedKVCache D) (blockIds : List ℕ) : List ℕ → Except Exc (List ℕ)
  | [] => .ok []
  | p :: ps =>
    match blockIds[p / c.blockSize]? with
    | none => .error .IndexError
    | some b =>
      match c.slotsForPositions blockIds ps with
      | .error e => .error e
      | .ok slots => .ok ((b * c.blockSize + p % c.blockSize) :: slots)

/-- `slots_for_positions` of `torch.tensor(pos)`.  The tensor of an empty list is one of floats,
and torch does not index by floats. -/
def slotsForList (c : PagedKVCache D) (blockIds pos : List ℕ) : Except Exc (List ℕ) :=
  if pos = [] then .error .IndexError else c.slotsForPositions blockIds pos

/-- `context_slots`: the flat slots of the first `numTokens` tokens of a sequence. -/
def contextSlots (c : PagedKVCache D) (blockIds : List ℕ) (numTokens : ℕ) : Except Exc (List ℕ) :=
  c.slotsForPositions blockIds (List.range numTokens)

/-- `export_contiguous`: the KV of the first `seqLen` tokens as portable tensors. -/
def exportContiguous (c : PagedKVCache D) (blockIds : List ℕ) (seqLen : ℕ) :
    Except Exc (KVTensor D × KVTensor D) :=
  match c.contextSlots blockIds seqLen with
  | .error e => .error e
  | .ok slots =>
    if ∀ s ∈ slots, s < c.numSlots then
      .ok (⟨c.numLayers, seqLen, c.numKvHeads, c.headDim,
          fun layer p => (c.pool layer (slots.getD p 0)).key⟩,
        ⟨c.numLayers, seqLen, c.numKvHeads, c.headDim,
          fun layer p => (c.pool layer (slots.getD p 0)).value⟩)
    else .error .IndexError

/-- The shape of a cache but for its slots. -/
def dims (c : PagedKVCache D) : ℕ × ℕ × ℕ := (c.numLayers, c.numKvHeads, c.headDim)

end PagedKVCache

namespace KVTensor

variable {D : Type}

/-- The tensor has the shape of the first `n` tokens of a sequence in `c`. -/
def Shaped (c : PagedKVCache D) (n : ℕ) (k : KVTensor D) : Prop :=
  (k.layers, k.tokens, k.heads, k.headDim) = (c.numLayers, n, c.numKvHeads, c.headDim)

/-- The tensor can be broadcast to that shape: each of its dimensions is the one there, or 1. -/
def Broadcasts (c : PagedKVCache D) (n : ℕ) (k : KVTensor D) : Prop :=
  (k.layers = c.numLayers ∨ k.layers = 1) ∧ (k.tokens = n ∨ k.tokens = 1) ∧
    (k.heads = c.numKvHeads ∨ k.heads = 1) ∧ (k.headDim = c.headDim ∨ k.headDim = 1)

instance (c : PagedKVCache D) (n : ℕ) (k : KVTensor D) : Decidable (k.Broadcasts c n) :=
  inferInstanceAs (Decidable (_ ∧ _ ∧ _ ∧ _))

/-- The head vectors of a layer and a token of the tensor broadcast. -/
def broadcastRow (k : KVTensor D) (heads layer p : ℕ) : List D :=
  let row := k.rows (if k.layers = 1 then 0 else layer) (if k.tokens = 1 then 0 else p)
  if k.heads = heads then row else (List.replicate heads row).flatten

/-- A shape is one of a cache whatever it stores. -/
theorem Shaped.congr {c c' : PagedKVCache D} {n : ℕ} {k : KVTensor D} (h : k.Shaped c n)
    (hdims : c'.dims = c.dims) : k.Shaped c' n := by
  simp only [PagedKVCache.dims, Prod.mk.injEq] at hdims
  rw [Shaped, hdims.1, hdims.2.1, hdims.2.2]
  exact h

theorem Shaped.broadcasts {c : PagedKVCache D} {n : ℕ} {k : KVTensor D} (h : k.Shaped c n) :
    k.Broadcasts c n := by
  simp only [Shaped, Prod.mk.injEq] at h
  exact ⟨Or.inl h.1, Or.inl h.2.1, Or.inl h.2.2.1, Or.inl h.2.2.2⟩

/-- A tensor of the very shape is not changed. -/
theorem Shaped.broadcastRow_eq {c : PagedKVCache D} {n : ℕ} {k : KVTensor D} (h : k.Shaped c n)
    {layer p : ℕ} (hl : layer < c.numLayers) (hp : p < n) :
    k.broadcastRow c.numKvHeads layer p = k.rows layer p := by
  simp only [Shaped, Prod.mk.injEq] at h
  obtain ⟨h₁, h₂, h₃, -⟩ := h
  have hlayer : (if k.layers = 1 then 0 else layer) = layer := by
    split <;> omega
  have hpos : (if k.tokens = 1 then 0 else p) = p := by
    split <;> omega
  simp only [broadcastRow, if_pos h₃, hlayer, hpos]

end KVTensor

namespace PagedKVCache

variable {D : Type}

/-- The tensor with rows `old` after `t[:, slots] = x`: `x` is broadcast to the rows it replaces. -/
def assignSlots (c : PagedKVCache D) (old : ℕ → ℕ → List D) (slots : List ℕ) (x : KVTensor D) :
    Except Exc (ℕ → ℕ → List D) :=
  if ¬x.Broadcasts c slots.length then .error .RuntimeError
  else if ∀ s ∈ slots, s < c.numSlots then
    .ok fun layer =>
      if layer < c.numLayers then
        scatter (old layer) slots ((List.range slots.length).map (x.broadcastRow c.numKvHeads layer))
      else old layer
  else .error .IndexError

/-- `import_contiguous`: scatter portable tensors into the paged blocks, in every layer. -/
def importContiguous (c : PagedKVCache D) (blockIds : List ℕ) (k v : KVTensor D) :
    Except Exc Unit × PagedKVCache D :=
  match c.contextSlots blockIds k.tokens with
  | .error e => (.error e, c)
  | .ok slots =>
    match c.assignSlots (fun layer s => (c.pool layer s).key) slots k with
    | .error e => (.error e, c)
    | .ok key =>
      match c.assignSlots (fun layer s => (c.pool layer s).value) slots v with
      -- the keys are written by then
      | .error e => (.error e, { c with pool := fun layer s => ⟨key layer s, (c.pool layer s).value⟩ })
      | .ok value => (.ok (), { c with pool := fun layer s => ⟨key layer s, value layer s⟩ })

/-- **Translation within the table** never fails: position `p` goes to its paged slot. -/
theorem slotsForPositions_spec (c : PagedKVCache D) (hbs : 0 < c.blockSize) (ids : List ℕ)
    {ps : List ℕ} (h : ∀ p ∈ ps, p < ids.length * c.blockSize) :
    c.slotsForPositions ids ps = .ok (ps.map (Paging.slotAt c.blockSize ids)) := by
  induction ps with
  | nil => rfl
  | cons p ps ih =>
    have hp := Paging.div_lt hbs (h p List.mem_cons_self)
    have hget := List.getElem?_eq_getElem hp
    rw [slotsForPositions, hget, ih fun q hq => h q (List.mem_cons_of_mem _ hq), List.map_cons,
      Paging.slotAt_of_getElem? hget]

/-- Of some positions, a list is as good as a tensor of integers. -/
theorem slotsForList_range' (c : PagedKVCache D) (ids : List ℕ) (start : ℕ) {n : ℕ} (hn : 1 ≤ n) :
    c.slotsForList ids (List.range' start n) = c.slotsForPositions ids (List.range' start n) := by
  refine if_neg fun hnil => ?_
  have := congrArg List.length hnil
  rw [List.length_range', List.length_nil] at this
  omega

/-- The context slots of a table with room for the context. -/
theorem contextSlots_spec (c : PagedKVCache D) (hbs : 0 < c.blockSize) {ids : List ℕ} {n : ℕ}
    (h : n ≤ ids.length * c.blockSize) :
    c.contextSlots ids n = .ok ((List.range n).map (Paging.slotAt c.blockSize ids)) :=
  c.slotsForPositions_spec hbs ids fun _ hp => (List.mem_range.1 hp).trans_le h

/-- The slots of positions are as many. -/
theorem length_slotsForPositions {c : PagedKVCache D} {blockIds : List ℕ} {ps slots : List ℕ}
    (h : c.slotsForPositions blockIds ps = .ok slots) : slots.length = ps.length := by
  induction ps generalizing slots with
  | nil =>
    obtain rfl := Except.ok.inj h
    rfl
  | cons p ps ih =>
    rw [slotsForPositions] at h
    rcases hb : blockIds[p / c.blockSize]? with _ | b
    · rw [hb] at h
      cases h
    · rcases hs : c.slotsForPositions blockIds ps with x | slots'
      · simp only [hb, hs] at h
        cases h
      · simp only [hb, hs] at h
        obtain rfl := Except.ok.inj h
        exact congrArg (· + 1) (ih hs)

/-- Positions that have slots lie within the table. -/
theorem lt_of_slotsForPositions {c : PagedKVCache D} (hbs : 0 < c.blockSize) {ids ps slots : List ℕ}
    (h : c.slotsForPositions ids ps = .ok slots) : ∀ p ∈ ps, p < ids.length * c.blockSize := by
  induction ps generalizing slots with
  | nil => exact fun p hp => absurd hp List.not_mem_nil
  | cons p ps ih =>
    rw [slotsForPositions] at h
    rcases hb : ids[p / c.blockSize]? with _ | b
    · rw [hb] at h
      cases h
    rcases hs : c.slotsForPositions ids ps with x | slots'
    · simp only [hb, hs] at h
      cases h
    intro q hq
    rcases List.mem_cons.1 hq with rfl | hq
    · exact (Nat.div_lt_iff_lt_mul hbs).1 (List.getElem?_eq_some_iff.1 hb).1
    · exact ih hs q hq

/-- The slots of positions lie in the blocks of the sequence. -/
theorem div_mem_of_slotsForPositions (c : PagedKVCache D) (hbs : 0 < c.blockSize) {ids ps slots : List ℕ}
    (h : c.slotsForPositions ids ps = .ok slots) : ∀ sl ∈ slots, sl / c.blockSize ∈ ids := by
  induction ps generalizing slots with
  | nil =>
    obtain rfl := Except.ok.inj h
    exact fun sl hsl => absurd hsl List.not_mem_nil
  | cons p ps ih =>
    rw [slotsForPositions] at h
    split at h
    next => cases h
    next b hb =>
      split at h
      next => cases h
      next slots' hslots =>
        obtain rfl := Except.ok.inj h
        intro sl hsl
        rcases List.mem_cons.1 hsl with rfl | hsl
        · rw [Nat.mul_comm, Nat.mul_add_div hbs, Nat.div_eq_of_lt (Nat.mod_lt p hbs)]
          exact List.mem_of_getElem? hb
        · exact ih hslots sl hsl

/-- **An assignment** changes rows at its slots only. -/
theorem assignSlots_frame {c : PagedKVCache D} {old new : ℕ → ℕ → List D} {slots : List ℕ} {x : KVTensor D}
    (h : c.assignSlots old slots x = .ok new) (i : ℕ) {sl : ℕ} (hsl : sl ∉ slots) : new i sl = old i sl := by
  unfold assignSlots at h
  split at h
  next => cases h
  next =>
    split at h
    next =>
      obtain rfl := Except.ok.inj h
      simp only
      split
      next => exact scatter_of_notMem _ _ hsl
      next => rfl
    next => cases h

/-- An assignment that returns got a tensor that can be broadcast. -/
theorem assignSlots_broadcasts {c : PagedKVCache D} {old new : ℕ → ℕ → List D} {slots : List ℕ}
    {x : KVTensor D} (h : c.assignSlots old slots x = .ok new) : x.Broadcasts c slots.length := by
  unfold assignSlots at h
  split at h
  next => cases h
  next hx => exact not_not.1 hx

/-- **An assignment to distinct slots of the pool** of a tensor that can be broadcast. -/
theorem assignSlots_spec (c : PagedKVCache D) (old : ℕ → ℕ → List D) {slot : ℕ → ℕ} {n : ℕ} {x : KVTensor D}
    (hx : x.Broadcasts c n) (hlt : ∀ p < n, slot p < c.numSlots)
    (hdistinct : ((List.range n).map slot).Nodup) :
    ∃ new, c.assignSlots old ((List.range n).map slot) x = .ok new ∧
      ∀ i < c.numLayers, ∀ p < n, new i (slot p) = x.broadcastRow c.numKvHeads i p := by
  have hlen : ((List.range n).map slot).length = n := by rw [List.length_map, List.length_range]
  have hall : ∀ s ∈ (List.range n).map slot, s < c.numSlots := by
    intro s hs
    obtain ⟨p, hp, rfl⟩ := List.mem_map.1 hs
    exact hlt p (List.mem_range.1 hp)
  refine ⟨fun i => if i < c.numLayers then
      scatter (old i) ((List.range n).map slot) ((List.range n).map (x.broadcastRow c.numKvHeads i))
    else old i, ?_, fun i hi p hp => ?_⟩
  · rw [assignSlots, hlen, if_neg (not_not.2 hx), if_pos hall]
  · simp only [if_pos hi]
    exact scatter_map (old i) slot _ hdistinct (List.mem_range.2 hp)

/-- **`import_contiguous` changes the slots of its positions only**, whatever it is given, and nothing
but the pool. -/
theorem importContiguous_frame (c : PagedKVCache D) (ids : List ℕ) (k v : KVTensor D) :
    (c.importContiguous ids k v).2 = { c with pool := (c.importContiguous ids k v).2.pool } ∧
      ∀ i sl, (c.importContiguous ids k v).2.pool i sl ≠ c.pool i sl →
        ∃ slots, c.contextSlots ids k.tokens = .ok slots ∧ sl ∈ slots := by
  unfold importContiguous
  split
  next => exact ⟨rfl, fun i sl hne => absurd rfl hne⟩
  next slots hslots =>
    split
    next => exact ⟨rfl, fun i sl hne => absurd rfl hne⟩
    next key hkey =>
      split
      next =>
        refine ⟨rfl, fun i sl hne => ⟨slots, hslots, by_contra fun hout => hne ?_⟩⟩
        simp only [assignSlots_frame hkey i hout]
      next value hvalue =>
        refine ⟨rfl, fun i sl hne => ⟨slots, hslots, by_contra fun hout => hne ?_⟩⟩
        simp only [assignSlots_frame hkey i hout, assignSlots_frame hvalue i hout]

/-- **An import that returns** got tensors that can be broadcast to its positions, which lie within the
table. -/
theorem importContiguous_ok {c c' : PagedKVCache D} (hbs : 0 < c.blockSize) {ids : List ℕ} {k v : KVTensor D}
    (h : c.importContiguous ids k v = (.ok (), c')) :
    k.Broadcasts c k.tokens ∧ v.Broadcasts c k.tokens ∧ k.tokens ≤ ids.length * c.blockSize := by
  unfold importContiguous at h
  rcases hslots : c.contextSlots ids k.tokens with x | slots
  · simp only [hslots] at h
    cases (Prod.mk.inj h).1
  have hlen : slots.length = k.tokens := (length_slotsForPositions hslots).trans List.length_range
  simp only [hslots] at h
  rcases hkey : c.assignSlots (fun layer s => (c.pool layer s).key) slots k with x | key
  · simp only [hkey] at h
    cases (Prod.mk.inj h).1
  simp only [hkey] at h
  rcases hvalue : c.assignSlots (fun layer s => (c.pool layer s).value) slots v with x | value
  · simp only [hvalue] at h
    cases (Prod.mk.inj h).1
  refine ⟨hlen ▸ assignSlots_broadcasts hkey, hlen ▸ assignSlots_broadcasts hvalue, ?_⟩
  by_contra hlt
  exact lt_irrefl _ (lt_of_slotsForPositions hbs hslots _ (List.mem_range.2 (not_le.1 hlt)))

theorem importContiguous_manager (c : PagedKVCache D) (ids : List ℕ) (k v : KVTensor D) :
    (c.importContiguous ids k v).2.manager = c.manager := by
  rw [(c.importContiguous_frame ids k v).1]

theorem importContiguous_dims (c : PagedKVCache D) (ids : List ℕ) (k v : KVTensor D) :
    (c.importContiguous ids k v).2.dims = c.dims := by
  rw [(c.importContiguous_frame ids k v).1, dims, dims]

/-- So it changes slots of the given blocks only. -/
theorem importContiguous_div_mem (c : PagedKVCache D) (hbs : 0 < c.blockSize) (ids : List ℕ)
    (k v : KVTensor D) (i sl : ℕ) (h : (c.importContiguous ids k v).2.pool i sl ≠ c.pool i sl) :
    sl / c.blockSize ∈ ids := by
  obtain ⟨slots, hslots, hmem⟩ := (c.importContiguous_frame ids k v).2 i sl h
  exact c.div_mem_of_slotsForPositions hbs hslots sl hmem

/-- **`export_contiguous`** reads the rows of the first tokens from their slots, in every layer. -/
theorem exportContiguous_spec (c : PagedKVCache D) (hbs : 0 < c.blockSize) {ids : List ℕ} {n : ℕ}
    (hin : ∀ b ∈ ids, b < c.manager.numBlocks) (hroom : n ≤ ids.length * c.blockSize) :
    ∃ k v, c.exportContiguous ids n = .ok (k, v) ∧ k.tokens = n ∧ ∀ i p, p < n →
      (⟨k.rows i p, v.rows i p⟩ : KV D) = c.pool i (Paging.slotAt c.blockSize ids p) := by
  have hlt : ∀ sl ∈ (List.range n).map (Paging.slotAt c.blockSize ids), sl < c.numSlots := by
    intro sl hsl
    obtain ⟨p, hp, rfl⟩ := List.mem_map.1 hsl
    exact Paging.slotAt_lt hbs hin ((List.mem_range.1 hp).trans_le hroom)
  unfold exportContiguous
  rw [c.contextSlots_spec hbs hroom]
  simp only [if_pos hlt]
  refine ⟨_, _, rfl, rfl, fun i p hp => ?_⟩
  have hget : ((List.range n).map (Paging.slotAt c.blockSize ids)).getD p 0 =
      Paging.slotAt c.blockSize ids p := by
    rw [List.getD_eq_getElem _ _ (by simpa using hp), List.getElem_map, List.getElem_range]
  simp only [hget]

/-- The shape of what `export_contiguous` returns. -/
theorem exportContiguous_shape {c : PagedKVCache D} {ids : List ℕ} {n : ℕ} {k v : KVTensor D}
    (h : c.exportContiguous ids n = .ok (k, v)) :
    (k.layers, k.tokens, k.heads, k.headDim) = (c.numLayers, n, c.numKvHeads, c.headDim) ∧
      (v.layers, v.tokens, v.heads, v.headDim) = (c.numLayers, n, c.numKvHeads, c.headDim) := by
  rw [exportContiguous] at h
  split at h
  next => cases h
  next slots _ =>
    split at h
    next =>
      obtain ⟨rfl, rfl⟩ := Prod.mk.inj (Except.ok.inj h)
      exact ⟨rfl, rfl⟩
    next => cases h

/-- **`import_contiguous`** puts the rows of the first tokens, broadcast, in their slots in every
layer of the pool, and writes no other slot. -/
theorem importContiguous_broadcasts (c : PagedKVCache D) (hbs : 0 < c.blockSize) {ids : List ℕ}
    (hids : ids.Nodup) (hin : ∀ b ∈ ids, b < c.manager.numBlocks) {k v : KVTensor D}
    (hk : k.Broadcasts c k.tokens) (hv : v.Broadcasts c k.tokens)
    (hroom : k.tokens ≤ ids.length * c.blockSize) :
    ∃ pool, c.importContiguous ids k v = (.ok (), { c with pool }) ∧
      (∀ i < c.numLayers, ∀ p < k.tokens, pool i (Paging.slotAt c.blockSize ids p) =
        ⟨k.broadcastRow c.numKvHeads i p, v.broadcastRow c.numKvHeads i p⟩) ∧
      ∀ i sl, sl ∉ (List.range k.tokens).map (Paging.slotAt c.blockSize ids) →
        pool i sl = c.pool i sl := by
  have hlt : ∀ p < k.tokens, Paging.slotAt c.blockSize ids p < c.numSlots := fun p hp =>
    Paging.slotAt_lt hbs hin (hp.trans_le hroom)
  have hdistinct : ((List.range k.tokens).map (Paging.slotAt c.blockSize ids)).Nodup := by
    refine List.Nodup.map_on (fun p hp q hq => ?_) List.nodup_range
    exact Paging.slotAt_inj hbs hids ((List.mem_range.1 hp).trans_le hroom)
      ((List.mem_range.1 hq).trans_le hroom)
  obtain ⟨key, hkey, hkeys⟩ := c.assignSlots_spec (fun i s => (c.pool i s).key) hk hlt hdistinct
  obtain ⟨value, hvalue, hvalues⟩ := c.assignSlots_spec (fun i s => (c.pool i s).value) hv hlt hdistinct
  refine ⟨fun i s => ⟨key i s, value i s⟩, ?_, fun i hi p hp => ?_, fun i sl hsl => ?_⟩
  · simp only [importContiguous, c.contextSlots_spec hbs hroom, hkey, hvalue]
  · simp only [hkeys i hi p hp, hvalues i hi p hp]
  · simp only [assignSlots_frame hkey i hsl, assignSlots_frame hvalue i hsl]

/-- **`import_contiguous` of tensors of the pool's shape** puts their rows in the slots as they are. -/
theorem importContiguous_spec (c : PagedKVCache D) (hbs : 0 < c.blockSize) {ids : List ℕ}
    (hids : ids.Nodup) (hin : ∀ b ∈ ids, b < c.manager.numBlocks) {k v : KVTensor D}
    (hk : k.Shaped c k.tokens) (hv : v.Shaped c k.tokens) (hroom : k.tokens ≤ ids.length * c.blockSize) :
    ∃ pool, c.importContiguous ids k v = (.ok (), { c with pool }) ∧
      (∀ i < c.numLayers, ∀ p < k.tokens,
        pool i (Paging.slotAt c.blockSize ids p) = ⟨k.rows i p, v.rows i p⟩) ∧
      ∀ i sl, sl ∉ (List.range k.tokens).map (Paging.slotAt c.blockSize ids) →
        pool i sl = c.pool i sl := by
  obtain ⟨pool, himp, hrows, hkeep⟩ := c.importContiguous_broadcasts hbs hids hin hk.broadcasts hv.broadcasts hroom
  refine ⟨pool, himp, fun i hi p hp => ?_, hkeep⟩
  rw [hrows i hi p hp, hk.broadcastRow_eq hi hp, hv.broadcastRow_eq hi hp]

end PagedKVCache

end DiSpec
