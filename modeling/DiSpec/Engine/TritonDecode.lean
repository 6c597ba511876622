/-
# The Triton decode path is native attention

For a batch of single new tokens the kernels of `Engine/TritonAttn.lean` compute what the
native path computes.  A program reads the blocks of its own row of the slot table; past
`ctx_len` every lane is masked, so neither the padding nor any other row is seen
(`batchedPagedDecodeKernel_spec` speaks of any table that starts with the sequence's slots).
The loop is the online softmax over these lanes, hence the softmax average over the
sequence's context (`loop_spec`), which is what `scaled_dot_product_attention` gives on the
gathered rows.

`forwardTriton_eq` carries this through the layers: the whole forward is the native one,
fresh sequences included, for which the native path does not gather at all.
-/

import DiSpec.Engine.TritonAttn

namespace DiSpec

open OnlineSoftmax

namespace Triton

/-- A block starts within the context. -/
theorem exists_lt_of_mem_offsets {ctxLen blockN : ℕ} (hn : 1 ≤ blockN) {offs : List ℕ}
    (h : offs ∈ offsets ctxLen blockN) : ∃ n ∈ offs, n < ctxLen := by
  obtain ⟨i, hi, rfl⟩ := List.mem_map.1 h
  have hi := List.mem_range.1 hi
  refine ⟨i * blockN, List.mem_map.2 ⟨0, List.mem_range.2 hn, Nat.add_zero _⟩, ?_⟩
  have := (Nat.lt_div_iff_mul_lt hn).1 hi
  omega

/-- The blocks cover the offsets from zero on. -/
theorem offsets_flatten (ctxLen blockN : ℕ) :
    (offsets ctxLen blockN).flatten = List.range ((ctxLen + blockN - 1) / blockN * blockN) := by
  rw [offsets]
  generalize (ctxLen + blockN - 1) / blockN = k
  induction k with
  | zero => simp
  | succ k ih =>
    rw [List.range_succ, List.map_append, List.flatten_append, ih, Nat.succ_mul, List.range_add]
    simp

/-- The blocks reach the end of the context. -/
theorem le_blocks (ctxLen : ℕ) {blockN : ℕ} (hn : 1 ≤ blockN) :
    ctxLen ≤ (ctxLen + blockN - 1) / blockN * blockN := by
  have h := Nat.div_add_mod (ctxLen + blockN - 1) blockN
  have hlt := Nat.mod_lt (ctxLen + blockN - 1) hn
  rw [Nat.mul_comm] at h
  omega

variable {d : ℕ}

/-- **The loop is the softmax** over the context, whatever lies past it and in any other slot. -/
theorem loop_spec {blockN ctxLen : ℕ} (hn : 1 ≤ blockN) (hctx : 1 ≤ ctxLen) (q : Fin d → ℝ)
    (mem : KVMemory) (slotsPtr : ℕ → ℕ) (kvHead : ℕ) {k v : ℕ → Fin d → ℝ}
    (hk : ∀ n < ctxLen, ∀ j : Fin d,
      mem.kPtr (slotsPtr n * mem.strideKslot + kvHead * mem.strideKhead + j) = k n j)
    (hv : ∀ n < ctxLen, ∀ j : Fin d,
      mem.vPtr (slotsPtr n * mem.strideKslot + kvHead * mem.strideKhead + j) = v n j) :
    ∃ a, loop q mem slotsPtr ctxLen kvHead blockN = some a ∧ 0 < a.denom ∧
      quotient a = some (average ((List.range ctxLen).map fun n => (∑ j, q j * k n j, v n))) := by
  have hvisible : ∀ n < ctxLen, lane q mem slotsPtr ctxLen kvHead n = (↑(∑ j, q j * k n j), v n) := by
    intro n hlt
    simp only [lane, load, if_pos hlt, hk n hlt, hv n hlt]
  have hmasked : ∀ n, ctxLen ≤ n → (lane q mem slotsPtr ctxLen kvHead n).1 = ⊥ := by
    intro n hge
    simp only [lane, if_neg (Nat.not_lt.2 hge)]
  obtain ⟨r, hr⟩ := Nat.exists_eq_add_of_le (le_blocks ctxLen hn)
  have hflat : ((offsets ctxLen blockN).map fun offs =>
      offs.map (lane q mem slotsPtr ctxLen kvHead)).flatten =
      visible ((List.range ctxLen).map fun n => (∑ j, q j * k n j, v n)) ++
        ((List.range r).map (ctxLen + ·)).map (lane q mem slotsPtr ctxLen kvHead) := by
    have hvis : (List.range ctxLen).map (lane q mem slotsPtr ctxLen kvHead) =
        visible ((List.range ctxLen).map fun n => (∑ j, q j * k n j, v n)) := by
      rw [visible, List.map_map]
      exact List.map_congr_left fun n hlt => hvisible n (List.mem_range.1 hlt)
    rw [← List.map_flatten, offsets_flatten, hr, List.range_add, List.map_append, hvis]
  have hne : (offsets ctxLen blockN).map (fun offs =>
      offs.map (lane q mem slotsPtr ctxLen kvHead)) ≠ [] := by
    intro hnil
    have hlen : (ctxLen + blockN - 1) / blockN = 0 := by
      simpa [offsets] using congrArg List.length hnil
    have := le_blocks ctxLen hn
    rw [hlen] at this
    omega
  obtain ⟨a, hrun, hpos, havg⟩ := run_average hne (fun lanes hlanes => by
    obtain ⟨offs, hoffs, rfl⟩ := List.mem_map.1 hlanes
    obtain ⟨n, hmem, hlt⟩ := exists_lt_of_mem_offsets hn hoffs
    refine ⟨_, List.mem_map_of_mem hmem, ?_⟩
    rw [hvisible n hlt]
    exact WithBot.coe_ne_bot) hflat (fun l hl => by
      obtain ⟨n, hmem, rfl⟩ := List.mem_map.1 hl
      obtain ⟨i, -, rfl⟩ := List.mem_map.1 hmem
      exact hmasked _ (Nat.le_add_right _ _))
  refine ⟨a, hrun, hpos, ?_⟩
  rw [quotient, if_neg hpos.ne', ← havg]
  refine congrArg some (funext fun j => ?_)
  rw [Pi.smul_apply, smul_eq_mul, div_eq_inv_mul]

end Triton

open Triton

variable {d : ℕ} {X R : Type}

/-- `sum_j softmax(scale * q·k_j) v_j`. -/
noncomputable def attended (scale : ℝ) (q : Fin d → ℝ) (ctx : List ((Fin d → ℝ) × (Fin d → ℝ))) :
    Fin d → ℝ :=
  average (ctx.map fun kv => (scale * ∑ j, q j * kv.1 j, kv.2))

/-- What KV head `kvHead` of a layer holds in the slots. -/
def headContext (c : PagedKVCache (Fin d → ℝ)) (layer kvHead : ℕ) (slots : List ℕ) :
    List ((Fin d → ℝ) × (Fin d → ℝ)) :=
  slots.map fun s => ((c.pool layer s).key.getD kvHead 0, (c.pool layer s).value.getD kvHead 0)

/-- The default scale of the native path is `head_dim ** -0.5`. -/
theorem sdpa_eq (q : Fin d → ℝ) (ctx : List ((Fin d → ℝ) × (Fin d → ℝ))) :
    sdpa q ctx = attended ((d : ℝ) ^ (-(1 / 2) : ℝ)) q ctx := by
  have hscale : (d : ℝ) ^ (-(1 / 2) : ℝ) = (√d)⁻¹ := by
    rw [Real.rpow_neg (Nat.cast_nonneg d), Real.sqrt_eq_rpow]
  rw [sdpa, attended, hscale]
  simp only [div_eq_inv_mul]

/-- `scale or head_dim ** -0.5` on the runner's own scale. -/
theorem scaleOr_scale (T : Transformer X (Fin d → ℝ) R) : scaleOr d (some T.scale) = T.scale := by
  rw [scaleOr, Transformer.scale]
  split <;> rfl

/-- The loop of a program over the slots of a sequence. -/
theorem loop_slots (c : PagedKVCache (Fin d → ℝ)) (layer : ℕ) {blockN kvHead : ℕ} (hn : 1 ≤ blockN)
    (hkv : kvHead < c.numKvHeads) (q : Fin d → ℝ) (scale : ℝ) {slots : List ℕ} (hne : 1 ≤ slots.length)
    (slotsPtr : ℕ → ℕ) (hslots : ∀ n < slots.length, slotsPtr n = slots.getD n 0) :
    ∃ a, loop (fun j => q j * scale) (c.memory layer) slotsPtr slots.length kvHead blockN = some a ∧
      0 < a.denom ∧ quotient a = some (attended scale q (headContext c layer kvHead slots)) := by
  obtain ⟨a, hloop, hpos, hquot⟩ := loop_spec hn hne (fun j => q j * scale) (c.memory layer) slotsPtr kvHead
    (k := fun n => (c.pool layer (slots.getD n 0)).key.getD kvHead 0)
    (v := fun n => (c.pool layer (slots.getD n 0)).value.getD kvHead 0)
    (fun n hlt j => by
      rw [hslots n hlt]
      exact rowMajor_at hkv (fun s h => (c.pool layer s).key.getD h 0) _ j)
    (fun n hlt j => by
      rw [hslots n hlt]
      exact rowMajor_at hkv (fun s h => (c.pool layer s).value.getD h 0) _ j)
  refine ⟨a, hloop, hpos, hquot.trans (congrArg some ?_)⟩
  rw [attended, headContext, List.map_map]
  refine congrArg _ (List.ext_getElem (by simp) fun n h₁ h₂ => ?_)
  rw [List.length_map] at h₂
  simp only [List.getElem_map, List.getElem_range, Function.comp_apply, List.getD_eq_getElem _ _ h₂,
    Finset.mul_sum]
  exact congrArg (·, _) (Finset.sum_congr rfl fun j _ => by ring)

/-- **A program of the batched kernel** sees the query of its row and head and the slots of
its row up to `ctx_len`. -/
theorem batchedPagedDecodeKernel_spec (c : PagedKVCache (Fin d → ℝ)) (layer : ℕ)
    {blockN heads head kvGroups b : ℕ} (hn : 1 ≤ blockN) (hhead : head < heads)
    (hkv : head / kvGroups < c.numKvHeads) (q : List (List (Fin d → ℝ))) (scale : ℝ) (batch : DecodeBatch)
    (slots : List ℕ) (hne : 1 ≤ slots.length) (hlen : batch.ctxLensPtr b = slots.length)
    (hfit : slots.length ≤ batch.maxCtx)
    (hrow : (batch.slotTable.getD b []).take slots.length = slots) :
    ∃ a, batchedPagedDecodeLoop (qMemory heads q) (c.memory layer) batch.slotTablePtr
        batch.ctxLensPtr scale kvGroups (heads * d) batch.maxCtx d blockN b head = some a ∧
      0 < a.denom ∧
      batchedPagedDecodeKernel (qMemory heads q) (c.memory layer) batch.slotTablePtr
          batch.ctxLensPtr scale kvGroups (heads * d) batch.maxCtx d blockN b head =
        some (attended scale ((q.getD b []).getD head 0)
          (headContext c layer (head / kvGroups) slots)) := by
  have hslots : ∀ n < slots.length,
      batch.slotTablePtr (b * batch.maxCtx + n) = slots.getD n 0 := by
    intro n hlt
    have hw : n < batch.maxCtx := by omega
    have hget : (batch.slotTable.getD b [])[n]? = slots[n]? := by
      conv_rhs => rw [← hrow]
      exact (List.getElem?_take_of_lt hlt).symm
    rw [DecodeBatch.slotTablePtr, Nat.mul_comm, Nat.mul_add_div (by omega), Nat.div_eq_of_lt hw,
      Nat.add_zero, Nat.mul_add_mod, Nat.mod_eq_of_lt hw,
      List.getD_eq_getElem?_getD (l := slots), ← hget, List.getD_eq_getElem?_getD]
  obtain ⟨a, hloop, hpos, hquot⟩ :=
    loop_slots c layer hn hkv ((q.getD b []).getD head 0) scale hne _ hslots
  have hq : (fun j : Fin d => qMemory heads q (b * (heads * d) + head * d + j) * scale) =
      fun j => (q.getD b []).getD head 0 j * scale :=
    funext fun j => congrArg (· * scale) (rowMajor_at hhead _ _ j)
  have hloop' : batchedPagedDecodeLoop (qMemory heads q) (c.memory layer) batch.slotTablePtr
      batch.ctxLensPtr scale kvGroups (heads * d) batch.maxCtx d blockN b head =
      some a := by
    rw [batchedPagedDecodeLoop, hq, hlen]
    exact hloop
  refine ⟨a, hloop', hpos, ?_⟩
  rw [batchedPagedDecodeKernel, hloop']
  exact hquot

/-- **A program of the single-query kernel**, in the same way. -/
theorem pagedDecodeKernel_spec (c : PagedKVCache (Fin d → ℝ)) (layer : ℕ)
    {blockN heads head kvGroups : ℕ} (hn : 1 ≤ blockN) (hhead : head < heads)
    (hkv : head / kvGroups < c.numKvHeads) (q : List (Fin d → ℝ)) (scale : ℝ)
    {slots : List ℕ} (hne : 1 ≤ slots.length) :
    pagedDecodeKernel (qMemory heads [q]) (c.memory layer) (fun n => slots.getD n 0) slots.length scale
        kvGroups d blockN head =
      some (attended scale (q.getD head 0) (headContext c layer (head / kvGroups) slots)) := by
  obtain ⟨a, hloop, -, hquot⟩ := loop_slots c layer hn hkv (q.getD head 0) scale hne
    (fun n => slots.getD n 0) fun n _ => rfl
  have hq : (fun j : Fin d => qMemory heads [q] (head * d + j) * scale) =
      fun j => q.getD head 0 j * scale := by
    funext j
    have := rowMajor_at hhead (fun b h => ([q].getD b []).getD h 0) 0 j
    rw [Nat.zero_mul, Nat.zero_add] at this
    exact congrArg (· * scale) this
  rw [pagedDecodeKernel, pagedDecodeLoop, hq, hloop]
  exact hquot

/-- **An all-decode batch**: one new token for each sequence, whose table has room for its context
and lists blocks of the pool. -/
structure Decodes {D : Type} (c : PagedKVCache D) (seqMeta : List SeqMeta) : Prop where
  blockSize_pos : 0 < c.blockSize
  single : ∀ info ∈ seqMeta, info.qLen = 1
  nonempty : ∀ info ∈ seqMeta, 1 ≤ info.ctxLen
  room : ∀ info ∈ seqMeta, info.ctxLen ≤ info.blockIds.length * c.blockSize
  inPool : ∀ info ∈ seqMeta, ∀ b ∈ info.blockIds, b < c.manager.numBlocks

/-- The slots of a sequence's context. -/
def SeqMeta.context (bs : ℕ) (info : SeqMeta) : List ℕ :=
  (List.range info.ctxLen).map (Paging.slotAt bs info.blockIds)

/-- The slot of a sequence's newest token. -/
def SeqMeta.lastSlot (bs : ℕ) (info : SeqMeta) : ℕ := Paging.slotAt bs info.blockIds (info.ctxLen - 1)

@[simp] theorem SeqMeta.length_context (bs : ℕ) (info : SeqMeta) :
    (info.context bs).length = info.ctxLen := by
  simp [context]

section Batch

variable {D : Type} {c : PagedKVCache D} {seqMeta : List SeqMeta}

theorem Decodes.contextSlots (h : Decodes c seqMeta) {info : SeqMeta} (hi : info ∈ seqMeta) :
    c.contextSlots info.blockIds info.ctxLen = .ok (info.context c.blockSize) :=
  c.contextSlots_spec h.blockSize_pos (h.room info hi)

theorem Decodes.context_lt (h : Decodes c seqMeta) {info : SeqMeta} (hi : info ∈ seqMeta) :
    ∀ s ∈ info.context c.blockSize, s < c.numSlots := by
  intro s hs
  obtain ⟨p, hp, rfl⟩ := List.mem_map.1 hs
  exact Paging.slotAt_lt h.blockSize_pos (h.inPool info hi) ((List.mem_range.1 hp).trans_le (h.room info hi))

theorem Decodes.gather (h : Decodes c seqMeta) {info : SeqMeta} (hi : info ∈ seqMeta) (layer : ℕ) :
    c.gather layer (info.context c.blockSize) = .ok ((info.context c.blockSize).map (c.pool layer)) :=
  if_pos (h.context_lt hi)

theorem Decodes.withPool (h : Decodes c seqMeta) (pool : ℕ → ℕ → KV D) :
    Decodes { c with pool } seqMeta :=
  ⟨h.blockSize_pos, h.single, h.nonempty, h.room, h.inPool⟩

theorem slotRows_spec (h : Decodes c seqMeta) (maxCtx : ℕ) :
    slotRows c maxCtx seqMeta = .ok (seqMeta.map fun info =>
      info.context c.blockSize ++ List.replicate (maxCtx - info.ctxLen) 0) := by
  have hall : ∀ infos : List SeqMeta, infos ⊆ seqMeta → slotRows c maxCtx infos =
      .ok (infos.map fun info => info.context c.blockSize ++ List.replicate (maxCtx - info.ctxLen) 0) := by
    intro infos hsub
    induction infos with
    | nil => rfl
    | cons info infos ih =>
      rw [List.cons_subset] at hsub
      rw [slotRows, h.contextSlots hsub.1]
      simp only [ih hsub.2, List.map_cons]
  exact hall seqMeta fun _ hi => hi

/-- **A batch has a row for each sequence**: its context length, and its context slots with a padding. -/
def DecodeBatch.Tabulates (batch : DecodeBatch) (bs : ℕ) (seqMeta : List SeqMeta) : Prop :=
  ∀ i info, seqMeta[i]? = some info → batch.ctxLensPtr i = info.ctxLen ∧ info.ctxLen ≤ batch.maxCtx ∧
    (batch.slotTable.getD i []).take info.ctxLen = info.context bs

/-- What `forward` builds. -/
theorem decodeBatch_spec (h : Decodes c seqMeta) :
    ∃ batch, decodeBatch c seqMeta = .ok batch ∧ batch.Tabulates c.blockSize seqMeta := by
  refine ⟨_, by rw [decodeBatch, slotRows_spec h], fun i info hi => ⟨?_, ?_, ?_⟩⟩
  · rw [DecodeBatch.ctxLensPtr, List.getD_eq_getElem?_getD, List.getElem?_map, hi]
    rfl
  · have hle : ∀ xs : List ℕ, ∀ x ∈ xs, x ≤ xs.foldr max 0 := by
      intro xs
      induction xs with
      | nil => exact fun x hx => absurd hx List.not_mem_nil
      | cons y xs ih =>
        intro x hx
        rcases List.mem_cons.1 hx with rfl | hx
        · exact le_max_left _ _
        · exact (ih x hx).trans (le_max_right _ _)
    exact hle _ _ (List.mem_map_of_mem (List.mem_of_getElem? hi))
  · rw [List.getD_eq_getElem?_getD, List.getElem?_map, hi]
    exact List.take_left' (info.length_context c.blockSize)

end Batch

/-- A query head reads a KV head of the pool. -/
theorem Transformer.kvHead_lt (T : Transformer X (Fin d → ℝ) R) (hgqa : T.numKvHeads ∣ T.numHeads) {head : ℕ}
    (hhead : head < T.numHeads) : head / T.kvGroups < T.numKvHeads := by
  obtain ⟨g, hg⟩ := hgqa
  rw [hg] at hhead
  have hkv : 0 < T.numKvHeads := Nat.pos_of_ne_zero fun h0 => by rw [h0] at hhead; omega
  rw [Transformer.kvGroups, hg, Nat.mul_div_cancel_left _ hkv]
  exact Nat.div_lt_of_lt_mul (by rwa [Nat.mul_comm])

/-- The attention output of one row: for each query head, the softmax average over its KV head. -/
noncomputable def Transformer.decodedRow (T : Transformer X (Fin d → ℝ) R) (c : PagedKVCache (Fin d → ℝ))
    (layer : ℕ) (info : SeqMeta) (qi : List (Fin d → ℝ)) : List (Fin d → ℝ) :=
  (List.range T.numHeads).map fun head =>
    attended T.scale (qi.getD head 0) (headContext c layer (head / T.kvGroups) (info.context c.blockSize))

/-- The native path on the gathered rows. -/
theorem attendRow_eq (T : Transformer X (Fin d → ℝ) R) (hattn : T.attn = sdpa) (c : PagedKVCache (Fin d → ℝ))
    (layer : ℕ) (info : SeqMeta) (qi : List (Fin d → ℝ)) :
    T.attendRow qi ((info.context c.blockSize).map (c.pool layer)) = T.decodedRow c layer info qi := by
  refine List.map_congr_left fun head _ => ?_
  rw [hattn, sdpa_eq, List.map_map]
  rfl

/-- **The native loop over an all-decode batch.**  A fresh sequence attends over its row of the batch,
which is what the pool holds at its only slot. -/
theorem attend_decode (T : Transformer X (Fin d → ℝ) R) (hattn : T.attn = sdpa) {c : PagedKVCache (Fin d → ℝ)}
    {seqMeta : List SeqMeta} (h : Decodes c seqMeta) (layer : ℕ) {q : List (List (Fin d → ℝ))}
    {kv : List (KV (Fin d → ℝ))} (hq : q.length = seqMeta.length)
    (hfresh : List.Forall₂ (fun info row => info.ctxLen = 1 →
      row = c.pool layer (info.lastSlot c.blockSize)) seqMeta kv) :
    T.attend c layer seqMeta q kv = .ok (List.zipWith (T.decodedRow c layer) seqMeta q) := by
  have hall : ∀ infos : List SeqMeta, infos ⊆ seqMeta → ∀ q kv, q.length = infos.length →
      List.Forall₂ (fun info row => info.ctxLen = 1 → row = c.pool layer (info.lastSlot c.blockSize))
        infos kv →
      T.attend c layer infos q kv = .ok (List.zipWith (T.decodedRow c layer) infos q) := by
    intro infos hsub
    induction infos with
    | nil => exact fun q kv _ _ => rfl
    | cons info infos ih =>
      intro q kv hq hfresh
      obtain ⟨hi, hsub⟩ := List.cons_subset.1 hsub
      obtain ⟨qi, q, rfl⟩ := List.exists_cons_of_length_eq_add_one hq
      cases hfresh with
      | @cons _ row _ kv hrow hfresh =>
      have hone := h.single info hi
      have hctx : Transformer.context c layer info (row :: kv) =
          .ok ((info.context c.blockSize).map (c.pool layer)) := by
        unfold Transformer.context
        split
        next heq =>
          -- a fresh sequence: its context is its own row
          rw [hone] at heq
          rw [hone, SeqMeta.context, heq, hrow heq, SeqMeta.lastSlot, heq]
          rfl
        next =>
          rw [h.contextSlots hi]
          exact h.gather hi layer
      rw [Transformer.attend, hctx]
      simp only [hone, List.drop_one, List.tail_cons, List.take_succ_cons, List.take_zero, List.mapIdx_cons,
        List.mapIdx_nil, ih hsub q kv (Nat.succ.inj hq) hfresh]
      have hlen : ((info.context c.blockSize).map (c.pool layer)).length ≤ info.ctxLen - 1 + 0 + 1 := by
        rw [List.length_map, SeqMeta.length_context]
        omega
      rw [List.take_of_length_le hlen, attendRow_eq T hattn]
      rfl
  exact hall seqMeta (fun _ hi => hi) q kv hq hfresh

theorem mapM_eq_some {α β : Type} {f : α → Option β} {g : α → β} {xs : List α}
    (h : ∀ x ∈ xs, f x = some (g x)) : xs.mapM f = some (xs.map g) := by
  induction xs with
  | nil => rfl
  | cons x xs ih =>
    rw [List.mapM_cons, h x List.mem_cons_self, ih fun y hy => h y (List.mem_cons_of_mem _ hy)]
    rfl

/-- The single-query kernel returns the attention of each head over the given slots. -/
theorem pagedDecodeAttention_spec (c : PagedKVCache (Fin d → ℝ)) (layer : ℕ) {blockN heads kvGroups : ℕ}
    (hn : 1 ≤ blockN) (hkv : ∀ head < heads, head / kvGroups < c.numKvHeads) (q : List (Fin d → ℝ))
    (scale : Option ℝ) {slots : List ℕ} (hne : 1 ≤ slots.length) :
    pagedDecodeAttention blockN heads q (c.memory layer) slots kvGroups scale =
      some ((List.range heads).map fun head =>
        attended (scaleOr d scale) (q.getD head 0) (headContext c layer (head / kvGroups) slots)) := by
  refine mapM_eq_some fun head hhead => ?_
  have hhead := List.mem_range.1 hhead
  exact pagedDecodeKernel_spec c layer hn hhead (hkv head hhead) q (scaleOr d scale) hne

/-- **The batched kernel on the batch of `forward`** returns the native rows. -/
theorem batchedPagedDecodeAttention_spec (T : Transformer X (Fin d → ℝ) R)
    (hgqa : T.numKvHeads ∣ T.numHeads) {c : PagedKVCache (Fin d → ℝ)} (hshape : c.numKvHeads = T.numKvHeads)
    {seqMeta : List SeqMeta} (h : Decodes c seqMeta) {batch : DecodeBatch}
    (hbatch : batch.Tabulates c.blockSize seqMeta)
    (layer : ℕ) {q : List (List (Fin d → ℝ))} (hq : q.length = seqMeta.length) {blockN : ℕ}
    (hn : 1 ≤ blockN) :
    batchedPagedDecodeAttention blockN T.numHeads q (c.memory layer) batch T.kvGroups (some T.scale) =
      some (List.zipWith (T.decodedRow c layer) seqMeta q) := by
  have hrow : ∀ i ∈ List.range q.length, (List.range T.numHeads).mapM (fun head =>
      batchedPagedDecodeKernel (qMemory T.numHeads q) (c.memory layer) batch.slotTablePtr batch.ctxLensPtr
        (scaleOr d (some T.scale)) T.kvGroups (T.numHeads * d) batch.maxCtx d blockN i head) =
      some (T.decodedRow c layer (seqMeta.getD i ⟨[], 0, 0⟩) (q.getD i [])) := by
    intro i hi
    have hlt : i < seqMeta.length := by rw [← hq]; exact List.mem_range.1 hi
    have hget := List.getElem?_eq_getElem hlt
    obtain ⟨hlen, hfit, htake⟩ := hbatch i _ hget
    rw [List.getD_eq_getElem _ _ hlt]
    refine mapM_eq_some fun head hhead => ?_
    have hhead := List.mem_range.1 hhead
    have hctx := SeqMeta.length_context c.blockSize seqMeta[i]
    obtain ⟨a, -, -, hkernel⟩ := batchedPagedDecodeKernel_spec c layer hn hhead
      (hshape ▸ T.kvHead_lt hgqa hhead) q (scaleOr d (some T.scale)) batch
      (seqMeta[i].context c.blockSize) (hctx ▸ h.nonempty _ (List.getElem_mem hlt)) (hctx ▸ hlen)
      (hctx ▸ hfit) (hctx.symm ▸ htake)
    rw [hkernel, scaleOr_scale]
  rw [batchedPagedDecodeAttention, mapM_eq_some hrow]
  refine congrArg some (List.ext_getElem (by simp [hq]) fun i h₁ h₂ => ?_)
  rw [List.length_zipWith] at h₂
  rw [List.getElem_map, List.getElem_range, List.getElem_zipWith,
    List.getD_eq_getElem _ _ (by omega), List.getD_eq_getElem _ _ (by omega)]

/-- After the write, a fresh sequence's row is what the pool holds at its slot. -/
theorem fresh_of_write {D : Type} {c c' : PagedKVCache D} {layer : ℕ} {seqMeta : List SeqMeta}
    {kv : List (KV D)} (hdistinct : (seqMeta.map (SeqMeta.lastSlot c.blockSize)).Nodup)
    (hwrite : c.write layer (seqMeta.map (SeqMeta.lastSlot c.blockSize)) kv = (.ok (), c')) :
    (∃ pool, c' = { c with pool }) ∧ kv.length = seqMeta.length ∧
      List.Forall₂ (fun info row => info.ctxLen = 1 → row = c'.pool layer (info.lastSlot c'.blockSize))
        seqMeta kv := by
  unfold PagedKVCache.write at hwrite
  split at hwrite
  next hok =>
    obtain rfl := (Prod.mk.inj hwrite).2
    have hlen : seqMeta.length = kv.length := by simpa using hok.1
    refine ⟨⟨_, rfl⟩, hlen.symm, List.forall₂_iff_get.2 ⟨hlen, fun i h₁ h₂ _ => ?_⟩⟩
    have hget := scatter_getElem (c.pool layer) hdistinct i (by simpa using h₁) h₂
    rw [List.getElem_map] at hget
    show kv[i] = Function.update c.pool layer _ layer _
    rw [Function.update_self]
    exact hget.symm
  next => cases hwrite

/-- **One layer of attention** is the native one. -/
theorem attentionDecode_eq (T : Transformer X (Fin d → ℝ) R) (hattn : T.attn = sdpa)
    (hgqa : T.numKvHeads ∣ T.numHeads) {c : PagedKVCache (Fin d → ℝ)} (hshape : c.numKvHeads = T.numKvHeads)
    {seqMeta : List SeqMeta} (h : Decodes c seqMeta)
    (hdistinct : (seqMeta.map (SeqMeta.lastSlot c.blockSize)).Nodup) {batch : DecodeBatch}
    (hbatch : batch.Tabulates c.blockSize seqMeta)
    (layer : ℕ) (x : List X) (positions : List ℕ) :
    T.attentionDecode layer x positions (seqMeta.map (SeqMeta.lastSlot c.blockSize)) batch c =
        some (T.attention layer x positions (seqMeta.map (SeqMeta.lastSlot c.blockSize)) seqMeta c) ∧
      ∃ pool, (T.attention layer x positions (seqMeta.map (SeqMeta.lastSlot c.blockSize)) seqMeta c).2 =
        { c with pool } := by
  unfold Transformer.attentionDecode Transformer.attention
  rcases hwrite : c.write layer (seqMeta.map (SeqMeta.lastSlot c.blockSize))
    (List.zipWith (T.keyValue layer) positions x) with ⟨_ | _, c'⟩
  · have hkeep : c' = c := by
      unfold PagedKVCache.write at hwrite
      split at hwrite
      · cases hwrite
      · exact (Prod.mk.inj hwrite).2.symm
    exact ⟨by simp only [hwrite], c.pool, by simp only [hwrite, hkeep]⟩
  · obtain ⟨⟨pool, rfl⟩, hlen, hfresh⟩ := fresh_of_write hdistinct hwrite
    have hq : (List.zipWith (T.query layer) positions x).length = seqMeta.length := by
      rw [← hlen, List.length_zipWith, List.length_zipWith]
    have hattend := attend_decode T hattn (h.withPool pool) layer hq hfresh
    have hkernel := batchedPagedDecodeAttention_spec T hgqa (c := { c with pool }) hshape
      (h.withPool pool) hbatch layer hq (show 1 ≤ 128 by decide)
    exact ⟨by simp only [hwrite, hkernel, hattend], pool, by simp only [hwrite, hattend]⟩

/-- **The layers.** -/
theorem layersDecode_eq [Add X] (T : Transformer X (Fin d → ℝ) R) (hattn : T.attn = sdpa)
    (hgqa : T.numKvHeads ∣ T.numHeads) {seqMeta : List SeqMeta} {batch : DecodeBatch} (positions : List ℕ)
    (n i : ℕ) (x : List X) {c : PagedKVCache (Fin d → ℝ)} (hshape : c.numKvHeads = T.numKvHeads)
    (h : Decodes c seqMeta) (hdistinct : (seqMeta.map (SeqMeta.lastSlot c.blockSize)).Nodup)
    (hbatch : batch.Tabulates c.blockSize seqMeta) :
    T.layersDecode positions (seqMeta.map (SeqMeta.lastSlot c.blockSize)) batch i n x c =
      some (T.layers positions (seqMeta.map (SeqMeta.lastSlot c.blockSize)) seqMeta i n x c) := by
  induction n generalizing i x c with
  | zero => rfl
  | succ n ih =>
    obtain ⟨heq, pool, hpool⟩ := attentionDecode_eq T hattn hgqa hshape h hdistinct hbatch i
      (x.map (T.inputLayernorm i)) positions
    rw [Transformer.layersDecode, Transformer.layers, heq]
    rcases hatt : T.attention i (x.map (T.inputLayernorm i)) positions
      (seqMeta.map (SeqMeta.lastSlot c.blockSize)) seqMeta c with ⟨_ | o, c'⟩
    · rfl
    · rw [hatt] at hpool
      subst hpool
      exact ih (i + 1) _ (c := { c with pool }) hshape (h.withPool pool) hdistinct hbatch

/-- **The forward on the Triton backend is the native forward**, where every sequence writes its new token
to the last slot of its context. -/
theorem forwardTriton_eq [Add X] (T : Transformer X (Fin d → ℝ) R) (hattn : T.attn = sdpa)
    (hgqa : T.numKvHeads ∣ T.numHeads) {c : PagedKVCache (Fin d → ℝ)} (hshape : c.numKvHeads = T.numKvHeads)
    {seqMeta : List SeqMeta} (h : Decodes c seqMeta)
    (hdistinct : (seqMeta.map (SeqMeta.lastSlot c.blockSize)).Nodup) (tokenIds positions : List ℕ) :
    T.forwardTriton tokenIds positions (seqMeta.map (SeqMeta.lastSlot c.blockSize)) seqMeta c =
      some (T.forward tokenIds positions (seqMeta.map (SeqMeta.lastSlot c.blockSize)) seqMeta c) := by
  unfold Transformer.forwardTriton Transformer.forward
  split
  next =>
    obtain ⟨batch, hbatch, hrows⟩ := decodeBatch_spec h
    have hlayers := layersDecode_eq T hattn hgqa positions T.numLayers 0 (tokenIds.map T.embed) hshape h
      hdistinct hrows
    simp only [hbatch, hlayers]
    rcases T.layers positions (seqMeta.map (SeqMeta.lastSlot c.blockSize)) seqMeta 0 T.numLayers
      (tokenIds.map T.embed) c with ⟨_ | x, c'⟩ <;> rfl
  next => rfl

/-- **What the programs of one sequence and head compute**, `value` being the softmax average over the
sequence's own slots: the batched kernel divides by a positive number and gives it, the single-query
kernel gives it, the native path gives it on the gathered rows, and the batched kernel gives it in
any other batch and on any other pool where this row reads the same. -/
structure RowDecodes (T : Transformer X (Fin d → ℝ) R) (c : PagedKVCache (Fin d → ℝ)) (batch : DecodeBatch)
    (layer blockN : ℕ) (q : List (List (Fin d → ℝ))) (i head : ℕ) (slots : List ℕ) (value : Fin d → ℝ) :
    Prop where
  positive : ∃ a, batchedPagedDecodeLoop (qMemory T.numHeads q) (c.memory layer) batch.slotTablePtr
    batch.ctxLensPtr (scaleOr d (some T.scale)) T.kvGroups (T.numHeads * d) batch.maxCtx d blockN i head =
      some a ∧ 0 < a.denom
  batched : batchedPagedDecodeKernel (qMemory T.numHeads q) (c.memory layer) batch.slotTablePtr
    batch.ctxLensPtr (scaleOr d (some T.scale)) T.kvGroups (T.numHeads * d) batch.maxCtx d blockN i head =
      some value
  single : pagedDecodeKernel (qMemory T.numHeads [q.getD i []]) (c.memory layer) (fun n => slots.getD n 0)
    slots.length (scaleOr d (some T.scale)) T.kvGroups d blockN head = some value
  native : ∃ rows, c.gather layer slots = .ok rows ∧
    (T.attendRow (q.getD i []) rows).getD head 0 = value
  own : ∀ (c' : PagedKVCache (Fin d → ℝ)) (batch' : DecodeBatch) (q' : List (List (Fin d → ℝ))) (i' : ℕ),
    c'.numKvHeads = c.numKvHeads → (∀ s ∈ slots, c'.pool layer s = c.pool layer s) →
    q'.getD i' [] = q.getD i [] → batch'.ctxLensPtr i' = slots.length → slots.length ≤ batch'.maxCtx →
    (batch'.slotTable.getD i' []).take slots.length = slots →
    batchedPagedDecodeKernel (qMemory T.numHeads q') (c'.memory layer) batch'.slotTablePtr
      batch'.ctxLensPtr (scaleOr d (some T.scale)) T.kvGroups (T.numHeads * d) batch'.maxCtx d blockN i'
        head = some value

/-- **The batched Triton decode path is native attention.**  For an all-decode batch, `forward` builds a
slot table with which the kernels compute, for every sequence and query head and any `BLOCK_N`,
`sum_j softmax(scale * q·k_j) v_j` over the sequence's own context slots and KV head `head / kv_groups`; and
if each new token is written to the last slot of its context, the whole forward is the native one. -/
theorem batched_decode_is_native [Add X] (T : Transformer X (Fin d → ℝ) R) (hattn : T.attn = sdpa)
    (hgqa : T.numKvHeads ∣ T.numHeads) {c : PagedKVCache (Fin d → ℝ)} (hshape : c.numKvHeads = T.numKvHeads)
    {seqMeta : List SeqMeta} (h : Decodes c seqMeta) :
    (∃ batch, decodeBatch c seqMeta = .ok batch ∧
      ∀ (layer blockN : ℕ) (q : List (List (Fin d → ℝ))) (i : ℕ) (info : SeqMeta) (head : ℕ), 1 ≤ blockN →
        seqMeta[i]? = some info → head < T.numHeads →
        ∃ slots, c.contextSlots info.blockIds info.ctxLen = .ok slots ∧ slots.length = info.ctxLen ∧
          RowDecodes T c batch layer blockN q i head slots (attended T.scale ((q.getD i []).getD head 0)
            (headContext c layer (head / T.kvGroups) slots))) ∧
    ∀ tokenIds positions : List ℕ, (seqMeta.map (SeqMeta.lastSlot c.blockSize)).Nodup →
      T.forwardTriton tokenIds positions (seqMeta.map (SeqMeta.lastSlot c.blockSize)) seqMeta c =
        some (T.forward tokenIds positions (seqMeta.map (SeqMeta.lastSlot c.blockSize)) seqMeta c) := by
  refine ⟨?_, fun tokenIds positions hdistinct =>
    forwardTriton_eq T hattn hgqa hshape h hdistinct tokenIds positions⟩
  obtain ⟨batch, hbatch, hrows⟩ := decodeBatch_spec h
  refine ⟨batch, hbatch, fun layer blockN q i info head hn hget hhead => ?_⟩
  obtain ⟨hlen, hfit, htake⟩ := hrows i info hget
  have hi := List.mem_of_getElem? hget
  have hctx := info.length_context c.blockSize
  have hne : 1 ≤ (info.context c.blockSize).length := hctx ▸ h.nonempty info hi
  have hkv : head / T.kvGroups < c.numKvHeads := hshape ▸ T.kvHead_lt hgqa hhead
  obtain ⟨a, hloop, hpos, hkernel⟩ := batchedPagedDecodeKernel_spec c layer hn hhead hkv q T.scale batch
    _ hne (hctx ▸ hlen) (hctx ▸ hfit) (hctx.symm ▸ htake)
  refine ⟨_, h.contextSlots hi, hctx, ?_, ?_, ?_, ?_, ?_⟩
  · rw [scaleOr_scale]
    exact ⟨a, hloop, hpos⟩
  · rw [scaleOr_scale]
    exact hkernel
  · rw [scaleOr_scale]
    exact pagedDecodeKernel_spec c layer hn hhead hkv _ _ hne
  · refine ⟨_, h.gather hi layer, ?_⟩
    rw [attendRow_eq T hattn, Transformer.decodedRow, List.getD_eq_getElem _ _ (by simpa using hhead),
      List.getElem_map, List.getElem_range]
  · intro c' batch' q' i' hshape' hpool hq hlen' hfit' htake'
    have hsame : headContext c' layer (head / T.kvGroups) (info.context c.blockSize) =
        headContext c layer (head / T.kvGroups) (info.context c.blockSize) :=
      List.map_congr_left fun s hs => by rw [hpool s hs]
    obtain ⟨-, -, -, hkernel'⟩ := batchedPagedDecodeKernel_spec c' layer hn hhead (hshape'.symm ▸ hkv) q'
      T.scale batch' _ hne hlen' hfit' htake'
    rw [scaleOr_scale, hkernel', hsame, hq]

/-- A small model over the reals, two query heads reading one KV head. -/
noncomputable def averageModel : Transformer ℝ (Fin 1 → ℝ) ℝ where
  numLayers := 1
  numHeads := 2
  numKvHeads := 1
  headDim := 1
  vocabSize := 3
  qkNorm := false
  embed t := t + 1
  inputLayernorm _ x := x
  qProj _ x := [fun _ => x, fun _ => -x]
  kProj _ x := [fun _ => x]
  vProj _ x := [fun _ => x]
  qNorm _ q := q
  kNorm _ k := k
  rope p x := fun j => x j + p
  attn := sdpa
  oProj _ heads := (heads.map fun h => h 0).sum
  postAttentionLayernorm _ x := x
  mlp _ x := x
  norm x := x
  lmHead x := [x]

/-- The hypotheses are satisfiable: a sequence with a context of two and a fresh one. -/
theorem batched_decode_is_native_two :
    averageModel.forwardTriton [1, 2] [1, 0] [1, 2] [⟨[0], 1, 2⟩, ⟨[1], 1, 1⟩] (averageModel.newCache 2 2) =
      some (averageModel.forward [1, 2] [1, 0] [1, 2] [⟨[0], 1, 2⟩, ⟨[1], 1, 1⟩]
        (averageModel.newCache 2 2)) := by
  have h : Decodes (averageModel.newCache 2 2) [⟨[0], 1, 2⟩, ⟨[1], 1, 1⟩] :=
    ⟨by decide, by decide, by decide, by decide, by decide⟩
  exact (batched_decode_is_native averageModel rfl ⟨2, rfl⟩ rfl h).2 [1, 2] [1, 0] (by decide)

end DiSpec
