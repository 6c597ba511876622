/-
# A replayed graph is an eager step

Over a window that starts with the context slots of a sequence and is padded with slot
0, the mask lets through exactly the context, and repeating a KV head for its query
heads is the same as looking it up (`graphAttention_eq`).  So layer by layer `_forward`
computes what the eager runner computes on a batch of one token (`graphForward_eq`).

`Captured` is the invariant of a decoder: its buckets are sorted and each has buffers of
its own size.  All that a replay reads it has just written, so the result depends on the
arguments and the cache alone (`CudaGraphDecoder.decode_spec`).
-/

import DiSpec.Engine.CudaGraph

namespace DiSpec

/-- A repeated head is the head of its group. -/
theorem repeatInterleave_getD {D : Type} {groups : ℕ} (hg : 0 < groups) (heads : List D) (i : ℕ) (d : D) :
    (repeatInterleave groups heads).getD i d = heads.getD (i / groups) d := by
  induction heads generalizing i with
  | nil => rfl
  | cons head heads ih =>
    rw [repeatInterleave, List.flatMap_cons]
    rcases Nat.lt_or_ge i groups with hlt | hge
    · rw [List.getD_append _ _ _ _ (by simpa using hlt), Nat.div_eq_of_lt hlt,
        List.getD_eq_getElem _ _ (by simpa using hlt), List.getElem_replicate]
      rfl
    · rw [List.getD_append_right _ _ _ _ (by simpa using hge), List.length_replicate]
      have hdiv : i / groups = (i - groups) / groups + 1 := by
        rw [← Nat.add_div_right _ hg, Nat.sub_add_cancel hge]
      rw [hdiv, List.getD_cons_succ]
      exact ih (i - groups)

/-- The mask of a window lets through what stands before the padding. -/
theorem unmasked_window {α : Type} (xs ys : List α) :
    unmasked (List.replicate xs.length true ++ List.replicate ys.length false) (xs ++ ys) = xs := by
  induction xs with
  | nil =>
    induction ys with
    | nil => rfl
    | cons y ys ih => exact ih
  | cons x xs ih => exact congrArg (x :: ·) ih

/-- The context slots of a sequence whose newest token is at position `cur`. -/
def PagedKVCache.window {D : Type} (c : PagedKVCache D) (ids : List ℕ) (cur : ℕ) : List ℕ :=
  (List.range (cur + 1)).map (Paging.slotAt c.blockSize ids)

/-- The slot of the newest token. -/
def PagedKVCache.newest {D : Type} (c : PagedKVCache D) (ids : List ℕ) (cur : ℕ) : ℕ :=
  Paging.slotAt c.blockSize ids cur

/-- A mask that lets the context through and not the padding. -/
def windowMask (cur pad : ℕ) : List Bool := List.replicate (cur + 1) true ++ List.replicate pad false

/-- The table has room for the context and lists blocks of the pool. -/
structure Window {D : Type} (c : PagedKVCache D) (ids : List ℕ) (cur : ℕ) : Prop where
  blockSize_pos : 0 < c.blockSize
  room : cur + 1 ≤ ids.length * c.blockSize
  inPool : ∀ b ∈ ids, b < c.manager.numBlocks

section

variable {D : Type} {c : PagedKVCache D} {ids : List ℕ} {cur : ℕ}

@[simp] theorem PagedKVCache.length_window : (c.window ids cur).length = cur + 1 := by simp [window]

theorem Window.slots (hw : Window c ids cur) : c.contextSlots ids (cur + 1) = .ok (c.window ids cur) :=
  c.contextSlots_spec hw.blockSize_pos hw.room

theorem Window.slot_lt (hw : Window c ids cur) {p : ℕ} (hp : p ≤ cur) :
    Paging.slotAt c.blockSize ids p < c.numSlots :=
  Paging.slotAt_lt hw.blockSize_pos hw.inPool (by have := hw.room; omega)

theorem Window.lt (hw : Window c ids cur) : ∀ s ∈ c.window ids cur, s < c.numSlots := by
  intro s hs
  obtain ⟨p, hp, rfl⟩ := List.mem_map.1 hs
  exact hw.slot_lt (Nat.lt_succ_iff.1 (List.mem_range.1 hp))

/-- What else is in the pool does not matter. -/
theorem Window.withPool (hw : Window c ids cur) (pool : ℕ → ℕ → KV D) : Window { c with pool } ids cur :=
  ⟨hw.blockSize_pos, hw.room, hw.inPool⟩

end

namespace Transformer

variable {X D R : Type} [Zero D] {T : Transformer X D R} {c : PagedKVCache D} {ids : List ℕ} {cur : ℕ}

omit [Zero D] in
/-- The context of the token just written: gathered, or its own row if it is the only one. -/
theorem context_window (hw : Window c ids cur) (layer : ℕ) {row : KV D}
    (hrow : c.pool layer (c.newest ids cur) = row) :
    context c layer ⟨ids, 1, cur + 1⟩ [row] = .ok ((c.window ids cur).map (c.pool layer)) := by
  unfold context
  split
  next hone =>
    have hcur : cur = 0 := Nat.succ.inj hone
    subst hcur
    rw [← hrow]
    rfl
  next =>
    rw [hw.slots]
    exact if_pos hw.lt

omit [Zero D] in
/-- A query head has a group. -/
theorem kvGroups_pos (hgqa : T.numKvHeads ∣ T.numHeads) {i : ℕ} (hi : i < T.numHeads) : 0 < T.kvGroups := by
  obtain ⟨g, hg⟩ := hgqa
  have hkv : 0 < T.numKvHeads := Nat.pos_of_ne_zero fun h0 => by rw [hg, h0] at hi; omega
  have hgpos : 0 < g := Nat.pos_of_ne_zero fun h0 => by rw [hg, h0] at hi; omega
  rwa [kvGroups, hg, Nat.mul_div_cancel_left _ hkv]

/-- **Masked attention over the padded window is attention over the context.** -/
theorem masked_eq_attendRow (hgqa : T.numKvHeads ∣ T.numHeads) (q : List D) (ctx padding : List (KV D)) :
    ((List.range T.numHeads).map fun i => T.attn (q.getD i 0)
      (unmasked (List.replicate ctx.length true ++ List.replicate padding.length false)
        (List.zipWith (fun k v => (k.getD i 0, v.getD i 0))
          ((ctx ++ padding).map fun row => repeatInterleave T.kvGroups row.key)
          ((ctx ++ padding).map fun row => repeatInterleave T.kvGroups row.value)))) =
      T.attendRow q ctx := by
  refine List.map_congr_left fun i hi => congrArg _ ?_
  have hg := kvGroups_pos hgqa (List.mem_range.1 hi)
  set head : KV D → D × D := fun kv => (kv.key.getD (i / T.kvGroups) 0, kv.value.getD (i / T.kvGroups) 0)
  have hheads : List.zipWith (fun k v : List D => (k.getD i 0, v.getD i 0))
      ((ctx ++ padding).map fun row => repeatInterleave T.kvGroups row.key)
      ((ctx ++ padding).map fun row => repeatInterleave T.kvGroups row.value) =
      ctx.map head ++ padding.map head := by
    rw [List.zipWith_map, List.zipWith_self, ← List.map_append]
    exact List.map_congr_left fun kv _ => Prod.ext (repeatInterleave_getD hg _ _ _)
      (repeatInterleave_getD hg _ _ _)
  have hmask : List.replicate ctx.length true ++ List.replicate padding.length false =
      List.replicate (ctx.map head).length true ++ List.replicate (padding.map head).length false := by
    rw [List.length_map, List.length_map]
  rw [hheads, hmask, unmasked_window]

omit [Zero D] in
/-- The write of one row in the pool. -/
theorem write_newest (hw : Window c ids cur) (layer : ℕ) (row : KV D) :
    ∃ pool, c.write layer [c.newest ids cur] [row] = (.ok (), { c with pool }) ∧
      pool layer (c.newest ids cur) = row := by
  have hslot : ∀ s ∈ [c.newest ids cur], s < c.numSlots := fun s hs => by
    rw [List.mem_singleton.1 hs]
    exact hw.slot_lt le_rfl
  refine ⟨_, if_pos ⟨rfl, hslot⟩, ?_⟩
  · show Function.update c.pool layer _ layer _ = _
    rw [Function.update_self]
    exact Function.update_self (c.newest ids cur) row (c.pool layer)

/-- The attention over one row. -/
theorem attention_single (T : Transformer X D R) (layer : ℕ) (h : X) (pos slot : ℕ) (seq : SeqMeta)
    (c : PagedKVCache D) : T.attention layer [h] [pos] [slot] [seq] c =
      match c.write layer [slot] [T.keyValue layer pos h] with
      | (.error e, c) => (.error e, c)
      | (.ok (), c) =>
        match T.attend c layer [seq] [T.query layer pos h] [T.keyValue layer pos h] with
        | .error e => (.error e, c)
        | .ok out => (.ok (out.map (T.oProj layer)), c) := rfl

/-- A replay projects as the runner with its weights stacked. -/
theorem graphAttention_withFused (T : Transformer X D R) (fused : Option (ℕ → X → List D)) (layer : ℕ) (h : X)
    (pos slot : ℕ) (cslots : List ℕ) (mask : List Bool) (c : PagedKVCache D) :
    T.graphAttention fused layer h pos slot cslots mask c =
      match c.write layer [slot] [(T.withFused fused).keyValue layer pos h] with
      | (.error x, c) => (.error x, c)
      | (.ok (), c) =>
        match c.gather layer cslots with
        | .error x => (.error x, c)
        | .ok rows => (.ok (T.oProj layer ((List.range T.numHeads).map fun i =>
            T.attn (((T.withFused fused).query layer pos h).getD i 0) (unmasked mask
              (List.zipWith (fun k v => (k.getD i 0, v.getD i 0))
                (rows.map fun row => repeatInterleave T.kvGroups row.key)
                (rows.map fun row => repeatInterleave T.kvGroups row.value))))), c) := rfl

/-- **One layer of attention** of a replay is the eager one. -/
theorem graphAttention_eq (hgqa : T.numKvHeads ∣ T.numHeads) (fused : Option (ℕ → X → List D)) (layer : ℕ)
    (h : X) (pos : ℕ) (hw : Window c ids cur) (pad : ℕ) :
    ∃ o pool, (T.withFused fused).attention layer [h] [pos] [c.newest ids cur] [⟨ids, 1, cur + 1⟩] c =
        (.ok [o], { c with pool }) ∧
      T.graphAttention fused layer h pos (c.newest ids cur) (c.window ids cur ++ List.replicate pad 0)
        (windowMask cur pad) c = (.ok o, { c with pool }) := by
  set T' := T.withFused fused
  set row := T'.keyValue layer pos h
  set q := T'.query layer pos h
  obtain ⟨pool, hwrite, hrow⟩ := write_newest hw layer row
  set cslots := c.window ids cur ++ List.replicate pad 0 with hcslots
  have hgather : PagedKVCache.gather { c with pool } layer cslots = .ok (cslots.map (pool layer)) := by
    refine if_pos fun s hs => ?_
    rcases List.mem_append.1 hs with hs | hs
    · exact hw.lt s hs
    · rw [List.eq_of_mem_replicate hs]
      exact (Nat.zero_le _).trans_lt (hw.slot_lt le_rfl)
  set ctx := (c.window ids cur).map (pool layer) with hctx
  have hlen : ctx.length = cur + 1 := by rw [hctx, List.length_map, PagedKVCache.length_window]
  have hcontext : context { c with pool } layer ⟨ids, 1, cur + 1⟩ [row] = .ok ctx :=
    context_window (hw.withPool pool) layer hrow
  refine ⟨T'.oProj layer (T'.attendRow q ctx), pool, ?_, ?_⟩
  · have hattend : T'.attend { c with pool } layer [⟨ids, 1, cur + 1⟩] [q] [row] =
        .ok [T'.attendRow q ctx] := by
      rw [attend, hcontext]
      simp only [attend, List.take_succ_cons, List.take_zero, List.mapIdx_cons, List.mapIdx_nil,
        List.append_nil, Nat.add_sub_cancel, Nat.add_zero]
      rw [List.take_of_length_le hlen.le]
    rw [attention_single, hwrite]
    dsimp only
    rw [hattend]
    rfl
  · have hmasked := masked_eq_attendRow hgqa q ctx ((List.replicate pad 0).map (pool layer))
    rw [hlen, List.length_map, List.length_replicate, ← List.map_append, ← hcslots] at hmasked
    rw [graphAttention_withFused, hwrite]
    dsimp only
    rw [hgather]
    exact congrArg (fun heads => (Except.ok (T.oProj layer heads), _)) hmasked

variable [Add X]

/-- The layers. -/
theorem graphLayers_eq (hgqa : T.numKvHeads ∣ T.numHeads) (fused : Option (ℕ → X → List D)) (pos pad n i : ℕ)
    (x : X) (hw : Window c ids cur) :
    ∃ y pool, (T.withFused fused).layers [pos] [c.newest ids cur] [⟨ids, 1, cur + 1⟩] i n [x] c =
        (.ok [y], { c with pool }) ∧
      T.graphLayers fused pos (c.newest ids cur) (c.window ids cur ++ List.replicate pad 0)
          (windowMask cur pad) i n x c =
        (.ok y, { c with pool }) := by
  induction n generalizing i x c with
  | zero => exact ⟨x, c.pool, rfl, rfl⟩
  | succ n ih =>
    obtain ⟨o, pool, heager, hgraph⟩ :=
      graphAttention_eq hgqa fused i (T.inputLayernorm i x) pos hw pad
    obtain ⟨y, pool', heager', hgraph'⟩ := ih (c := { c with pool }) (i + 1)
      (x + o + T.mlp i (T.postAttentionLayernorm i (x + o))) (hw.withPool pool)
    refine ⟨y, pool', ?_, ?_⟩
    · rw [layers, List.map_singleton]
      simp only [show (T.withFused fused).inputLayernorm = T.inputLayernorm from rfl, heager]
      exact heager'
    · rw [graphLayers, hgraph]
      exact hgraph'

/-- **A replay computes the eager logits**, whatever the padding. -/
theorem graphForward_eq (hgqa : T.numKvHeads ∣ T.numHeads) (fused : Option (ℕ → X → List D))
    (tok pos pad : ℕ) (hw : Window c ids cur) :
    ∃ x pool, (T.withFused fused).forward [tok] [pos] [c.newest ids cur] [⟨ids, 1, cur + 1⟩] c =
        (.ok [x], { c with pool }) ∧
      T.graphForward fused tok pos (c.newest ids cur) (c.window ids cur ++ List.replicate pad 0)
          (windowMask cur pad) c =
        (.ok (T.lmHead x), { c with pool }) := by
  obtain ⟨y, pool, heager, hgraph⟩ :=
    graphLayers_eq hgqa fused pos pad T.numLayers 0 (T.embed tok) hw
  refine ⟨T.norm y, pool, ?_, ?_⟩
  · unfold forward
    rw [List.map_singleton]
    have heager : (T.withFused fused).layers [pos] [c.newest ids cur] [⟨ids, 1, cur + 1⟩] 0
        (T.withFused fused).numLayers [(T.withFused fused).embed tok] c = (.ok [y], { c with pool }) := heager
    rw [heager]
    rfl
  · rw [graphForward, hgraph]

end Transformer

namespace CudaGraphDecoder

variable {X D R : Type} [Zero D] [Add X] {T : Transformer X D R} {g g' : CudaGraphDecoder R}
  {c : PagedKVCache D} {ids : List ℕ} {cur : ℕ}

/-- **The invariant of a decoder that has captured its graphs**: sorted buckets, `max_ctx` the last
of them, and for each of them buffers of its size. -/
structure Captured (g : CudaGraphDecoder R) : Prop where
  sorted : g.buckets.Pairwise (· ≤ ·)
  largest : g.buckets.getLast? = some g.maxCtx
  buffers : ∀ mc ∈ g.buckets, ∃ b, g.captured.lookup mc = some b ∧ b.cslots.length = mc ∧ b.mask.length = mc

/-- The first bucket that fits among sorted ones is the smallest that fits. -/
theorem find?_sorted {buckets : List ℕ} (hsorted : buckets.Pairwise (· ≤ ·)) {n m : ℕ} (hm : m ∈ buckets)
    (hn : n ≤ m) :
    ∃ mc, buckets.find? (n ≤ ·) = some mc ∧ mc ∈ buckets ∧ n ≤ mc ∧ ∀ mc' ∈ buckets, n ≤ mc' → mc ≤ mc' := by
  induction hsorted with
  | nil => exact absurd hm List.not_mem_nil
  | @cons mc rest hle _ ih =>
    by_cases hfit : n ≤ mc
    · refine ⟨mc, by rw [List.find?_cons_of_pos (by simpa using hfit)], List.mem_cons_self, hfit,
        fun mc' hmc' _ => ?_⟩
      rcases List.mem_cons.1 hmc' with rfl | hmc'
      · exact le_rfl
      · exact hle mc' hmc'
    · have hrest : m ∈ rest := (List.mem_cons.1 hm).resolve_left fun heq => hfit (heq ▸ hn)
      obtain ⟨mc', hfind, hmem, hle', hleast⟩ := ih hrest
      refine ⟨mc', by rw [List.find?_cons_of_neg (by simpa using hfit), hfind],
        List.mem_cons_of_mem _ hmem, hle', fun mc'' hmc'' hfit' => ?_⟩
      rcases List.mem_cons.1 hmc'' with rfl | hmc''
      · exact absurd hfit' hfit
      · exact hleast mc'' hmc'' hfit'

/-- **A bucket is found** for every context that can be handled, the smallest that fits. -/
theorem Captured.bucketFor (h : Captured g) {n : ℕ} (hn : g.canHandle n = true) :
    ∃ mc, g.bucketFor n = some mc ∧ mc ∈ g.buckets ∧ n ≤ mc ∧ ∀ mc' ∈ g.buckets, n ≤ mc' → mc ≤ mc' :=
  find?_sorted h.sorted (List.mem_of_getLast? h.largest) (by simpa [canHandle] using hn)

/-- Other buffers of the same size in one bucket. -/
theorem Captured.insert (h : Captured g) {mc : ℕ} {b : GraphBucket R} (hslots : b.cslots.length = mc)
    (hmask : b.mask.length = mc) : Captured { g with captured := g.captured.insert mc b } := by
  refine ⟨h.sorted, h.largest, fun mc' hmc' => ?_⟩
  rcases eq_or_ne mc' mc with rfl | hne
  · exact ⟨b, AList.lookup_insert _, hslots, hmask⟩
  · obtain ⟨b', hb', hlen⟩ := h.buffers mc' hmc'
    exact ⟨b', (AList.lookup_insert_ne hne).trans hb', hlen⟩

/-- **What a decode reads it has written**: its result and the cache it leaves are the same for any two
decoders with these buckets, whatever their buffers hold. -/
theorem Captured.decode_congr (h : Captured g) (h' : Captured g') (hb : g'.buckets = g.buckets)
    (fused : Option (ℕ → X → List D)) (c : PagedKVCache D) (token position writeSlot : ℕ)
    (ctxSlots : List ℕ) :
    (g'.decode T fused c token position writeSlot ctxSlots).1 =
        (g.decode T fused c token position writeSlot ctxSlots).1 ∧
      (g'.decode T fused c token position writeSlot ctxSlots).2.1 =
        (g.decode T fused c token position writeSlot ctxSlots).2.1 := by
  have hfor : g'.bucketFor ctxSlots.length = g.bucketFor ctxSlots.length := by
    rw [CudaGraphDecoder.bucketFor, CudaGraphDecoder.bucketFor, hb]
  unfold decode
  rw [hfor]
  rcases hmc : g.bucketFor ctxSlots.length with _ | mc
  · exact ⟨rfl, rfl⟩
  have hmem : mc ∈ g.buckets := List.mem_of_find?_eq_some hmc
  obtain ⟨b, hlook, hslots, hmask⟩ := h.buffers mc hmem
  obtain ⟨b', hlook', hslots', hmask'⟩ := h'.buffers mc (hb ▸ hmem)
  simp only [hlook, hlook', fillFrom, hslots, hslots', hmask, hmask']
  rcases T.graphForward fused token position writeSlot
    (ctxSlots ++ (List.replicate mc 0).drop ctxSlots.length)
    (List.replicate ctxSlots.length true ++
      (List.replicate mc false).drop (List.replicate ctxSlots.length true).length) c with ⟨_ | _, _⟩ <;>
  exact ⟨rfl, rfl⟩

/-- **A decode within the largest bucket is an eager step**: the same logits and the same cache. -/
theorem Captured.decode_spec (h : Captured g) (hgqa : T.numKvHeads ∣ T.numHeads)
    (fused : Option (ℕ → X → List D)) (token position : ℕ) (hw : Window c ids cur)
    (hcan : g.canHandle (cur + 1) = true) :
    ∃ x pool g', (T.withFused fused).forward [token] [position] [c.newest ids cur] [⟨ids, 1, cur + 1⟩] c =
        (.ok [x], { c with pool }) ∧
      g.decode T fused c token position (c.newest ids cur) (c.window ids cur) =
        (.ok (T.lmHead x), { c with pool }, g') ∧
      Captured g' ∧ g'.buckets = g.buckets ∧ g'.maxCtx = g.maxCtx := by
  obtain ⟨mc, hfor, hmem, hle, -⟩ := h.bucketFor hcan
  obtain ⟨b, hlook, hslots, hmask⟩ := h.buffers mc hmem
  obtain ⟨x, pool, heager, hgraph⟩ :=
    Transformer.graphForward_eq hgqa fused token position (mc - (cur + 1)) hw
  have hfillSlots : fillFrom 0 (c.window ids cur) b.cslots =
      c.window ids cur ++ List.replicate (mc - (cur + 1)) 0 := by
    rw [fillFrom, hslots, List.drop_replicate, PagedKVCache.length_window]
  have hfillMask : fillFrom false (List.replicate (cur + 1) true) b.mask =
      windowMask cur (mc - (cur + 1)) := by
    rw [fillFrom, hmask, List.drop_replicate, List.length_replicate, windowMask]
  set b' : GraphBucket R := ⟨b.maxCtx, token, position, c.newest ids cur,
    c.window ids cur ++ List.replicate (mc - (cur + 1)) 0, windowMask cur (mc - (cur + 1)), T.lmHead x⟩
  have hslots' : b'.cslots.length = mc := by
    show (c.window ids cur ++ List.replicate (mc - (cur + 1)) 0).length = mc
    rw [List.length_append, PagedKVCache.length_window, List.length_replicate]
    omega
  have hmask' : b'.mask.length = mc := by
    show (windowMask cur (mc - (cur + 1))).length = mc
    rw [windowMask, List.length_append, List.length_replicate, List.length_replicate]
    omega
  refine ⟨x, pool, { g with captured := g.captured.insert mc b' }, heager, ?_, h.insert hslots' hmask',
    rfl, rfl⟩
  unfold decode
  rw [PagedKVCache.length_window, hfor]
  simp only [hlook, hfillSlots, hfillMask, hgraph, b']

end CudaGraphDecoder

end DiSpec
