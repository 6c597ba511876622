/-
# The pool under the pins of the prefix cache

Every prompt leaves its full blocks pinned in the prefix cache, and nothing in the
source calls `evict`.  So the pins only grow, and a call has what is left: the free
blocks and the blocks it adopts from the cache (`LLMEngine.room`).

The hash is arbitrary here.  Where it collides, adopted blocks hold another prompt's
KV and a table may list a block twice, so nothing is said about content.  The counts
are right all the same (`Tally`), and they decide how a call ends: `generate_tally`
is one call, `Served.tally` all calls, and `outOfBlocks_iff_room` says that a request
is served, whatever its sampling and its end-of-sequence token, exactly when its
blocks fit in that room.
-/

import DiSpec.Engine.Transparency

namespace DiSpec

namespace Transformer

variable {X D R : Type} [Zero D] [Add X] {c : PagedKVCache D} {positions writeSlots ids : List ℕ}
  {ctxLen : ℕ}

omit [Zero D] [Add X] in
/-- The context of a sequence within its table can be read. -/
theorem context_total (layer : ℕ) (hbs : 0 < c.blockSize) (hroom : ctxLen ≤ ids.length * c.blockSize)
    (hin : ∀ b ∈ ids, b < c.manager.numBlocks) (qLen : ℕ) (kv : List (KV D)) :
    ∃ ctx, context c layer ⟨ids, qLen, ctxLen⟩ kv = .ok ctx := by
  unfold context
  split
  · exact ⟨_, rfl⟩
  · simp only [c.contextSlots_spec hbs hroom]
    refine ⟨_, if_pos fun sl hsl => ?_⟩
    obtain ⟨p, hp, rfl⟩ := List.mem_map.1 hsl
    exact Paging.slotAt_lt hbs hin ((List.mem_range.1 hp).trans_le hroom)

omit [Add X] in
/-- One layer of attention on a batch of one sequence whose slots and table are in the pool. -/
theorem attention_total (T : Transformer X D R) (layer : ℕ) {x : List X} (hbs : 0 < c.blockSize)
    (hpos : positions.length = x.length) (hlen : writeSlots.length = x.length)
    (hslots : ∀ s ∈ writeSlots, s < c.numSlots) (hroom : ctxLen ≤ ids.length * c.blockSize)
    (hin : ∀ b ∈ ids, b < c.manager.numBlocks) :
    ∃ o pool, T.attention layer x positions writeSlots [⟨ids, x.length, ctxLen⟩] c =
      (.ok o, { c with pool }) ∧ o.length = x.length := by
  set kv := List.zipWith (T.keyValue layer) positions x with hkv
  have hkvlen : kv.length = x.length := by rw [hkv, List.length_zipWith, hpos, min_self]
  set pool := Function.update c.pool layer (scatter (c.pool layer) writeSlots kv) with hpool
  have hwrite : c.write layer writeSlots kv = (.ok (), { c with pool }) :=
    if_pos ⟨hlen.trans hkvlen.symm, hslots⟩
  obtain ⟨ctx, hctx⟩ := context_total (c := { c with pool }) layer hbs hroom hin x.length kv
  set q := List.zipWith (T.query layer) positions x with hq
  set out := (q.take x.length).mapIdx (fun i qi =>
    T.attendRow qi (ctx.take (ctxLen - x.length + i + 1))) ++ [] with hout
  have hattend : T.attend { c with pool } layer [⟨ids, x.length, ctxLen⟩] q kv = .ok out := by
    rw [attend, hctx]
    rfl
  refine ⟨out.map (T.oProj layer), pool, by simp only [attention, ← hkv, ← hq, hwrite, hattend], ?_⟩
  rw [hout, List.length_map, List.append_nil, List.length_mapIdx, List.length_take, hq,
    List.length_zipWith, hpos]
  omega

/-- The layers from `i` on. -/
theorem layers_total (T : Transformer X D R) (n i : ℕ) {x : List X} (hbs : 0 < c.blockSize)
    (hpos : positions.length = x.length) (hlen : writeSlots.length = x.length)
    (hslots : ∀ s ∈ writeSlots, s < c.numSlots) (hroom : ctxLen ≤ ids.length * c.blockSize)
    (hin : ∀ b ∈ ids, b < c.manager.numBlocks) :
    ∃ o pool, T.layers positions writeSlots [⟨ids, x.length, ctxLen⟩] i n x c =
      (.ok o, { c with pool }) ∧ o.length = x.length := by
  induction n generalizing i x c with
  | zero => exact ⟨x, c.pool, rfl, rfl⟩
  | succ n ih =>
    obtain ⟨o, pool, hatt, ho⟩ := T.attention_total i (x := x.map (T.inputLayernorm i)) hbs
      (by simpa using hpos) (by simpa using hlen) hslots hroom hin
    rw [List.length_map] at hatt ho
    set y := List.zipWith (· + ·) x o with hy
    have hylen : y.length = x.length := by rw [hy, List.length_zipWith, ho, min_self]
    set z := List.zipWith (· + ·) y ((y.map (T.postAttentionLayernorm i)).map (T.mlp i)) with hz
    have hzlen : z.length = x.length := by
      rw [hz, List.length_zipWith, List.length_map, List.length_map, hylen, min_self]
    obtain ⟨o', pool', hrun, ho'⟩ := ih (c := { c with pool }) (x := z) (i + 1) hbs (hpos.trans hzlen.symm)
      (hlen.trans hzlen.symm) hslots hroom hin
    rw [hzlen] at hrun
    refine ⟨o', pool', ?_, ho'.trans hzlen⟩
    rw [layers, hatt]
    exact hrun

/-- **The forward of one sequence is total** where its slots and its table are in the pool: a row
for every token. -/
theorem forward_total (T : Transformer X D R) {tokenIds : List ℕ} (hbs : 0 < c.blockSize)
    (hpos : positions.length = tokenIds.length) (hlen : writeSlots.length = tokenIds.length)
    (hslots : ∀ s ∈ writeSlots, s < c.numSlots) (hroom : ctxLen ≤ ids.length * c.blockSize)
    (hin : ∀ b ∈ ids, b < c.manager.numBlocks) :
    ∃ o pool, T.forward tokenIds positions writeSlots [⟨ids, tokenIds.length, ctxLen⟩] c =
      (.ok o, { c with pool }) ∧ o.length = tokenIds.length := by
  obtain ⟨o, pool, hrun, ho⟩ := T.layers_total T.numLayers 0 (x := tokenIds.map T.embed) hbs
    (by simpa using hpos) (by simpa using hlen) hslots hroom hin
  rw [List.length_map] at hrun ho
  refine ⟨o.map T.norm, pool, ?_, by rwa [List.length_map]⟩
  unfold forward
  rw [hrun]

end Transformer

namespace LLMEngine

variable {κ X D R G : Type} {e e' e'' : LLMEngine κ D} {seqId : ℕ}

/-- **What the counts know of an engine**, whatever its blocks hold. -/
structure Tally (e : LLMEngine κ D) : Prop where
  blockSize_pos : 0 < e.blockSize
  tallied : e.cache.manager.Tallied e.pins
  cacheSize : ∀ c, e.prefixCache = some c → c.bs = e.blockSize

/-- A part of a call on `seqId` that keeps the tally. -/
structure Counts (e e' : LLMEngine κ D) (seqId : ℕ) : Prop where
  tally : Tally e'
  touches : BlockManager.Touches e.cache.manager e'.cache.manager seqId

theorem Counts.trans (h : Counts e e' seqId) (h' : Counts e' e'' seqId) : Counts e e'' seqId :=
  ⟨h'.tally, h.touches.trans h'.touches⟩

/-- A call on the manager. -/
theorem Tally.setManager (h : Tally e) {m : BlockManager} (hm : m.Tallied e.pins)
    (htouch : BlockManager.Touches e.cache.manager m seqId) : Counts e (e.setManager m) seqId :=
  ⟨⟨h.blockSize_pos.trans_eq htouch.blockSize.symm, hm,
    fun c hc => (h.cacheSize c hc).trans htouch.blockSize.symm⟩, htouch⟩

/-- What the counts do not see: the rows of the pool, the counter and the record of calls. -/
theorem Tally.write (h : Tally e) (seqId : ℕ) (pool : ℕ → ℕ → KV D) (q : ℕ) (calls : List ForwardCall) :
    Counts e ⟨{ e.cache with pool }, e.prefixCache, q, calls⟩ seqId :=
  ⟨⟨h.blockSize_pos, h.tallied, h.cacheSize⟩, .refl _ _⟩

section Cache

variable [DecidableEq κ]

/-- **`adopt`** returns pinned blocks and leaves at least one token to prefill. -/
theorem adopt_tally (H : RollingHash κ) (h : Tally e) (promptIds : List ℕ) :
    ∃ reuse e₁, e.adopt H promptIds = (reuse, e₁) ∧ Tally e₁ ∧ e₁.cache = e.cache ∧ e₁.pins = e.pins ∧
      (∀ b ∈ reuse, b ∈ e.pins) ∧ (reuse = [] ∨ reuse.length * e.blockSize < promptIds.length) := by
  unfold adopt
  cases hc : e.prefixCache with
  | none => exact ⟨[], e, rfl, h, rfl, rfl, by simp, Or.inl rfl⟩
  | some c =>
    obtain ⟨hp, -, hcbs, -, hi⟩ := PrefixCache.match_spec H c promptIds
    obtain ⟨hpre, hpop⟩ := popReuse_spec e.blockSize promptIds.length (c.match H promptIds).1.length
      (c.match H promptIds).1 le_rfl
    have hpins : e.pins = c.pins := pins_of_cache hc
    have hpins' : pins { e with prefixCache := some (c.match H promptIds).2 } = e.pins :=
      hp.trans hpins.symm
    refine ⟨_, _, rfl, ⟨h.blockSize_pos, hpins'.symm ▸ h.tallied, fun c' hc' => ?_⟩, rfl, hpins',
      fun b hb => ?_, hpop⟩
    · obtain rfl := Option.some.inj hc'
      exact hcbs.trans (h.cacheSize c hc)
    · obtain ⟨i, hib⟩ := List.getElem?_of_mem (hpre.mem hb)
      obtain ⟨node, hn, rfl⟩ := Option.map_eq_some_iff.1 (hi i b hib)
      rw [hpins]
      exact PrefixCache.mem_pins hn

/-- **`register`** of the blocks of a table returns and takes no block. -/
theorem register_tally (H : RollingHash κ) (h : Tally e) (promptIds : List ℕ) {t : BlockTable}
    (ht : e.cache.manager.tables.lookup seqId = some t) :
    ∃ e', e.register H promptIds t.blockIds = (.ok (), e') ∧ Counts e e' seqId ∧
      e'.cache.manager.tables = e.cache.manager.tables ∧
      e'.cache.manager.freeList = e.cache.manager.freeList := by
  unfold register
  cases hc : e.prefixCache with
  | none => exact ⟨e, rfl, ⟨h, .refl _ _⟩, rfl, rfl⟩
  | some c =>
    have hpins : e.pins = c.pins := pins_of_cache hc
    obtain ⟨c', m', heq, htal, hnb, hbs, htab, hfree, hcbs, -⟩ :=
      PrefixCache.insertLoop_tallied { c with clock := c.clock + 1 } e.cache.manager
        ((PrefixCache.blockHashes H c.bs promptIds).zip t.blockIds) (hpins ▸ h.tallied)
        fun kb hkb => Multiset.mem_add.2 (Or.inl
          (BlockManager.mem_tableBlocks ht (List.of_mem_zip hkb).2))
    refine ⟨{ e.setManager m' with prefixCache := some c' }, ?_, ⟨⟨h.blockSize_pos.trans_eq hbs.symm,
      htal, fun c₁ hc₁ => ?_⟩, hnb, hbs, fun s _ => by rw [← htab]; rfl⟩, htab, hfree⟩
    · simp only [PrefixCache.insert, heq]
    · obtain rfl := Option.some.inj hc₁
      exact (hcbs.trans (h.cacheSize c hc)).trans hbs.symm

end Cache

section Runs

variable [Zero D] [Add X]

/-- **A forward of one sequence** within its table and the pool. -/
theorem forward_tally (T : Transformer X D R) (h : Tally e) {t : BlockTable}
    (ht : e.cache.manager.tables.lookup seqId = some t) (reuse : List ℕ)
    {tokenIds positions writeSlots : List ℕ} {ctxLen : ℕ}
    (hpos : positions.length = tokenIds.length) (hlen : writeSlots.length = tokenIds.length)
    (hslots : ∀ s ∈ writeSlots, s < e.cache.numSlots) (hroom : ctxLen ≤ t.blockIds.length * e.blockSize) :
    ∃ hidden e', e.forward T.runner reuse tokenIds positions writeSlots
        [⟨t.blockIds, tokenIds.length, ctxLen⟩] = (.ok hidden, e') ∧ hidden.length = tokenIds.length ∧
      Counts e e' seqId ∧ e'.cache.manager = e.cache.manager := by
  obtain ⟨hidden, pool, hrun, hlen'⟩ := T.forward_total h.blockSize_pos hpos hlen hslots hroom
    (h.tallied.block_lt ht)
  refine ⟨hidden, _, ?_, hlen', h.write seqId pool e.lastPrefillTokens
    (e.calls ++ [⟨tokenIds, positions, writeSlots, e.held, reuse⟩]), rfl⟩
  rw [LLMEngine.forward, show T.runner.forward tokenIds positions writeSlots _ e.cache = _ from hrun]

variable [Field R] [LinearOrder R]

/-- There is a row to sample from. -/
theorem sampleNext_lastRow (torch : Torch R) (src : Source R G) (T : Transformer X D R)
    (params : SamplingParams R) {hidden : List X} (h : 0 < hidden.length) (g : G) :
    ∃ t g', sampleNext torch src params (T.runner.logits (lastRow hidden)) g = (.ok t, g') := by
  have hlen : (lastRow hidden).length = 1 := by
    rw [lastRow, List.length_drop]
    omega
  obtain ⟨x, hx⟩ := List.length_eq_one_iff.1 hlen
  rw [hx]
  exact ⟨_, _, sampleNext_singleton torch src params (T.lmHead x) g⟩

/-- **The decode loop** runs out of blocks only if those it may need are not there, and without
an end-of-sequence token it does so whenever they are not. -/
theorem decode_tally (torch : Torch R) (src : Source R G) (T : Transformer X D R) (reuse : List ℕ)
    (params : SamplingParams R) (eos : Option ℕ) (n nextId : ℕ) (h : Tally e) {t : BlockTable}
    (ht : e.cache.manager.tables.lookup seqId = some t)
    (hexact : t.blockIds.length = e.cache.manager.blocksNeeded t.numTokens) (g : G) :
    let need := e.cache.manager.blocksNeeded (t.numTokens + n)
    let room := e.cache.manager.freeList.length + t.blockIds.length
    ∃ r e' g', decode torch src T.runner seqId reuse params eos n nextId t.numTokens e g = (r, e', g') ∧
      Counts e e' seqId ∧
      ((∃ msg, r = .error (.OutOfBlocksError msg)) ∧ room < need ∨
        (∃ out, r = .ok out) ∧ (eos = none → need ≤ room)) := by
  induction n generalizing e t nextId g with
  | zero =>
    refine ⟨.ok [], e, g, rfl, ⟨h, .refl _ _⟩, Or.inr ⟨⟨[], rfl⟩, fun _ => ?_⟩⟩
    rw [Nat.add_zero, ← hexact]
    omega
  | succ n ih =>
    intro need room
    have hbs := h.blockSize_pos
    rw [decode]
    by_cases heos : some nextId = eos
    · rw [if_pos heos]
      refine ⟨.ok [], e, g, rfl, ⟨h, .refl _ _⟩, Or.inr ⟨⟨[], rfl⟩, fun hnone => ?_⟩⟩
      rw [hnone] at heos
      cases heos
    rw [if_neg heos]
    have hsucc := e.cache.manager.blocksNeeded_succ hbs t.numTokens
    have hmono : e.cache.manager.blocksNeeded (t.numTokens + 1) ≤ need :=
      BlockManager.blocksNeeded_mono _ hbs (by omega)
    rcases BlockManager.appendToken_tallied h.tallied hbs ht with
      ⟨h0, hnil, happ⟩ | ⟨new, b, m, happ, hext, hnew, hb, htal⟩
    · refine ⟨.error (.OutOfBlocksError "block pool exhausted"), e, g, ?_, ⟨h, .refl _ _⟩,
        Or.inl ⟨⟨_, rfl⟩, ?_⟩⟩
      · rw [happ]
        rfl
      · rw [if_pos h0, ← hexact] at hsucc
        have : room = t.blockIds.length := by
          show e.cache.manager.freeList.length + _ = _
          rw [hnil, List.length_nil, Nat.zero_add]
        omega
    have hc := h.setManager htal hext.toTouches
    have hbs' : (e.setManager m).blockSize = e.blockSize := hext.blockSize
    have hroom : t.numTokens + 1 ≤ (t.blockIds ++ new).length * (e.setManager m).blockSize :=
      htal.capacity seqId _ hext.table
    have hslot : ∀ s ∈ [b * e.blockSize + t.numTokens % e.cache.manager.blockSize],
        s < (e.setManager m).cache.numSlots := by
      intro s hs
      obtain rfl := List.mem_singleton.1 hs
      have hpaged : Paging.slotAt m.blockSize (t.blockIds ++ new) t.numTokens < m.numBlocks * m.blockSize :=
        Paging.slotAt_lt (hbs.trans_eq hbs'.symm) (htal.block_lt hext.table) hroom
      have hat : Paging.slotAt e.blockSize (t.blockIds ++ new) t.numTokens =
          b * e.blockSize + t.numTokens % e.blockSize := Paging.slotAt_of_getElem? hb
      rw [show m.blockSize = e.blockSize from hbs', hat] at hpaged
      show _ < m.numBlocks * m.blockSize
      rw [show m.blockSize = e.blockSize from hbs']
      exact hpaged
    obtain ⟨hidden, e₁, hfwd, hhidden, hc₁, hman⟩ := forward_tally T hc.tally hext.table reuse
      (show [t.numTokens].length = [nextId].length from rfl)
      (show [b * e.blockSize + t.numTokens % e.cache.manager.blockSize].length = _ from rfl) hslot hroom
    obtain ⟨x, g₁, hdraw⟩ := sampleNext_lastRow torch src T params
      (show 0 < hidden.length by rw [hhidden]; exact Nat.one_pos) g
    have hcount := hc.trans hc₁
    have hbn : ∀ k, e₁.cache.manager.blocksNeeded k = e.cache.manager.blocksNeeded k :=
      BlockManager.blocksNeeded_congr hcount.touches.blockSize
    have htable : e₁.cache.manager.tables.lookup seqId = some ⟨t.blockIds ++ new, t.numTokens + 1⟩ := by
      rw [hman]
      exact hext.table
    have hexact' : (t.blockIds ++ new).length = e₁.cache.manager.blocksNeeded (t.numTokens + 1) := by
      rw [hbn, hsucc, List.length_append, hexact, hnew]
    obtain ⟨r, e', g', hdec, hc', hcase⟩ := ih x hc₁.tally htable hexact' g₁
    have hneed : e₁.cache.manager.blocksNeeded (t.numTokens + 1 + n) = need := by
      rw [hbn]
      exact congrArg _ (by omega)
    have hroom' : e₁.cache.manager.freeList.length + (t.blockIds ++ new).length = room := by
      have := congrArg List.length hext.freeList
      rw [List.length_append, List.length_reverse] at this
      rw [hman, List.length_append]
      show m.freeList.length + (t.blockIds.length + new.length) = _
      omega
    dsimp only at hdec hcase
    rw [hneed, hroom'] at hcase
    have htab : m.blockTable seqId = .ok ⟨t.blockIds ++ new, t.numTokens + 1⟩ := by
      rw [BlockManager.blockTable, hext.table]
    have hfwd : (e.setManager m).forward T.runner reuse [nextId] [t.numTokens]
        [b * e.blockSize + t.numTokens % e.cache.manager.blockSize]
        [⟨t.blockIds ++ new, 1, t.numTokens + 1⟩] = (.ok hidden, e₁) := hfwd
    simp only [happ, htab, hfwd, hdraw, hdec]
    rcases hcase with ⟨⟨msg, rfl⟩, hshort⟩ | ⟨⟨out, rfl⟩, hfits⟩
    · exact ⟨_, e', g', rfl, hcount.trans hc', Or.inl ⟨⟨msg, rfl⟩, hshort⟩⟩
    · exact ⟨_, e', g', rfl, hcount.trans hc', Or.inr ⟨⟨_, rfl⟩, hfits⟩⟩

variable [DecidableEq κ]

omit [Zero D] [Add X] [Field R] [LinearOrder R] [DecidableEq κ] in
/-- The positions that a prefill writes lie in the table. -/
theorem Tally.prefill_lt (h : Tally e) {promptIds reuse new : List ℕ}
    (ht : e.cache.manager.tables.lookup seqId = some ⟨reuse ++ new, promptIds.length⟩)
    (hshort : reuse = [] ∨ reuse.length * e.blockSize < promptIds.length) :
    reuse.length * e.blockSize ≤ promptIds.length ∧
      ∀ p ∈ List.range' (reuse.length * e.blockSize) (promptIds.length - reuse.length * e.blockSize),
        p < (reuse ++ new).length * e.blockSize := by
  have hcap : promptIds.length ≤ (reuse ++ new).length * e.blockSize := h.tallied.capacity seqId _ ht
  have hle : reuse.length * e.blockSize ≤ promptIds.length := by
    rcases hshort with hnil | hlt
    · rw [hnil, List.length_nil, Nat.zero_mul]
      exact Nat.zero_le _
    · exact hlt.le
  refine ⟨hle, fun p hp => ?_⟩
  have := (List.mem_range'_1.1 hp).2
  omega

omit [Field R] [LinearOrder R] in
/-- **A prefill up to its draw**: the rest of the prompt is forwarded, the table gets its tokens and the
prompt is registered, and no block is taken. -/
theorem prefill_steps (H : RollingHash κ) (T : Transformer X D R) (h : Tally e) {promptIds reuse new : List ℕ}
    (ht : e.cache.manager.tables.lookup seqId = some ⟨reuse ++ new, promptIds.length⟩)
    (hshort : reuse = [] ∨ reuse.length * e.blockSize < promptIds.length) :
    let start := reuse.length * e.blockSize
    let q := promptIds.length - start
    let table : BlockTable := ⟨reuse ++ new, promptIds.length⟩
    ∃ hidden e₁ e₃, { e with lastPrefillTokens := q }.forward T.runner reuse (promptIds.drop start)
        (List.range' start q) ((List.range' start q).map (Paging.slotAt e.cache.blockSize (reuse ++ new)))
        [⟨reuse ++ new, q, promptIds.length⟩] = (.ok hidden, e₁) ∧
      hidden.length = q ∧ e₁.cache.manager = e.cache.manager ∧
      Counts e (e₁.setManager (e₁.cache.manager.setTable seqId table)) seqId ∧
      (e₁.setManager (e₁.cache.manager.setTable seqId table)).register H promptIds (reuse ++ new) =
        (.ok (), e₃) ∧
      Counts (e₁.setManager (e₁.cache.manager.setTable seqId table)) e₃ seqId ∧
      e₃.cache.manager.tables.lookup seqId = some table ∧
      e₃.cache.manager.freeList = e.cache.manager.freeList := by
  intro start q table
  have hbs := h.blockSize_pos
  have hcap : promptIds.length ≤ (reuse ++ new).length * e.blockSize := h.tallied.capacity seqId _ ht
  obtain ⟨-, hin⟩ := h.prefill_lt ht hshort
  have hrange : ∀ s ∈ (List.range' start q).map (Paging.slotAt e.cache.blockSize (reuse ++ new)),
      s < e.cache.numSlots := by
    intro s hs
    obtain ⟨p, hp, rfl⟩ := List.mem_map.1 hs
    exact Paging.slotAt_lt hbs (h.tallied.block_lt ht) (hin p hp)
  have hc₀ := h.write seqId e.cache.pool q e.calls
  obtain ⟨hidden, e₁, hfwd, hlen, hc₁, hman⟩ := forward_tally T hc₀.tally ht reuse
    (show (List.range' start q).length = (promptIds.drop start).length by
      rw [List.length_range', List.length_drop])
    (by rw [List.length_map, List.length_range', List.length_drop]) hrange hcap
  rw [List.length_drop] at hlen hfwd
  set m₂ := e₁.cache.manager.setTable seqId table with hm₂
  have ht₁ : e₁.cache.manager.tables.lookup seqId = some table := by rw [hman]; exact ht
  have hcap₁ : promptIds.length ≤ table.blockIds.length * e₁.cache.manager.blockSize := by
    rw [hman]
    exact hcap
  have ht₂ : (e₁.setManager m₂).cache.manager.tables.lookup seqId = some table := AList.lookup_insert _
  have hc₂ := hc₁.tally.setManager (hc₁.tally.tallied.setTokens ht₁ hcap₁)
    (BlockManager.touches_setTable (t := table))
  obtain ⟨e₃, hreg, hc₃, htab₃, hfree₃⟩ := register_tally H hc₂.tally promptIds ht₂
  refine ⟨hidden, e₁, e₃, hfwd, hlen, hman, (hc₀.trans hc₁).trans hc₂, hreg, hc₃, htab₃ ▸ ht₂, ?_⟩
  rw [hfree₃]
  show e₁.cache.manager.freeList = _
  rw [hman]

/-- **The prefill** of a prompt that got its table draws a token, unless the prompt is empty, and
takes no block. -/
theorem prefill_tally (H : RollingHash κ) (torch : Torch R) (src : Source R G) (T : Transformer X D R)
    (h : Tally e) {promptIds reuse new : List ℕ}
    (ht : e.cache.manager.tables.lookup seqId = some ⟨reuse ++ new, promptIds.length⟩)
    (hshort : reuse = [] ∨ reuse.length * e.blockSize < promptIds.length) (params : SamplingParams R)
    (g : G) :
    ∃ r e' g', e.prefill H torch src T.runner g seqId promptIds reuse ⟨reuse ++ new, promptIds.length⟩
        params = (r, e', g') ∧ Counts e e' seqId ∧
      e'.cache.manager.freeList = e.cache.manager.freeList ∧
      e'.cache.manager.tables.lookup seqId = some ⟨reuse ++ new, promptIds.length⟩ ∧
      (promptIds = [] ∧ r = .error .IndexError ∨ promptIds ≠ [] ∧ ∃ t, r = .ok t) := by
  have hbs := h.blockSize_pos
  obtain ⟨-, hin⟩ := h.prefill_lt ht hshort
  have hslots := e.cache.slotsForPositions_spec hbs (reuse ++ new) hin
  obtain ⟨hidden, e₁, e₃, hfwd, hlen, -, hc, hreg, hc₃, ht₃, hfree⟩ := prefill_steps H T h ht hshort
  have hprefill := prefill_eq torch src ⟨reuse ++ new, promptIds.length⟩ params g hslots hfwd hreg
  refine ⟨(sampleNext torch src params (T.runner.logits (lastRow hidden)) g).1, e₃,
    (sampleNext torch src params (T.runner.logits (lastRow hidden)) g).2, hprefill, hc.trans hc₃, hfree, ht₃, ?_⟩
  by_cases h0 : promptIds = []
  · refine Or.inl ⟨h0, ?_⟩
    have hnil : hidden = [] := List.length_eq_zero_iff.1 (hlen.trans (by rw [h0]; simp))
    rw [hnil]
    exact congrArg Prod.fst (sampleNext_nil torch src params g)
  · have hpos : 0 < hidden.length := by
      have : 0 < promptIds.length := List.length_pos_iff.2 h0
      rcases hshort with hnil | hlt
      · rw [hlen, hnil, List.length_nil, Nat.zero_mul]
        exact this
      · omega
    obtain ⟨t, g', hdraw⟩ := sampleNext_lastRow torch src T params hpos g
    exact Or.inr ⟨h0, t, congrArg Prod.fst hdraw⟩

/-- **One call of `generate`** on an engine without tables.  It runs out of blocks only if those it
may need are not there, and without an end-of-sequence token it does so whenever they are
not. -/
theorem generate_tally (H : RollingHash κ) (torch : Torch R) (src : Source R G) (T : Transformer X D R)
    (h : Tally e) (hno : ∀ s, e.cache.manager.tables.lookup s = none) (g : G) (seqId : ℕ)
    (promptIds : List ℕ) (maxNewTokens : ℕ) (params : SamplingParams R) (eos : Option ℕ) :
    let need := e.cache.manager.blocksNeeded (promptIds.length + (maxNewTokens - 1))
    ∃ r e' g', e.generate H torch src T.runner g seqId promptIds maxNewTokens params eos = (r, e', g') ∧
      Counts e e' seqId ∧ (∀ s, e'.cache.manager.tables.lookup s = none) ∧
      ((∃ msg, r = .error (.OutOfBlocksError msg)) → e.room H promptIds < need) ∧
      (promptIds ≠ [] → eos = none → e.room H promptIds < need →
        ∃ msg, r = .error (.OutOfBlocksError msg)) := by
  intro need
  have hbs := h.blockSize_pos
  obtain ⟨reuse, e₁, hadopt, htal₁, hcache₁, hpins₁, hrpins, hshort⟩ := adopt_tally H h promptIds
  have hroom : e.room H promptIds = e.cache.manager.freeList.length + reuse.length := by
    rw [room, hadopt]
    rfl
  have hrlen : reuse.length ≤ e.cache.manager.blocksNeeded promptIds.length :=
    BlockManager.length_le_blocksNeeded _ hbs hshort
  have hmono : e.cache.manager.blocksNeeded promptIds.length ≤ need :=
    BlockManager.blocksNeeded_mono _ hbs (Nat.le_add_right _ _)
  unfold generate
  rw [hadopt]
  simp only [hcache₁]
  rcases BlockManager.allocate_tallied h.tallied hbs seqId promptIds.length
      (fun b hb => Multiset.mem_add.2 (Or.inr (hrpins b hb))) hrlen with
    ⟨hhas, -⟩ | ⟨-, hfew, msg, heq⟩ | ⟨-, new, m, heq, hext, hnewlen, htal⟩
  · exact absurd hhas (by rw [BlockManager.hasTable, hno]; simp)
  · refine ⟨.error (.OutOfBlocksError msg), e₁, g, ?_, ⟨htal₁, by rw [hcache₁]; exact .refl _ _⟩, ?_,
      fun _ => by omega, fun _ _ _ => ⟨msg, rfl⟩⟩
    · rw [heq]
      simp only
      rw [← hcache₁]
      rfl
    · rwa [hcache₁]
  have hc₂ : Counts e₁ (e₁.setManager m) seqId := by
    refine htal₁.setManager (hpins₁.symm ▸ htal) ?_
    rw [hcache₁]
    exact hext.toTouches
  have hbs₂ : (e₁.setManager m).blockSize = e.blockSize := hext.blockSize
  obtain ⟨r₃, e₃, g₃, hpre, hc₃, hfree₃, ht₃, hdraw⟩ := prefill_tally H torch src T hc₂.tally
    (show (e₁.setManager m).cache.manager.tables.lookup seqId = _ from hext.table)
    (by rwa [hbs₂]) params g
  have htouch₃ : BlockManager.Touches e.cache.manager e₃.cache.manager seqId :=
    hext.toTouches.trans hc₃.touches
  have hroom₃ : e₃.cache.manager.freeList.length + (reuse ++ new).length = e.room H promptIds := by
    have hlen := congrArg List.length hext.freeList
    rw [List.length_append, List.length_reverse] at hlen
    rw [hfree₃, List.length_append, hroom]
    show m.freeList.length + (reuse.length + new.length) = _
    omega
  have hbn : ∀ k, e₃.cache.manager.blocksNeeded k = e.cache.manager.blocksNeeded k :=
    BlockManager.blocksNeeded_congr htouch₃.blockSize
  -- `finally`, whatever the body did
  have hend : ∀ e₄, Counts e₃ e₄ seqId → ∃ m', e₄.cache.manager.free seqId = (.ok (), m') ∧
      Counts e (e₄.setManager m') seqId ∧ ∀ s, m'.tables.lookup s = none := by
    intro e₄ hc₄
    obtain ⟨m', hfr, htouch', -, hgone, htal'⟩ := BlockManager.free_tallied hc₄.tally.tallied seqId
    have hall := htouch₃.trans hc₄.touches
    refine ⟨m', hfr, ⟨(hc₄.tally.setManager htal' htouch').tally, hall.trans htouch'⟩, fun s => ?_⟩
    rcases eq_or_ne s seqId with rfl | hs
    · exact hgone
    · exact (htouch'.others s hs).trans ((hall.others s hs).trans (hno s))
  rw [heq]
  rcases hdraw with ⟨h0, rfl⟩ | ⟨h0, t, rfl⟩
  · obtain ⟨m', hfr, hc, hgone⟩ := hend e₃ ⟨hc₃.tally, .refl _ _⟩
    refine ⟨.error .IndexError, e₃.setManager m', g₃, by simp only [generateBody, hpre, hfr], hc, hgone,
      by rintro ⟨-, ⟨⟩⟩, fun hne => absurd h0 hne⟩
  have hexact : (reuse ++ new).length = e₃.cache.manager.blocksNeeded promptIds.length := by
    rw [hbn, List.length_append, hnewlen, Nat.add_sub_cancel' hrlen]
  obtain ⟨r₄, e₄, g₄, hdec, hc₄, hcase⟩ := decode_tally torch src T reuse params eos (maxNewTokens - 1) t
    hc₃.tally ht₃ hexact g₃
  dsimp only at hdec hcase
  rw [hbn, hroom₃] at hcase
  obtain ⟨m', hfr, hc, hgone⟩ := hend e₄ hc₄
  rcases hcase with ⟨⟨msg, rfl⟩, hshort'⟩ | ⟨⟨out, rfl⟩, hfits⟩
  · exact ⟨.error (.OutOfBlocksError msg), e₄.setManager m', g₄, by simp only [generateBody, hpre, hdec, hfr],
      hc, hgone, fun _ => hshort', fun _ _ _ => ⟨msg, rfl⟩⟩
  · refine ⟨.ok (t :: out), e₄.setManager m', g₄, by simp only [generateBody, hpre, hdec, hfr], hc, hgone,
      by rintro ⟨-, ⟨⟩⟩, fun _ hnone hlt => ?_⟩
    exact absurd (hfits hnone) (not_le.2 hlt)

omit [Field R] [LinearOrder R] in
/-- A new engine. -/
theorem init_tally (T : Transformer X D R) (H : RollingHash κ) (numBlocks : ℕ) {blockSize : ℕ}
    (hbs : 0 < blockSize) (prefixCache : Bool) :
    Tally (init T numBlocks blockSize prefixCache : LLMEngine κ D) :=
  have h := init_sound T H numBlocks hbs prefixCache
  ⟨h.blockSize_pos, h.accounted.tallied, h.cacheSize⟩

/-- **Every sequence of calls keeps the tally** and leaves no table. -/
theorem Served.tally (torch : Torch R) (src : Source R G) (T : Transformer X D R) (H : RollingHash κ)
    {numBlocks blockSize : ℕ} (hbs : 0 < blockSize) {prefixCache : Bool} {e : LLMEngine κ D}
    (h : Served H torch src T.runner (init T numBlocks blockSize prefixCache) e) :
    Tally e ∧ (∀ s, e.cache.manager.tables.lookup s = none) ∧ e.cache.manager.numBlocks = numBlocks ∧
      e.blockSize = blockSize := by
  induction h with
  | start => exact ⟨init_tally T H numBlocks hbs prefixCache, fun _ => rfl, rfl, rfl⟩
  | @call e g seqId promptIds maxNewTokens params eos _ ih =>
    obtain ⟨htal, hno, hnb, hbs'⟩ := ih
    obtain ⟨r, e', g', heq, hc, hno', -⟩ :=
      generate_tally H torch src T htal hno g seqId promptIds maxNewTokens params eos
    rw [heq]
    exact ⟨hc.tally, hno', hc.touches.numBlocks.trans hnb, hc.touches.blockSize.trans hbs'⟩

end Runs

end LLMEngine

open LLMEngine

variable {κ X D R G : Type} [Zero D] [Add X] [DecidableEq κ] [Field R] [LinearOrder R]

/-- **A call is served iff its blocks fit in what the pins leave.**  After any calls on an engine
with a prefix cache, a request never runs out of blocks, whatever its sampling and its
end-of-sequence token, iff the blocks for all tokens it may draw fit in the room left by
the pins; a call without an end-of-sequence token runs out of blocks iff they do not.  If
the hash does not collide, any call runs out of blocks iff the tokens that are in fact
drawn do not fit. -/
theorem served_iff_room (torch : Torch R) (src : Source R G) (T : Transformer X D R) (H : RollingHash κ)
    {numBlocks blockSize : ℕ} (hbs : 1 ≤ blockSize) {e : LLMEngine κ D}
    (h : Served H torch src T.runner (init T numBlocks blockSize true) e) {promptIds : List ℕ}
    (h0 : promptIds ≠ []) {maxNewTokens : ℕ} (hmax : 1 ≤ maxNewTokens) (g : G) :
    let outOfBlocks seqId params eos := ∃ msg,
      (e.generate H torch src T.runner g seqId promptIds maxNewTokens params eos).1 =
        .error (.OutOfBlocksError msg)
    let need := e.cache.manager.blocksNeeded (promptIds.length + maxNewTokens - 1)
    ((∀ seqId params eos, ¬outOfBlocks seqId params eos) ↔ need ≤ e.room H promptIds) ∧
    (∀ seqId params, ¬outOfBlocks seqId params none ↔ need ≤ e.room H promptIds) ∧
    (H.PrefixInjective blockSize → ∀ seqId params eos,
      let out := ((reference torch T params eos maxNewTokens promptIds).run src g).1
      ¬outOfBlocks seqId params eos ↔
        e.cache.manager.blocksNeeded (promptIds.length + out.length - 1) ≤ e.room H promptIds) := by
  intro outOfBlocks need
  obtain ⟨htal, hno, hnb, hbs'⟩ := h.tally torch src T H hbs
  have hneed : e.cache.manager.blocksNeeded (promptIds.length + (maxNewTokens - 1)) = need :=
    congrArg _ (by omega)
  have hcall : ∀ seqId params eos, (outOfBlocks seqId params eos → e.room H promptIds < need) ∧
      (eos = none → e.room H promptIds < need → outOfBlocks seqId params eos) := by
    intro seqId params eos
    obtain ⟨r, e', g', heq, -, -, honly, hshort⟩ :=
      generate_tally H torch src T htal hno g seqId promptIds maxNewTokens params eos
    have hr : (e.generate H torch src T.runner g seqId promptIds maxNewTokens params eos).1 = r :=
      congrArg Prod.fst heq
    rw [hneed] at honly hshort
    simp only [outOfBlocks, hr]
    exact ⟨honly, hshort h0⟩
  have hnone : ∀ seqId params, ¬outOfBlocks seqId params none ↔ need ≤ e.room H promptIds := by
    intro seqId params
    rw [← not_lt, not_iff_not]
    exact ⟨(hcall seqId params none).1, (hcall seqId params none).2 rfl⟩
  refine ⟨⟨fun hall => (hnone 0 .default).1 (hall 0 .default none), fun hfits seqId params eos hraise => ?_⟩,
    hnone, ?_⟩
  · exact absurd ((hcall seqId params eos).1 hraise) (not_lt.2 hfits)
  · intro hH seqId params eos out
    obtain ⟨hs, -, -, -, -⟩ := h.sound torch src T H hbs fun _ => hH
    obtain ⟨r, e', g', heq, -, -, -, -, -, -, hcase⟩ := generate_spec torch src hs hno
      (fun _ _ => hbs' ▸ hH) g seqId promptIds maxNewTokens params eos
    have hr : (e.generate H torch src T.runner g seqId promptIds maxNewTokens params eos).1 = r :=
      congrArg Prod.fst heq
    simp only [outOfBlocks, hr]
    rcases hcase with ⟨hnil, -⟩ | ⟨-, hmsg, hshort⟩ | ⟨-, hok, -, hfits, -⟩
    · exact absurd hnil h0
    · exact iff_of_false (not_not.2 hmsg) (not_le.2 hshort)
    · refine iff_of_true ?_ hfits
      rw [(Prod.mk.inj hok).1]
      rintro ⟨msg, hmsg⟩
      cases hmsg

/-- The hypotheses are satisfiable, and the pins win: after two prompts of one block each on a pool
of two blocks, a third prompt of one block runs out of blocks. -/
theorem served_iff_room_pinned :
    let torch : Torch ℚ := ⟨id, fun _ => []⟩
    let src : Source ℚ Unit := ⟨fun g => (0, g), fun _ g => (0, g)⟩
    let call (e : LLMEngine (List ℕ) ℤ) (t : ℕ) :=
      e.generate listHash torch src sumModel.runner () t [t] 1 .default none
    let e := (call (call (init sumModel 2 1 true) 0).2.1 1).2.1
    ∃ msg, (call e 2).1 = .error (.OutOfBlocksError msg) := by
  intro torch src call e
  have hserved : Served listHash torch src sumModel.runner (init sumModel 2 1 true) e :=
    .call () 1 [1] 1 .default none (.call () 0 [0] 1 .default none .start)
  have h := served_iff_room torch src sumModel listHash (le_refl 1) hserved (List.cons_ne_nil 2 [])
    (le_refl 1) ()
  exact not_not.1 fun hserved => absurd ((h.2.1 2 .default).1 hserved) (by decide +kernel)

/-- **The pins starve a request that fits in the pool.**  On a pool of two blocks of one token the
prompts `[0]` and `[1]` leave both blocks pinned; the prompt `[2]` needs one block and raises,
although no sequence is live and `evict` would have freed a block. -/
theorem pinned_pool_refuses :
    let torch : Torch ℚ := ⟨id, fun _ => []⟩
    let src : Source ℚ Unit := ⟨fun g => (0, g), fun _ g => (0, g)⟩
    let call (e : LLMEngine (List ℕ) ℤ) (t : ℕ) :=
      e.generate listHash torch src sumModel.runner () t [t] 1 .default none
    let e := (call (call (init sumModel 2 1 true) 0).2.1 1).2.1
    Served listHash torch src sumModel.runner (init sumModel 2 1 true) e ∧
      e.cache.manager.blocksNeeded (1 + 1 - 1) ≤ 2 ∧ e.cache.manager.tables.entries = [] ∧
      (call e 2).1 = .error (.OutOfBlocksError "need 1 blocks, have 0") ∧
      ∀ c ∈ e.prefixCache, (c.evict e.cache.manager 1).2.2.freeList.length = 1 :=
  ⟨.call () 1 [1] 1 .default none (.call () 0 [0] 1 .default none .start), by decide +kernel,
    by decide +kernel, by decide +kernel, by decide +kernel⟩

end DiSpec
