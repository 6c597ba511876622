/-
# Prefill and decode in separate workers

`dispec/workers/disaggregated.py`: `prefill_export`, `decode_from_kv`.

A prefill worker computes the KV of a prompt and the first token, exports the KV as
contiguous tensors and frees the sequence.  A decode worker imports the tensors into
blocks of its own pool and generates from the first token.  Neither stage has a `try`:
what raises leaves its sequence allocated.  The transport in between hands over what
it was given.

The decode loop is written a second time here, but it is the loop of
`LLMEngine.generate` (`decodeLoop_eq`), so `LLMEngine.decode_spec` says what it draws.
What a stage leaves alone is its own argument: it writes only blocks that were free
when it began (`Kept`), hence no slot of another live sequence.
-/

import DiSpec.Engine.Transparency

namespace DiSpec

section Definitions

variable {X D R G : Type} [Field R] [LinearOrder R]

/-- `cache.manager` after a call on it. -/
def PagedKVCache.setManager (c : PagedKVCache D) (m : BlockManager) : PagedKVCache D :=
  { c with manager := m }

/-- `prefill_export`: prefill a prompt; return its contiguous KV and the first token. -/
def prefillExport (torch : Torch R) (src : Source R G) (runner : ModelRunner X D R)
    (c : PagedKVCache D) (g : G) (sid : ℕ) (promptIds : List ℕ) (params : SamplingParams R) :
    Except Exc (KVTensor D × KVTensor D × ℕ) × PagedKVCache D × G :=
  let n := promptIds.length
  match c.manager.allocate sid n [] with
  | (.error x, m) => (.error x, c.setManager m, g)
  | (.ok table, m) =>
    let c := c.setManager m
    match c.contextSlots table.blockIds n with
    | .error x => (.error x, c, g)
    | .ok slots =>
      let c := c.setManager (c.manager.setTable sid { table with numTokens := n })
      match runner.forwardList promptIds (List.range n) slots [⟨table.blockIds, n, n⟩] c with
      | (.error x, c) => (.error x, c, g)
      | (.ok hidden, c) =>
        match LLMEngine.sampleNext torch src params (runner.logits (lastRow hidden)) g with
        | (.error x, g) => (.error x, c, g)
        | (.ok first, g) =>
          match c.exportContiguous table.blockIds n with
          | .error x => (.error x, c, g)
          | .ok (k, v) =>
            match c.manager.free sid with
            | (.error x, m) => (.error x, c.setManager m, g)
            | (.ok (), m) => (.ok (k, v, first), c.setManager m, g)

/-- The loop of `decode_from_kv`, with `n` tokens still allowed after `nxt`, which stands
at position `cur`. -/
def decodeLoop (torch : Torch R) (src : Source R G) (runner : ModelRunner X D R) (sid : ℕ)
    (params : SamplingParams R) (eos : Option ℕ) :
    (n nxt cur : ℕ) → PagedKVCache D → G → Except Exc (List ℕ) × PagedKVCache D × G
  | 0, _, _, c, g => (.ok [], c, g)
  | n + 1, nxt, cur, c, g =>
    if some nxt = eos then (.ok [], c, g)
    else
      match c.manager.appendToken sid with
      | (.error x, m) => (.error x, c.setManager m, g)
      | (.ok (blk, off), m) =>
        -- `table` is the object that `append_token` just changed
        match m.blockTable sid with
        | .error x => (.error x, c.setManager m, g)
        | .ok table =>
          match runner.forward [nxt] [cur] [blk * c.blockSize + off] [⟨table.blockIds, 1, cur + 1⟩]
            (c.setManager m) with
          | (.error x, c) => (.error x, c, g)
          | (.ok hidden, c) =>
            match LLMEngine.sampleNext torch src params (runner.logits (lastRow hidden)) g with
            | (.error x, g) => (.error x, c, g)
            | (.ok t, g) =>
              match decodeLoop torch src runner sid params eos n t (cur + 1) c g with
              | (.error x, c, g) => (.error x, c, g)
              | (.ok out, c, g) => (.ok (t :: out), c, g)

/-- `decode_from_kv`: import transferred KV and generate from `firstToken`. -/
def decodeFromKv (torch : Torch R) (src : Source R G) (runner : ModelRunner X D R)
    (c : PagedKVCache D) (g : G) (sid : ℕ) (promptIds : List ℕ) (k v : KVTensor D)
    (firstToken maxNew : ℕ) (params : SamplingParams R) (eos : Option ℕ) :
    Except Exc (List ℕ) × PagedKVCache D × G :=
  let n := promptIds.length
  match c.manager.allocate sid n [] with
  | (.error x, m) => (.error x, c.setManager m, g)
  | (.ok table, m) =>
    match (c.setManager m).importContiguous table.blockIds k v with
    | (.error x, c) => (.error x, c, g)
    | (.ok (), c) =>
      let c := c.setManager (c.manager.setTable sid { table with numTokens := n })
      match decodeLoop torch src runner sid params eos (maxNew - 1) firstToken n c g with
      | (.error x, c, g) => (.error x, c, g)
      | (.ok out, c, g) =>
        match c.manager.free sid with
        | (.error x, m) => (.error x, c.setManager m, g)
        | (.ok (), m) => (.ok (firstToken :: out), c.setManager m, g)

end Definitions

/-! ### One loop, written twice -/

section Loops

variable {κ X D R G : Type} [Field R] [LinearOrder R]

/-- **The decode loop of the worker is the loop of the engine** over the same cache, whatever
the engine recorded of it. -/
theorem decodeLoop_eq (torch : Torch R) (src : Source R G) (runner : ModelRunner X D R) (sid : ℕ)
    (reuse : List ℕ) (params : SamplingParams R) (eos : Option ℕ) (n nxt cur : ℕ) (e : LLMEngine κ D)
    (g : G) {r : Except Exc (List ℕ)} {e' : LLMEngine κ D} {g' : G}
    (h : LLMEngine.decode torch src runner sid reuse params eos n nxt cur e g = (r, e', g')) :
    decodeLoop torch src runner sid params eos n nxt cur e.cache g = (r, e'.cache, g') := by
  induction n generalizing nxt cur e g r e' g' with
  | zero =>
    cases h
    rfl
  | succ n ih =>
    rw [LLMEngine.decode] at h
    rw [decodeLoop]
    by_cases heos : some nxt = eos
    · rw [if_pos heos] at h ⊢
      cases h
      rfl
    rw [if_neg heos] at h ⊢
    rcases happ : e.cache.manager.appendToken sid with ⟨x | ⟨blk, off⟩, m⟩
    · simp only [happ] at h ⊢
      cases h
      rfl
    simp only [happ] at h ⊢
    rcases htab : m.blockTable sid with x | table
    · simp only [htab] at h ⊢
      cases h
      rfl
    simp only [htab] at h ⊢
    have hfwd : (e.setManager m).forward runner reuse [nxt] [cur] [blk * e.blockSize + off]
          [⟨table.blockIds, 1, cur + 1⟩] =
        ((runner.forward [nxt] [cur] [blk * e.cache.blockSize + off] [⟨table.blockIds, 1, cur + 1⟩]
            (e.cache.setManager m)).1,
          { e with
            cache := (runner.forward [nxt] [cur] [blk * e.cache.blockSize + off]
              [⟨table.blockIds, 1, cur + 1⟩] (e.cache.setManager m)).2
            calls := e.calls ++ [⟨[nxt], [cur], [blk * e.blockSize + off], e.held, reuse⟩] }) := rfl
    rw [hfwd] at h
    rcases hrun : runner.forward [nxt] [cur] [blk * e.cache.blockSize + off]
      [⟨table.blockIds, 1, cur + 1⟩] (e.cache.setManager m) with ⟨x | hidden, c⟩
    · simp only [hrun] at h ⊢
      cases h
      rfl
    simp only [hrun] at h ⊢
    rcases hdraw : LLMEngine.sampleNext torch src params (runner.logits (lastRow hidden)) g with
      ⟨x | t, g₁⟩
    · simp only [hdraw] at h ⊢
      cases h
      rfl
    simp only [hdraw] at h ⊢
    rcases hrest : LLMEngine.decode torch src runner sid reuse params eos n t (cur + 1)
      { e with
        cache := c
        calls := e.calls ++ [⟨[nxt], [cur], [blk * e.blockSize + off], e.held, reuse⟩] } g₁ with
      ⟨r₂, e₂, g₂⟩
    have hloop := ih _ _ _ _ hrest
    simp only [hrest] at h
    simp only at hloop
    rw [hloop]
    cases r₂ with
    | error x =>
      cases h
      rfl
    | ok out =>
      cases h
      rfl

end Loops

/-! ### What a stage leaves alone -/

section Kept

variable {X D R G : Type}

/-- From `c` to `c'` a stage for `sid` touched no other table and wrote only blocks that were
free in `c`. -/
structure Kept (c c' : PagedKVCache D) (sid : ℕ) : Prop where
  touches : BlockManager.Touches c.manager c'.manager sid
  pool : ∀ i sl, sl / c.blockSize ∉ c.manager.freeList → c'.pool i sl = c.pool i sl

/-- A stage that is under way: besides, the blocks it holds and those still free were free in `c`. -/
structure Underway (c c' : PagedKVCache D) (sid : ℕ) (pins : Multiset ℕ) (t : BlockTable) : Prop
    extends Kept c c' sid where
  accounted : c'.manager.Accounted pins
  table : c'.manager.tables.lookup sid = some t
  own : ∀ b ∈ t.blockIds, b ∈ c.manager.freeList
  free : c'.manager.freeList ⊆ c.manager.freeList

theorem Kept.refl (c : PagedKVCache D) (sid : ℕ) : Kept c c sid := ⟨.refl _ _, fun _ _ _ => rfl⟩

/-- A call on the manager for `sid` writes nothing. -/
theorem Kept.setManager {c c' : PagedKVCache D} {sid : ℕ} (h : Kept c c' sid) {m : BlockManager}
    (hm : BlockManager.Touches c'.manager m sid) : Kept c (c'.setManager m) sid :=
  ⟨h.touches.trans hm, h.pool⟩

/-- `free`, at the end of a stage. -/
theorem Underway.freed {c c' : PagedKVCache D} {sid : ℕ} {pins : Multiset ℕ} {t : BlockTable}
    (h : Underway c c' sid pins t) :
    ∃ m, c'.manager.free sid = (.ok (), m) ∧ Kept c (c'.setManager m) sid := by
  obtain ⟨m, hfr, htouch, -⟩ := BlockManager.free_spec h.accounted sid
  exact ⟨m, hfr, h.toKept.setManager htouch⟩

/-- Writing slots of its own blocks keeps a stage within its bounds. -/
theorem Underway.write {c c' : PagedKVCache D} {sid : ℕ} {pins : Multiset ℕ} {t : BlockTable}
    (h : Underway c c' sid pins t) {pool : ℕ → ℕ → KV D}
    (hpool : ∀ i sl, sl / c.blockSize ∉ t.blockIds → pool i sl = c'.pool i sl) :
    Underway c { c' with pool } sid pins t :=
  ⟨⟨h.touches, fun i sl hsl => (hpool i sl fun hin => hsl (h.own _ hin)).trans (h.pool i sl hsl)⟩,
    h.accounted, h.table, h.own, h.free⟩

/-- `append_token` takes a free block at most. -/
theorem Underway.extend {c c' : PagedKVCache D} {sid n : ℕ} {pins : Multiset ℕ} {t : BlockTable}
    (h : Underway c c' sid pins t) {new : List ℕ} {m : BlockManager}
    (hext : BlockManager.Extends c'.manager m sid t.blockIds new n) (hacc : m.Accounted pins) :
    Underway c (c'.setManager m) sid pins ⟨t.blockIds ++ new, n⟩ := by
  refine ⟨h.toKept.setManager hext.toTouches, hacc, hext.table, fun b hb => ?_, fun b hb => ?_⟩
  · rcases List.mem_append.1 hb with hb | hb
    · exact h.own b hb
    · refine h.free ?_
      rw [hext.freeList]
      exact List.mem_append_right _ (List.mem_reverse.2 hb)
  · refine h.free ?_
    rw [hext.freeList]
    exact List.mem_append_left _ hb

/-- Another token count for the table. -/
theorem Underway.setTokens {c c' : PagedKVCache D} {sid n : ℕ} {pins : Multiset ℕ} {t : BlockTable}
    (h : Underway c c' sid pins t) (hn : n ≤ t.blockIds.length * c'.blockSize) :
    Underway c (c'.setManager (c'.manager.setTable sid { t with numTokens := n })) sid pins
      { t with numTokens := n } :=
  ⟨h.toKept.setManager BlockManager.touches_setTable, h.accounted.setTokens h.table hn,
    AList.lookup_insert _, h.own, h.free⟩

/-- **A stage begins** by allocating the blocks of its prompt, all of them free ones, unless the
pool is too small. -/
theorem allocate_underway {c : PagedKVCache D} {pins : Multiset ℕ} (hacc : c.manager.Accounted pins)
    (hbs : 0 < c.blockSize) {sid : ℕ} (hsid : c.manager.tables.lookup sid = none) (n : ℕ) :
    (∃ msg, c.manager.allocate sid n [] = (.error (.OutOfBlocksError msg), c.manager)) ∨
    ∃ ids m, c.manager.allocate sid n [] = (.ok ⟨ids, n⟩, m) ∧
      Underway c (c.setManager m) sid pins ⟨ids, n⟩ ∧ ids.length = m.blocksNeeded n ∧
      ∀ b ∈ ids, b ∉ pins := by
  rcases BlockManager.allocate_spec hacc hbs sid n List.nodup_nil (fun b hb => absurd hb List.not_mem_nil)
      (Nat.zero_le _) with ⟨hhas, -⟩ | ⟨-, -, msg, heq⟩ | ⟨-, new, m, heq, hext, hlen, hacc'⟩
  · rw [BlockManager.hasTable, hsid] at hhas
    cases hhas
  · exact Or.inl ⟨msg, heq⟩
  · refine Or.inr ⟨new, m, heq, ⟨⟨hext.toTouches, fun _ _ _ => rfl⟩, hacc', hext.table, fun b hb => ?_,
      fun b hb => ?_⟩, ?_, fun b hb => ((hacc.fresh hext.freeList).2 b hb).2.2⟩
    · rw [hext.freeList]
      exact List.mem_append_right _ (List.mem_reverse.2 hb)
    · rw [hext.freeList]
      exact List.mem_append_left _ hb
    · rw [hlen, BlockManager.blocksNeeded_congr hext.blockSize]
      rfl

variable [Zero D] [Add X] [Field R] [LinearOrder R]

/-- **The decode loop writes slots of its own blocks only**, however it ends. -/
theorem decodeLoop_kept (torch : Torch R) (src : Source R G) (T : Transformer X D R) {sid : ℕ}
    {pins : Multiset ℕ} (params : SamplingParams R) (eos : Option ℕ) (n nxt cur : ℕ)
    {c c' : PagedKVCache D} {t : BlockTable} (hbs : 0 < c.blockSize)
    (h : Underway c c' sid pins t) (g : G) :
    ∃ t', Underway c (decodeLoop torch src T.runner sid params eos n nxt cur c' g).2.1 sid pins t' := by
  induction n generalizing nxt cur c' t g with
  | zero => exact ⟨t, h⟩
  | succ n ih =>
    have hbs' : c'.blockSize = c.blockSize := h.touches.blockSize
    rw [decodeLoop]
    split
    · exact ⟨t, h⟩
    rcases BlockManager.appendToken_spec h.accounted (hbs.trans_eq hbs'.symm) h.table with
      ⟨-, -, happ⟩ | ⟨new, b, m, happ, hext, -, hb, hacc⟩
    · rw [happ]
      exact ⟨t, h⟩
    have h₁ := h.extend hext hacc
    have hin : b ∈ t.blockIds ++ new := List.mem_of_getElem? hb
    have hslot : ∀ sl, sl / c.blockSize ∉ t.blockIds ++ new →
        sl ∉ [b * c'.blockSize + t.numTokens % c'.manager.blockSize] := by
      intro sl hsl hmem
      obtain rfl := List.mem_singleton.1 hmem
      refine hsl ?_
      rw [hbs', show c'.manager.blockSize = c.blockSize from hbs', Nat.mul_comm, Nat.mul_add_div hbs,
        Nat.div_eq_of_lt (Nat.mod_lt _ hbs), Nat.add_zero]
      exact hin
    obtain ⟨hfwd, hkeep⟩ := T.forward_frame [nxt] [cur]
      [b * c'.blockSize + t.numTokens % c'.manager.blockSize] [⟨t.blockIds ++ new, 1, cur + 1⟩]
      (c'.setManager m)
    have h₂ := h₁.write fun i sl hsl => hkeep i sl (hslot sl hsl)
    rw [← hfwd] at h₂
    rcases hrun : T.runner.forward [nxt] [cur] [b * c'.blockSize + t.numTokens % c'.manager.blockSize]
      [⟨t.blockIds ++ new, 1, cur + 1⟩] (c'.setManager m) with ⟨x | hidden, c₁⟩
    all_goals
      rw [show T.forward _ _ _ _ _ = _ from hrun] at h₂
    · simp only [happ, BlockManager.blockTable, hext.table, hrun]
      exact ⟨_, h₂⟩
    rcases hdraw : LLMEngine.sampleNext torch src params (T.runner.logits (lastRow hidden)) g with
      ⟨x | tok, g₁⟩
    · simp only [happ, BlockManager.blockTable, hext.table, hrun, hdraw]
      exact ⟨_, h₂⟩
    obtain ⟨t', h'⟩ := ih tok (cur + 1) h₂ g₁
    rcases hrest : decodeLoop torch src T.runner sid params eos n tok (cur + 1) c₁ g₁ with
      ⟨x | out, c₂, g₂⟩
    all_goals
      rw [hrest] at h'
      simp only [happ, BlockManager.blockTable, hext.table, hrun, hdraw, hrest]
      exact ⟨t', h'⟩

end Kept

/-! ### The two stages -/

section Stages

variable {X D R G : Type} [Zero D] [Add X] [Field R] [LinearOrder R]

/-- What a stage for `sid` finds: exact counts, whatever else is live in the pool, an id that is
not in use, and a pool made for the model. -/
structure Ready (T : Transformer X D R) (c : PagedKVCache D) (sid : ℕ) : Prop where
  blockSize_pos : 0 < c.blockSize
  accounted : ∃ pins, c.manager.Accounted pins
  fresh : c.manager.tables.lookup sid = none
  dims : c.dims = (T.numLayers, T.numKvHeads, T.headDim)

/-- The portable tensors `k` and `v` are the KV of the prompt. -/
structure Carries (T : Transformer X D R) (promptIds : List ℕ) (k v : KVTensor D) : Prop where
  keyShape : (k.layers, k.tokens, k.heads, k.headDim) =
    (T.numLayers, promptIds.length, T.numKvHeads, T.headDim)
  valueShape : (v.layers, v.tokens, v.heads, v.headDim) =
    (T.numLayers, promptIds.length, T.numKvHeads, T.headDim)
  rows : ∀ i < T.numLayers, ∀ p < promptIds.length,
    (⟨k.rows i p, v.rows i p⟩ : KV D) = T.kvAt noBase (str promptIds) i p

variable {T : Transformer X D R} {c : PagedKVCache D} {sid : ℕ} {promptIds : List ℕ}

omit [Zero D] [Add X] [Field R] [LinearOrder R] in
/-- A tensor of the shape of a cache made for the model has that of the model, and the other way round. -/
theorem shaped_iff (hdims : c.dims = (T.numLayers, T.numKvHeads, T.headDim)) {k : KVTensor D} {n : ℕ} :
    k.Shaped c n ↔ (k.layers, k.tokens, k.heads, k.headDim) = (T.numLayers, n, T.numKvHeads, T.headDim) := by
  simp only [PagedKVCache.dims, Prod.mk.injEq] at hdims
  rw [KVTensor.Shaped, hdims.1, hdims.2.1, hdims.2.2]

omit [Field R] [LinearOrder R] in
theorem Carries.tokens {k v : KVTensor D} (h : Carries T promptIds k v) : k.tokens = promptIds.length :=
  congrArg (·.2.1) h.keyShape

omit [Field R] [LinearOrder R] in
/-- What is carried has the shape of a cache made for the model. -/
theorem Carries.shaped {k v : KVTensor D} (h : Carries T promptIds k v)
    (hdims : c.dims = (T.numLayers, T.numKvHeads, T.headDim)) :
    k.Shaped c k.tokens ∧ v.Shaped c k.tokens := by
  have hn := h.tokens.symm
  exact ⟨(shaped_iff hdims).2 (hn ▸ h.keyShape), (shaped_iff hdims).2 (hn ▸ h.valueShape)⟩

omit [Field R] [LinearOrder R] in
/-- **The prefill of a stage**, once its blocks are allocated, returns and leaves the KV of the prompt
in them. -/
theorem prefill_underway (T : Transformer X D R) {pins : Multiset ℕ} {ids : List ℕ} {m : BlockManager}
    (hbs : 0 < c.blockSize) (promptIds : List ℕ)
    (hunder : Underway c (c.setManager m) sid pins ⟨ids, promptIds.length⟩) :
    ∃ pool slots, (c.setManager m).contextSlots ids promptIds.length = .ok slots ∧
      T.forward promptIds (List.range promptIds.length) slots
          [⟨ids, promptIds.length, promptIds.length⟩]
          (c.setManager (m.setTable sid ⟨ids, promptIds.length⟩)) =
        (.ok ((List.range' 0 promptIds.length).map fun p =>
          T.norm (T.hiddenAt noBase (str promptIds) T.numLayers p)),
          { c.setManager (m.setTable sid ⟨ids, promptIds.length⟩) with pool }) ∧
      T.Holds { c.setManager (m.setTable sid ⟨ids, promptIds.length⟩) with pool } ids noBase
        (str promptIds) promptIds.length ∧
      Underway c { c.setManager (m.setTable sid ⟨ids, promptIds.length⟩) with pool } sid pins
        ⟨ids, promptIds.length⟩ := by
  have hmbs : m.blockSize = c.blockSize := hunder.touches.blockSize
  have hbs₁ : 0 < (c.setManager m).blockSize := hbs.trans_eq hmbs.symm
  have hroom : promptIds.length ≤ ids.length * (c.setManager m).blockSize :=
    hunder.accounted.capacity sid _ hunder.table
  have hin : ∀ b ∈ ids, b < m.numBlocks := hunder.accounted.block_lt hunder.table
  have hids : ids.Nodup := hunder.accounted.table_nodup sid _ hunder.table
  have hunder₂ := hunder.setTokens hroom
  set m₂ := m.setTable sid ⟨ids, promptIds.length⟩ with hm₂
  obtain ⟨pool, hrun, hholds, hkeep⟩ := T.forward_one (c := c.setManager m₂) 0 promptIds.length
    (str promptIds) (fun _ _ _ => rfl) hbs₁ (by rwa [Nat.zero_add]) hin hids fun _ _ p hp => absurd hp (Nat.not_lt_zero p)
  have htokens : (List.range' 0 promptIds.length).map (str promptIds) = promptIds := by
    rw [← take_drop_eq_map_str promptIds (Nat.zero_add _).le, List.drop_zero, List.take_length]
  rw [Nat.zero_add] at hrun hholds
  rw [htokens] at hrun
  refine ⟨pool, _, (c.setManager m).contextSlots_spec hbs₁ hroom, ?_, hholds, ?_⟩
  · rw [List.range_eq_range']
    exact hrun
  · refine hunder₂.write fun i sl hsl => hkeep i sl fun hmem => hsl ?_
    obtain ⟨p, hp, rfl⟩ := List.mem_map.1 hmem
    rw [← hmbs]
    exact Paging.slotAt_div_mem hbs₁ ((List.mem_range'_1.1 hp).2.trans_le (by rwa [Nat.zero_add]))

/-- **`prefill_export`** raises `OutOfBlocksError` or returns the KV of the prompt and the
token the model draws after it. -/
theorem prefillExport_spec (torch : Torch R) (src : Source R G) (h : Ready T c sid)
    (h0 : promptIds ≠ []) (params : SamplingParams R) (g : G) :
    let first := (drawNext torch T params promptIds).run src g
    ∃ r c' g', prefillExport torch src T.runner c g sid promptIds params = (r, c', g') ∧
      Kept c c' sid ∧
      ((∃ msg, r = .error (.OutOfBlocksError msg)) ∨
        ∃ k v, (r, g') = (.ok (k, v, first.1), first.2) ∧ Carries T promptIds k v) := by
  intro first
  obtain ⟨pins, hacc⟩ := h.accounted
  have hbs := h.blockSize_pos
  have hpos : 0 < promptIds.length := List.length_pos_iff.2 h0
  rcases allocate_underway hacc hbs h.fresh promptIds.length with ⟨msg, heq⟩ |
    ⟨ids, m, heq, hunder, -, -⟩
  · refine ⟨.error (.OutOfBlocksError msg), c, g, ?_, .refl c sid, Or.inl ⟨msg, rfl⟩⟩
    simp only [prefillExport, heq]
    rfl
  have hmbs : m.blockSize = c.blockSize := hunder.touches.blockSize
  have hbs₁ : 0 < (c.setManager m).blockSize := hbs.trans_eq hmbs.symm
  obtain ⟨pool, slots, hslots, hrun, hholds, hunder₃⟩ := prefill_underway T hbs promptIds hunder
  set m₂ := m.setTable sid ⟨ids, promptIds.length⟩ with hm₂
  have hrun : T.runner.forwardList promptIds _ _ _ _ = _ := (T.runner.forwardList_eq h0 ..).trans hrun
  obtain ⟨k, v, hexp, -, hrows⟩ := ({ c.setManager m₂ with pool } : PagedKVCache D).exportContiguous_spec
    hbs₁ (hunder.accounted.block_lt hunder.table) (hunder.accounted.capacity sid _ hunder.table)
  obtain ⟨hk, hv⟩ := PagedKVCache.exportContiguous_shape hexp
  obtain ⟨m', hfree, hkept⟩ := hunder₃.freed
  refine ⟨.ok (k, v, first.1), _, first.2, ?_, hkept, Or.inr ⟨k, v, rfl, (shaped_iff h.dims).1 hk,
    (shaped_iff h.dims).1 hv, fun i hi p hp => ?_⟩⟩
  · have hdraw : LLMEngine.sampleNext torch src params (T.runner.logits (lastRow
        ((List.range' 0 promptIds.length).map fun p =>
          T.norm (T.hiddenAt noBase (str promptIds) T.numLayers p)))) g = (.ok first.1, first.2) := by
      rw [LLMEngine.lastRow_map_range' _ hpos, Nat.zero_add]
      exact LLMEngine.sampleNext_singleton torch src params (T.nextLogits promptIds) g
    simp only [prefillExport, heq, hslots]
    rw [show (c.setManager m).setManager ((c.setManager m).manager.setTable sid
      ⟨ids, promptIds.length⟩) = c.setManager m₂ from rfl]
    simp only [hrun, hdraw, hexp, hfree]
  · exact (hrows i p hp).trans (hholds i hi p hp)

/-- **`decode_from_kv`** on the KV of the prompt raises `OutOfBlocksError` or returns the first
token and what the model draws after it. -/
theorem decodeFromKv_spec (torch : Torch R) (src : Source R G) (h : Ready T c sid) {k v : KVTensor D}
    (hkv : Carries T promptIds k v) (first maxNew : ℕ) (params : SamplingParams R) (eos : Option ℕ)
    (g : G) :
    let rest := (LLMEngine.restOf torch T params eos (maxNew - 1) first (promptIds ++ [first])).run src g
    ∃ r c' g', decodeFromKv torch src T.runner c g sid promptIds k v first maxNew params eos =
        (r, c', g') ∧ Kept c c' sid ∧
      ((∃ msg, r = .error (.OutOfBlocksError msg)) ∨
        (r, g') = (.ok (first :: rest.1), rest.2) ∧
          c.manager.blocksNeeded (promptIds.length + rest.1.length) ≤ c.manager.numBlocks) := by
  intro rest
  obtain ⟨pins, hacc⟩ := h.accounted
  have hbs := h.blockSize_pos
  rcases allocate_underway hacc hbs h.fresh promptIds.length with ⟨msg, heq⟩ |
    ⟨ids, m, heq, hunder, hlen, hpins⟩
  · refine ⟨.error (.OutOfBlocksError msg), c, g, ?_, .refl c sid, Or.inl ⟨msg, rfl⟩⟩
    simp only [decodeFromKv, heq]
    rfl
  have hmbs : m.blockSize = c.blockSize := hunder.touches.blockSize
  have hbs₁ : 0 < (c.setManager m).blockSize := hbs.trans_eq hmbs.symm
  have hroom : promptIds.length ≤ ids.length * (c.setManager m).blockSize :=
    hunder.accounted.capacity sid _ hunder.table
  have hin : ∀ b ∈ ids, b < m.numBlocks := hunder.accounted.block_lt hunder.table
  have hids : ids.Nodup := hunder.accounted.table_nodup sid _ hunder.table
  obtain ⟨hk, hv⟩ := hkv.shaped (c := c.setManager m) h.dims
  obtain ⟨pool, himp, hrows, hkeep⟩ := (c.setManager m).importContiguous_spec hbs₁ hids hin hk hv
    (hkv.tokens ▸ hroom)
  set c₁ : PagedKVCache D := { c.setManager m with pool } with hc₁
  set c₂ := c₁.setManager (c₁.manager.setTable sid ⟨ids, promptIds.length⟩) with hc₂
  have hunder₂ : Underway c c₂ sid pins ⟨ids, promptIds.length⟩ := by
    refine (hunder.write fun i sl hsl => hkeep i sl fun hmem => hsl ?_).setTokens hroom
    obtain ⟨p, hp, rfl⟩ := List.mem_map.1 hmem
    rw [← hmbs]
    exact Paging.slotAt_div_mem hbs₁ (((List.mem_range.1 hp).trans_eq hkv.tokens).trans_le hroom)
  set e : LLMEngine Unit D := ⟨c₂, none, 0, []⟩ with he
  have hdecoding : LLMEngine.Decoding T noBase e sid pins (promptIds ++ [first])
      ⟨ids, promptIds.length⟩ := by
    refine ⟨hunder₂.accounted, hbs₁, hunder₂.table, hlen, by rw [List.length_append]; rfl,
      fun _ _ _ => rfl, ?_, fun j b _ hb => hpins b (List.mem_of_getElem? hb)⟩
    refine Transformer.Holds.append (fun i hi p hp => ?_) le_rfl [first]
    rw [← hkv.rows i hi p hp]
    have hlayers : c.numLayers = T.numLayers := congrArg Prod.fst h.dims
    exact hrows i (hlayers.symm ▸ hi) p (hkv.tokens.symm ▸ hp)
  have hstr : str (promptIds ++ [first]) promptIds.length = first := by
    rw [str, List.getD_append_right _ _ _ _ le_rfl, Nat.sub_self]
    rfl
  obtain ⟨r, e', g', hdec, hframe, -, hcase⟩ :=
    LLMEngine.decode_spec torch src [] params eos (maxNew - 1) hdecoding g
  have hloop := decodeLoop_eq torch src T.runner sid [] params eos (maxNew - 1) _ _ e g hdec
  obtain ⟨t', hunder₃⟩ := decodeLoop_kept torch src T params eos (maxNew - 1) first promptIds.length
    hbs hunder₂ g
  dsimp only at hloop hcase
  rw [hstr] at hloop hcase
  rw [show decodeLoop torch src T.runner sid params eos (maxNew - 1) first promptIds.length c₂ g = _
    from hloop] at hunder₃
  rcases hcase with ⟨⟨msg, rfl⟩, -⟩ | ⟨rfl, rfl, hfits⟩
  · refine ⟨.error (.OutOfBlocksError msg), e'.cache, g', ?_, hunder₃.toKept, Or.inl ⟨msg, rfl⟩⟩
    simp only [decodeFromKv, heq, himp, ← hc₂, show decodeLoop torch src T.runner sid params eos
      (maxNew - 1) first promptIds.length c₂ g = _ from hloop]
  · obtain ⟨m', hfree, hkept⟩ := hunder₃.freed
    refine ⟨.ok (first :: rest.1), _, rest.2, ?_, hkept, Or.inr ⟨rfl, ?_⟩⟩
    · simp only [decodeFromKv, heq, himp, ← hc₂, show decodeLoop torch src T.runner sid params eos
        (maxNew - 1) first promptIds.length c₂ g = _ from hloop, hfree]
      rfl
    · rw [← BlockManager.blocksNeeded_congr hmbs, ← hunder.touches.numBlocks]
      exact hfits.trans (hunder₂.accounted.free_add_le hunder₂.table)

/-- No other live sequence loses its table or its KV. -/
def SparesOthers (c c' : PagedKVCache D) (sid : ℕ) : Prop :=
  ∀ s t, s ≠ sid → c.manager.tables.lookup s = some t → c'.manager.tables.lookup s = some t ∧
    ∀ i, ∀ p < t.blockIds.length * c.blockSize,
      c'.pool i (Paging.slotAt c.blockSize t.blockIds p) = c.pool i (Paging.slotAt c.blockSize t.blockIds p)

omit [Zero D] [Add X] [Field R] [LinearOrder R] in
/-- The blocks of a live sequence were not free. -/
theorem Kept.sparesOthers {c c' : PagedKVCache D} {sid : ℕ} (h : Kept c c' sid) (hr : Ready T c sid) :
    SparesOthers c c' sid := by
  intro s t hs ht
  obtain ⟨pins, hacc⟩ := hr.accounted
  refine ⟨(h.touches.others s hs).trans ht, fun i p hp => h.pool i _ fun hfree => ?_⟩
  have hno := (hacc.counted.free_iff _).1 hfree
  exact hno.2 (Multiset.mem_add.2 (Or.inl
    (BlockManager.mem_tableBlocks ht (Paging.slotAt_div_mem hr.blockSize_pos hp))))

/-- **Disaggregated generation is single-process generation.**  Over any two caches, with greedy
sampling, each stage spares the other live sequences, and either it runs out of blocks or
`decode_from_kv` returns the token list of `LLMEngine.generate`: that of a new engine as
large as the cache of the decode worker, and that of any engine, used or not, with or
without a prefix cache, that does not run out of blocks. -/
theorem disaggregated_is_colocated {κ : Type} [DecidableEq κ] (torch : Torch R) (src : Source R G)
    (T : Transformer X D R) {pre dec : PagedKVCache D} {sid sid' : ℕ} (hpre : Ready T pre sid)
    (hdec : Ready T dec sid') (H : RollingHash κ) {params : SamplingParams R}
    (hg : params.greedy = true) {promptIds : List ℕ} (h0 : promptIds ≠ []) (maxNew : ℕ)
    (eos : Option ℕ) (g g' : G) :
    let exported := prefillExport torch src T.runner pre g sid promptIds params
    SparesOthers pre exported.2.1 sid ∧
    ((∃ msg, exported.1 = .error (.OutOfBlocksError msg)) ∨
      ∃ k v first, exported.1 = .ok (k, v, first) ∧
        let decoded := decodeFromKv torch src T.runner dec g' sid' promptIds k v first maxNew params eos
        SparesOthers dec decoded.2.1 sid' ∧
        ((∃ msg, decoded.1 = .error (.OutOfBlocksError msg)) ∨
          ∃ out, decoded.1 = .ok out ∧
            (∀ g'' seqId, ((LLMEngine.init T dec.manager.numBlocks dec.blockSize false :
              LLMEngine κ D).generate H torch src T.runner g'' seqId promptIds maxNew params eos).1 =
                .ok out) ∧
            ∀ (numBlocks blockSize : ℕ) (prefixCache : Bool) (e : LLMEngine κ D), 1 ≤ blockSize →
              (prefixCache = true → H.PrefixInjective blockSize) →
              LLMEngine.Served H torch src T.runner (.init T numBlocks blockSize prefixCache) e →
              ∀ g'' seqId,
                (∃ msg, (e.generate H torch src T.runner g'' seqId promptIds maxNew params eos).1 =
                  .error (.OutOfBlocksError msg)) ∨
                (e.generate H torch src T.runner g'' seqId promptIds maxNew params eos).1 =
                  .ok out)) := by
  intro exported
  obtain ⟨r₁, c₁, g₁, hexp, hkept, hcase⟩ := prefillExport_spec torch src hpre h0 params g
  have hexported : exported = (r₁, c₁, g₁) := hexp
  rw [hexported]
  refine ⟨hkept.sparesOthers hpre, hcase.imp id ?_⟩
  rintro ⟨k, v, hr, hkv⟩
  obtain ⟨rfl, -⟩ := Prod.mk.inj hr
  refine ⟨k, v, _, rfl, ?_⟩
  intro decoded
  set first := ((drawNext torch T params promptIds).run src g).1 with hfirst
  obtain ⟨r₂, c₂, g₂, hdecode, hkept', hcase'⟩ :=
    decodeFromKv_spec torch src hdec hkv first maxNew params eos g'
  have hdecoded : decoded = (r₂, c₂, g₂) := hdecode
  rw [hdecoded]
  refine ⟨hkept'.sparesOthers hdec, hcase'.imp id ?_⟩
  rintro ⟨hr', hfits⟩
  obtain ⟨rfl, -⟩ := Prod.mk.inj hr'
  set rest := (LLMEngine.restOf torch T params eos (maxNew - 1) first (promptIds ++ [first])).run src g'
    with hrest
  -- greedy sampling draws the same whatever the state of the generator
  have hsame : ∀ g'', ((reference torch T params eos maxNew promptIds).run src g'').1 =
      first :: rest.1 := by
    have hrun := LLMEngine.reference_run torch src T params eos maxNew promptIds g'
    rw [drawNext_greedy torch T hg] at hrun
    rw [drawNext_greedy torch T hg] at hfirst
    intro g''
    rw [reference_greedy torch T hg] at hrun ⊢
    exact (congrArg Prod.fst hrun).trans (by rw [hrest, hfirst]; rfl)
  refine ⟨_, rfl, fun g'' seqId => ?_, fun nb bs prefixCache e hpos hH hserved g'' seqId => ?_⟩
  · have hnew : LLMEngine.Served H torch src T.runner
        (.init T dec.manager.numBlocks dec.blockSize false) _ := .start
    rcases hnew.generate_plain torch src T H hdec.blockSize_pos h0 (hsame g'') seqId with ⟨-, hshort⟩ | hok
    · have hbn : (LLMEngine.init T dec.manager.numBlocks dec.blockSize false :
          LLMEngine κ D).cache.manager.blocksNeeded (promptIds.length + rest.1.length) =
          dec.manager.blocksNeeded (promptIds.length + rest.1.length) :=
        BlockManager.blocksNeeded_congr rfl _
      rw [List.length_cons, ← Nat.add_assoc, Nat.add_sub_cancel, hbn] at hshort
      exact absurd hfits (not_le.2 hshort)
    · exact hok
  · obtain ⟨hs, hno, -, hbs, hnone⟩ := hserved.sound torch src T H hpos hH
    exact (LLMEngine.generate_of_reference torch src hs hno (LLMEngine.injective_of_cache hH hbs hnone) h0
      (hsame g'') seqId).imp_left And.left

/-- The hypotheses are satisfiable: a prompt of three tokens crosses from blocks of two to blocks
of three, past a live sequence on either side. -/
theorem disaggregated_is_colocated_busy :
    let torch : Torch ℚ := ⟨id, fun _ => []⟩
    let src : Source ℚ Unit := ⟨fun g => (0, g), fun _ g => (0, g)⟩
    let pre := (sumModel.newCache 6 2).setManager ((BlockManager.init 6 2).allocate 7 3 []).2
    let dec := (sumModel.newCache 5 3).setManager ((BlockManager.init 5 3).allocate 1 4 []).2
    let exported := prefillExport torch src sumModel.runner pre () 0 [0, 1, 2] .default
    SparesOthers pre exported.2.1 0 ∧ ∃ k v first out, exported.1 = .ok (k, v, first) ∧
      (decodeFromKv torch src sumModel.runner dec () 3 [0, 1, 2] k v first 4 .default none).1 = .ok out ∧
      ((LLMEngine.init sumModel 5 3 false : LLMEngine (List ℕ) ℤ).generate listHash torch src
        sumModel.runner () 0 [0, 1, 2] 4 .default none).1 = .ok out := by
  intro torch src pre dec exported
  have hacc : ∀ n bs s k : ℕ, 0 < bs → (Op.allocate s k []).Admissible (.init n bs) →
      ((BlockManager.init n bs).allocate s k []).2.Accounted 0 := fun n bs s k hbs h =>
    ((Reachable.init (H := listHash)).step (.allocate s k []) h).accounted hbs |>.1
  have hpre : Ready sumModel pre 0 :=
    ⟨by decide, ⟨0, hacc 6 2 7 3 (by decide) ⟨by decide, by decide, by decide⟩⟩, by decide +kernel, rfl⟩
  have hdec : Ready sumModel dec 3 :=
    ⟨by decide, ⟨0, hacc 5 3 1 4 (by decide) ⟨by decide, by decide, by decide⟩⟩, by decide +kernel, rfl⟩
  obtain ⟨hspares, hcase⟩ := disaggregated_is_colocated torch src sumModel hpre hdec listHash
    (show (SamplingParams.default : SamplingParams ℚ).greedy = true from rfl)
    (show [0, 1, 2] ≠ [] by decide) 4 none () ()
  have hrun : (match exported.1 with
      | .error _ => false
      | .ok (k, v, t) => decide ((decodeFromKv torch src sumModel.runner dec () 3 [0, 1, 2] k v t 4
          .default none).1 = .ok [1, 0, 0, 1])) = true := by decide +kernel
  refine ⟨hspares, ?_⟩
  rcases hcase with ⟨msg, herr⟩ | ⟨k, v, first, hok, -, ⟨msg, herr⟩ | ⟨out, hout, hnew, -⟩⟩
  · rw [show exported.1 = _ from herr] at hrun
    exact absurd hrun Bool.false_ne_true
  · rw [show exported.1 = _ from hok] at hrun
    rw [of_decide_eq_true hrun] at herr
    cases herr
  · exact ⟨k, v, first, out, hok, hout, hnew () 0⟩

end Stages

end DiSpec
