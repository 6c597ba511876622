/-
# What the decode loop of the engine generates

The meaning of `LLMEngine.generate` is `reference`: autoregressive decoding of the
dense model, without a pool.  Here is the part of the connection that later
proofs share, one decoded token.  `Decoding` is the invariant of the loop: the
table of the sequence holds the KV of all tokens but the last, in exactly the
blocks they need, and none of the blocks still to be written is pinned.
`decode_step` is one round of the loop, `decode_spec` the whole loop: it raises
`OutOfBlocksError` or draws what the reference draws.

`Frame` is what the loop leaves alone: the other tables, the pinned blocks and
their content.  A forward into blocks that are not pinned stays in it
(`forward_spec`).
-/

import DiSpec.Engine.Causal
import DiSpec.Engine.Engine
import DiSpec.KV.Accounting
import DiSpec.Lib.Autoregressive

namespace DiSpec

/-- `t` is the end-of-sequence token. -/
def isEos (eos : Option ℕ) (t : ℕ) : Bool := some t = eos

section Reference

variable {X D R G : Type} [Zero D] [Add X] [Field R] [LinearOrder R]

/-- The logits of the token after `toks`, all KV being computed. -/
def Transformer.nextLogits (T : Transformer X D R) (toks : List ℕ) : List R := T.logitsAfter noBase toks

/-- The draw of the token after `toks`. -/
def drawNext (torch : Torch R) (T : Transformer X D R) (params : SamplingParams R) (toks : List ℕ) :
    RandM R ℕ := nextToken torch params (T.nextLogits toks)

/-- What `generate` is for: the first token always, then up to `maxNewTokens` or EOS. -/
def reference (torch : Torch R) (T : Transformer X D R) (params : SamplingParams R)
    (eos : Option ℕ) (maxNewTokens : ℕ) (promptIds : List ℕ) : RandM R (List ℕ) :=
  Autoregressive.decode (drawNext torch T params) (isEos eos) (max maxNewTokens 1) promptIds

/-- The greedy next token, the leading KV being supplied. -/
def greedyNext (T : Transformer X D R) (base : BaseKV D) (toks : List ℕ) : ℕ :=
  argmax (T.logitsAfter base toks)

/-- Greedy sampling draws the greedy next token. -/
theorem drawNext_greedy (torch : Torch R) (T : Transformer X D R) {params : SamplingParams R}
    (hg : params.greedy = true) (toks : List ℕ) :
    drawNext torch T params toks = .pure (greedyNext T noBase toks) := by
  rw [drawNext, nextToken, if_pos hg]
  rfl

/-- Without randomness the reference is greedy decoding. -/
theorem reference_greedy (torch : Torch R) (T : Transformer X D R) {params : SamplingParams R}
    (hg : params.greedy = true) (eos : Option ℕ) (maxNewTokens : ℕ) (promptIds : List ℕ) :
    reference torch T params eos maxNewTokens promptIds =
      .pure (Autoregressive.greedy (greedyNext T noBase) (isEos eos) (max maxNewTokens 1) promptIds) := by
  rw [reference, funext (drawNext_greedy torch T hg), Autoregressive.decode_pure]

end Reference

namespace LLMEngine

variable {κ X D R G : Type}

/-- What a run of the engine on sequence `seqId` with adopted blocks `reuse` leaves
alone.  New calls of `forward` write no slot of a pinned block. -/
structure Frame (e e' : LLMEngine κ D) (seqId : ℕ) (pins : Multiset ℕ) (reuse : List ℕ) : Prop where
  touches : BlockManager.Touches e.cache.manager e'.cache.manager seqId
  prefixCache : e'.prefixCache = e.prefixCache
  lastPrefill : e'.lastPrefillTokens = e.lastPrefillTokens
  pool : ∀ i sl, sl / e.blockSize ∈ pins → e'.cache.pool i sl = e.cache.pool i sl
  calls : ∃ new, e'.calls = e.calls ++ new ∧ ∀ f ∈ new, f.held = e.held ∧ f.adopted = reuse ∧
    ∀ sl ∈ f.writeSlots, sl / e.blockSize ∉ pins

variable {e e' e'' : LLMEngine κ D} {seqId : ℕ} {pins : Multiset ℕ} {reuse : List ℕ}

theorem Frame.refl (e : LLMEngine κ D) (seqId : ℕ) (pins : Multiset ℕ) (reuse : List ℕ) :
    Frame e e seqId pins reuse :=
  ⟨.refl _ _, rfl, rfl, fun _ _ _ => rfl, [], by simp, by simp⟩

/-- A call on the manager for `seqId` writes nothing. -/
theorem Frame.setManager (pins : Multiset ℕ) (reuse : List ℕ) {m : BlockManager}
    (h : BlockManager.Touches e.cache.manager m seqId) : Frame e (e.setManager m) seqId pins reuse :=
  ⟨h, rfl, rfl, fun _ _ _ => rfl, [], (List.append_nil _).symm, by simp⟩

theorem Frame.blockSize (h : Frame e e' seqId pins reuse) : e'.blockSize = e.blockSize :=
  h.touches.blockSize

theorem Frame.held (h : Frame e e' seqId pins reuse) : e'.held = e.held := by
  unfold LLMEngine.held
  rw [h.prefixCache]

theorem Frame.trans (h : Frame e e' seqId pins reuse) (h' : Frame e' e'' seqId pins reuse) :
    Frame e e'' seqId pins reuse := by
  obtain ⟨new, hnew, hall⟩ := h.calls
  obtain ⟨new', hnew', hall'⟩ := h'.calls
  refine ⟨h.touches.trans h'.touches, h'.prefixCache.trans h.prefixCache,
    h'.lastPrefill.trans h.lastPrefill, fun i sl hsl => ?_, new ++ new', ?_, fun f hf => ?_⟩
  · rw [h'.pool i sl (by rwa [h.blockSize]), h.pool i sl hsl]
  · rw [hnew', hnew, List.append_assoc]
  · rcases List.mem_append.1 hf with hf | hf
    · exact hall f hf
    · obtain ⟨h₁, h₂, h₃⟩ := hall' f hf
      refine ⟨h₁.trans h.held, h₂, ?_⟩
      rwa [h.blockSize] at h₃

section Decode

variable [Zero D] [Add X]

/-- **A forward of consecutive positions** of one sequence, whose slots lie in blocks that
are not pinned, stays in the frame and stores the KV of the new tokens. -/
theorem forward_spec (T : Transformer X D R) {ids : List ℕ} (seqId : ℕ) (pins : Multiset ℕ)
    (reuse : List ℕ) {base : BaseKV D} (start len : ℕ) (tok : ℕ → ℕ)
    (hbase : ∀ i p, start ≤ p → base i p = none) (hbs : 0 < e.blockSize)
    (hroom : start + len ≤ ids.length * e.blockSize)
    (hin : ∀ b ∈ ids, b < e.cache.manager.numBlocks) (hids : ids.Nodup)
    (hpast : T.Holds e.cache ids base tok start)
    (hnew : ∀ p b, start ≤ p → p < start + len → ids[p / e.blockSize]? = some b → b ∉ pins) :
    ∃ e₁, e.forward T.runner reuse ((List.range' start len).map tok) (List.range' start len)
        ((List.range' start len).map (Paging.slotAt e.blockSize ids)) [⟨ids, len, start + len⟩] =
        (.ok ((List.range' start len).map fun p => T.norm (T.hiddenAt base tok T.numLayers p)), e₁) ∧
      Frame e e₁ seqId pins reuse ∧ e₁.cache.manager = e.cache.manager ∧
      T.Holds e₁.cache ids base tok (start + len) := by
  obtain ⟨pool, hrun, hnow, hkeep⟩ := T.forward_one (c := e.cache) start len tok hbase hbs hroom hin
    hids hpast
  have hwrite : ∀ sl ∈ (List.range' start len).map (Paging.slotAt e.blockSize ids),
      sl / e.blockSize ∉ pins := by
    intro sl hsl
    obtain ⟨p, hp, rfl⟩ := List.mem_map.1 hsl
    obtain ⟨hlo, hhi⟩ := List.mem_range'_1.1 hp
    have hlt := Paging.div_lt hbs (hhi.trans_le hroom)
    rw [Paging.slotAt_div hbs, List.getD_eq_getElem _ _ hlt]
    exact hnew p _ hlo hhi (List.getElem?_eq_getElem hlt)
  set call : ForwardCall :=
    ⟨(List.range' start len).map tok, List.range' start len,
      (List.range' start len).map (Paging.slotAt e.blockSize ids), e.held, reuse⟩ with hcall
  refine ⟨{ e with cache := { e.cache with pool }, calls := e.calls ++ [call] }, ?_, ?_, rfl, hnow⟩
  · have hrun : T.runner.forward ((List.range' start len).map tok) (List.range' start len)
        ((List.range' start len).map (Paging.slotAt e.blockSize ids)) [⟨ids, len, start + len⟩] e.cache =
        (.ok ((List.range' start len).map fun p => T.norm (T.hiddenAt base tok T.numLayers p)),
          { e.cache with pool }) := hrun
    rw [LLMEngine.forward, hrun]
  · refine ⟨.refl _ _, rfl, rfl, fun i sl hsl => hkeep i sl fun hmem => hwrite sl hmem hsl, [call], rfl,
      fun f hf => ?_⟩
    obtain rfl := List.mem_singleton.1 hf
    exact ⟨rfl, rfl, hwrite⟩

/-- The state of the decode loop with tokens `ctx` so far, the last not yet forwarded, and KV `base`
supplied for some of those before it. -/
structure Decoding (T : Transformer X D R) (base : BaseKV D) (e : LLMEngine κ D) (seqId : ℕ) (pins : Multiset ℕ)
    (ctx : List ℕ) (t : BlockTable) : Prop where
  accounted : e.cache.manager.Accounted pins
  blockSize_pos : 0 < e.blockSize
  table : e.cache.manager.tables.lookup seqId = some t
  exact : t.blockIds.length = e.cache.manager.blocksNeeded t.numTokens
  length : ctx.length = t.numTokens + 1
  computed : ∀ i p, t.numTokens ≤ p → base i p = none
  holds : T.Holds e.cache t.blockIds base (str ctx) t.numTokens
  unpinned : ∀ j b, t.numTokens / e.blockSize ≤ j → t.blockIds[j]? = some b → b ∉ pins

/-- **One round of the decode loop.**  On a block boundary with no free block
`append_token` raises; otherwise the last token is forwarded and the state is ready
for any next token. -/
theorem decode_step {T : Transformer X D R} {base : BaseKV D} {ctx : List ℕ} {t : BlockTable}
    (h : Decoding T base e seqId pins ctx t) (reuse : List ℕ) :
    (e.cache.manager.appendToken seqId =
        (.error (.OutOfBlocksError "block pool exhausted"), e.cache.manager) ∧
      e.cache.manager.freeList.length + t.blockIds.length <
        e.cache.manager.blocksNeeded (t.numTokens + 1)) ∨
    ∃ blk off m t' e₁, e.cache.manager.appendToken seqId = (.ok (blk, off), m) ∧
      m.blockTable seqId = .ok t' ∧
      (e.setManager m).forward T.runner reuse [str ctx t.numTokens] [t.numTokens]
          [blk * e.blockSize + off] [⟨t'.blockIds, 1, t.numTokens + 1⟩] =
        (.ok [T.norm (T.hiddenAt base (str ctx) T.numLayers t.numTokens)], e₁) ∧
      Frame e e₁ seqId pins reuse ∧ t'.numTokens = t.numTokens + 1 ∧
      e₁.cache.manager.freeList.length + t'.blockIds.length =
        e.cache.manager.freeList.length + t.blockIds.length ∧
      ∀ x, Decoding T base e₁ seqId pins (ctx ++ [x]) t' := by
  have hbs := h.blockSize_pos
  have hsucc := e.cache.manager.blocksNeeded_succ hbs t.numTokens
  rcases BlockManager.appendToken_spec h.accounted hbs h.table with
    ⟨h0, hnil, heq⟩ | ⟨new, b, m, heq, hext, hnew, hb, hacc⟩
  · left
    rw [if_pos h0, ← h.exact] at hsucc
    exact ⟨heq, by rw [hnil, hsucc, List.length_nil]; omega⟩
  right
  have hb : (t.blockIds ++ new)[t.numTokens / e.blockSize]? = some b := hb
  have hmbs : m.blockSize = e.blockSize := hext.blockSize
  have hcap := hacc.capacity seqId _ hext.table
  have hnodup := hacc.table_nodup seqId _ hext.table
  have hroom : t.numTokens + 1 ≤ (t.blockIds ++ new).length * e.blockSize := hmbs ▸ hcap
  have hold : ∀ p < t.numTokens, p < t.blockIds.length * e.blockSize := fun p hp =>
    hp.trans_le (h.accounted.capacity seqId t h.table)
  have hpast : T.Holds (e.setManager m).cache (t.blockIds ++ new) base (str ctx) t.numTokens := by
    intro i hi p hp
    show e.cache.pool i (Paging.slotAt m.blockSize (t.blockIds ++ new) p) = _
    rw [hmbs, Paging.slotAt_append hbs new (hold p hp)]
    exact h.holds i hi p hp
  have hbpin : b ∉ pins := by
    rcases Nat.lt_or_ge (t.numTokens / e.blockSize) t.blockIds.length with hlt | hge
    · exact h.unpinned _ b le_rfl (by rwa [List.getElem?_append_left hlt] at hb)
    · rw [List.getElem?_append_right hge] at hb
      exact ((h.accounted.fresh hext.freeList).2 b (List.mem_of_getElem? hb)).2.2
  have hmbs' : (e.setManager m).blockSize = e.blockSize := hmbs
  obtain ⟨e₁, hrun, hframe, hman, hnow⟩ := forward_spec T seqId pins reuse t.numTokens 1
    (str ctx) h.computed (hbs.trans_eq hmbs'.symm) hcap (hacc.block_lt hext.table) hnodup hpast
    fun p c hlo hhi hc => by
      obtain rfl : p = t.numTokens := by omega
      rw [hmbs', hb] at hc
      exact Option.some.inj hc ▸ hbpin
  have hframe₁ : Frame e e₁ seqId pins reuse :=
    (Frame.setManager pins reuse hext.toTouches).trans hframe
  refine ⟨b, t.numTokens % e.blockSize, m, ⟨t.blockIds ++ new, t.numTokens + 1⟩, e₁, heq, ?_, ?_, hframe₁,
    rfl, ?_, fun x => ?_⟩
  · rw [BlockManager.blockTable, hext.table]
  · have hslots : (List.range' t.numTokens 1).map
        (Paging.slotAt (e.setManager m).blockSize (t.blockIds ++ new)) =
        [b * e.blockSize + t.numTokens % e.blockSize] := by
      rw [hmbs', ← Paging.slotAt_of_getElem? hb]
      rfl
    rw [hslots] at hrun
    exact hrun
  · have := congrArg List.length hext.freeList
    rw [List.length_append, List.length_reverse] at this
    rw [hman, List.length_append]
    show m.freeList.length + (t.blockIds.length + new.length) = _
    omega
  · have hbs₁ : e₁.blockSize = e.blockSize := hframe₁.blockSize
    refine ⟨hman ▸ hacc, hbs.trans_eq hbs₁.symm, hman ▸ hext.table, ?_, ?_,
      fun i p hp => h.computed i p ((Nat.le_succ _).trans hp), ?_, ?_⟩
    · rw [hman]
      show (t.blockIds ++ new).length = m.blocksNeeded (t.numTokens + 1)
      rw [List.length_append, h.exact, hnew,
        BlockManager.blocksNeeded_congr hext.blockSize, hsucc]
    · rw [List.length_append, h.length]
      rfl
    · exact hnow.append h.length.ge [x]
    · intro j c hj hc
      rcases Nat.lt_or_ge j t.blockIds.length with hlt | hge
      · rw [List.getElem?_append_left hlt] at hc
        refine h.unpinned j c ?_ hc
        rw [hbs₁] at hj
        exact (Nat.div_le_div_right (Nat.le_succ _)).trans hj
      · rw [List.getElem?_append_right hge] at hc
        exact ((h.accounted.fresh hext.freeList).2 c (List.mem_of_getElem? hc)).2.2

variable [Field R] [LinearOrder R]

/-- Drawing from a single row. -/
theorem sampleNext_singleton (torch : Torch R) (src : Source R G) (params : SamplingParams R)
    (row : List R) (g : G) :
    sampleNext torch src params [row] g =
      (.ok ((nextToken torch params row).run src g).1, ((nextToken torch params row).run src g).2) := by
  have hrun : (sample torch params [row]).run src g =
      ([((nextToken torch params row).run src g).1], ((nextToken torch params row).run src g).2) := by
    rw [sample_eq, List.map_singleton, RandM.sequence, RandM.sequence, RandM.run_bind, RandM.map_pure]
    rfl
  unfold sampleNext
  rw [hrun]

/-- What the decode loop is to draw after `ctx`, whose last token is `nextId`. -/
def restOf (torch : Torch R) (T : Transformer X D R) (params : SamplingParams R) (eos : Option ℕ)
    (n nextId : ℕ) (ctx : List ℕ) : RandM R (List ℕ) :=
  if some nextId = eos then .pure []
  else Autoregressive.decode (drawNext torch T params) (isEos eos) n ctx

/-- Decoding draws a token and then the rest. -/
theorem decode_eq_restOf (torch : Torch R) (T : Transformer X D R) (params : SamplingParams R)
    (eos : Option ℕ) (n : ℕ) (ctx : List ℕ) :
    Autoregressive.decode (drawNext torch T params) (isEos eos) (n + 1) ctx =
      (drawNext torch T params ctx).bind fun t =>
        (restOf torch T params eos n t (ctx ++ [t])).map (t :: ·) := by
  rw [Autoregressive.decode]
  refine congrArg _ (funext fun t => ?_)
  unfold restOf isEos
  by_cases ht : some t = eos
  · simp only [ht, decide_true, if_true]
    rfl
  · simp only [ht, decide_false, if_false]
    rfl

/-- A token and what the decode loop draws after it obey the law of the limit and of EOS. -/
theorem restOf_stops (torch : Torch R) (src : Source R G) (T : Transformer X D R)
    (params : SamplingParams R) (eos : Option ℕ) (n nextId : ℕ) (ctx : List ℕ) (g : G) :
    Autoregressive.Stops (isEos eos) (n + 1)
      (nextId :: ((restOf torch T params eos n nextId ctx).run src g).1) := by
  unfold restOf
  by_cases heos : some nextId = eos
  · rw [if_pos heos]
    exact Autoregressive.Stops.stopped (show isEos eos nextId = true from decide_eq_true heos) n
  · rw [if_neg heos]
    exact (Autoregressive.decode_stops src _ _ n ctx g).cons
      (show isEos eos nextId = false from decide_eq_false heos)

/-- **The decode loop** raises `OutOfBlocksError`, when the pool is too small for
what is to be drawn, or draws what the reference draws. -/
theorem decode_spec (torch : Torch R) (src : Source R G) {T : Transformer X D R}
    (reuse : List ℕ) (params : SamplingParams R) (eos : Option ℕ) (n : ℕ) {ctx : List ℕ}
    {t : BlockTable} (h : Decoding T noBase e seqId pins ctx t) (g : G) :
    ∃ r e' g', decode torch src T.runner seqId reuse params eos n (str ctx t.numTokens) t.numTokens
        e g = (r, e', g') ∧
      Frame e e' seqId pins reuse ∧ e'.cache.manager.Accounted pins ∧
      let out := (restOf torch T params eos n (str ctx t.numTokens) ctx).run src g
      ((∃ msg, r = .error (.OutOfBlocksError msg)) ∧
          e.cache.manager.freeList.length + t.blockIds.length <
            e.cache.manager.blocksNeeded (t.numTokens + out.1.length) ∨
        r = .ok out.1 ∧ g' = out.2 ∧
          e.cache.manager.blocksNeeded (t.numTokens + out.1.length) ≤
            e.cache.manager.freeList.length + t.blockIds.length) := by
  have hdone : e.cache.manager.blocksNeeded t.numTokens ≤
      e.cache.manager.freeList.length + t.blockIds.length := by
    rw [← h.exact]
    omega
  induction n generalizing e ctx t g with
  | zero =>
    refine ⟨.ok [], e, g, rfl, Frame.refl e seqId pins reuse, h.accounted, Or.inr ?_⟩
    have hout : (restOf torch T params eos 0 (str ctx t.numTokens) ctx).run src g = ([], g) := by
      unfold restOf
      split <;> rfl
    rw [hout]
    exact ⟨rfl, rfl, hdone⟩
  | succ n ih =>
    by_cases heos : some (str ctx t.numTokens) = eos
    · refine ⟨.ok [], e, g, ?_, Frame.refl e seqId pins reuse, h.accounted, Or.inr ?_⟩
      · rw [decode, if_pos heos]
      · rw [restOf, if_pos heos]
        exact ⟨rfl, rfl, hdone⟩
    have hrest : restOf torch T params eos (n + 1) (str ctx t.numTokens) ctx =
        (drawNext torch T params ctx).bind fun x =>
          (restOf torch T params eos n x (ctx ++ [x])).map (x :: ·) := by
      rw [restOf, if_neg heos, decode_eq_restOf]
    rw [hrest, RandM.run_bind]
    simp only [RandM.run_map]
    set x := ((drawNext torch T params ctx).run src g).1 with hx
    set g₁ := ((drawNext torch T params ctx).run src g).2 with hg₁
    set out := (restOf torch T params eos n x (ctx ++ [x])).run src g₁ with hout
    rcases decode_step h reuse with ⟨happ, hshort⟩ |
      ⟨blk, off, m, t', e₁, happ, htab, hfwd, hframe, htok, hfree, hnext⟩
    · refine ⟨.error (.OutOfBlocksError "block pool exhausted"), e, g, ?_,
        Frame.refl e seqId pins reuse, h.accounted, Or.inl ⟨⟨_, rfl⟩, hshort.trans_le ?_⟩⟩
      · rw [decode, if_neg heos, happ]
        rfl
      · refine BlockManager.blocksNeeded_mono _ h.blockSize_pos ?_
        rw [List.length_cons]
        omega
    have hlast : str (ctx ++ [x]) t'.numTokens = x := by
      rw [htok, ← h.length, str, List.getD_append_right _ _ _ _ le_rfl, Nat.sub_self]
      rfl
    have hbn : ∀ k, e₁.cache.manager.blocksNeeded k = e.cache.manager.blocksNeeded k :=
      BlockManager.blocksNeeded_congr hframe.touches.blockSize
    have hdone' : e₁.cache.manager.blocksNeeded t'.numTokens ≤
        e₁.cache.manager.freeList.length + t'.blockIds.length := by
      rw [← (hnext x).exact]
      omega
    obtain ⟨r, e', g', hdec, hframe', hacc, hcase⟩ := ih (hnext x) g₁ hdone'
    rw [hlast] at hdec hcase
    dsimp only at hcase
    rw [← hout, hbn, htok, hfree,
      show t.numTokens + 1 + out.1.length = t.numTokens + (x :: out.1).length by
        rw [List.length_cons]; omega] at hcase
    have hlogits : sampleNext torch src params (T.runner.logits (lastRow
        [T.norm (T.hiddenAt noBase (str ctx) T.numLayers t.numTokens)])) g = (.ok x, g₁) := by
      have hl : ctx.length - 1 = t.numTokens := by rw [h.length]; rfl
      rw [hx, hg₁, drawNext, Transformer.nextLogits, Transformer.logitsAfter, hl, ← sampleNext_singleton]
      rfl
    rcases hcase with ⟨⟨msg, rfl⟩, hshort⟩ | ⟨rfl, rfl, hfits⟩
    · refine ⟨.error (.OutOfBlocksError msg), e', g', ?_, hframe.trans hframe', hacc,
        Or.inl ⟨⟨msg, rfl⟩, hshort⟩⟩
      rw [decode, if_neg heos, happ]
      simp only [htab, hfwd, hlogits]
      rw [← htok, hdec]
    · refine ⟨.ok (x :: out.1), e', out.2, ?_, hframe.trans hframe', hacc,
        Or.inr ⟨rfl, rfl, hfits⟩⟩
      rw [decode, if_neg heos, happ]
      simp only [htab, hfwd, hlogits]
      rw [← htok, hdec]

end Decode

end LLMEngine

end DiSpec
