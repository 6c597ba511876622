/-
# Which exits give the blocks back

`dispec/workers/disaggregated.py`: `prefill_export`, `decode_from_kv`.
`dispec/workers/escalation.py`: `prefill_and_map`.

Each helper allocates a table for an id that is not in use and frees it at its end.  In between the
table is held (`Holding`), whatever the forward does to the pool: freeing it gives back tables,
counts and free blocks as they were (`Holding.freed`), and leaving without that does not
(`Holding.kept`).  The first two helpers have no `try`, and the forward of the third stands before
its `try`, so a call that raises there, once the table is held, leaks it.

Any call of the forward may raise (`Raising`).  `decode_from_kv` calls it for as many tokens as the model
draws after the first one, from the KV that was imported (`restFrom`, `importedBase`), and each time a
block boundary is crossed there has to be a free block (`decodeLoop_raising`).
`helpers_give_back_iff` says of each helper when it gives its blocks back.
-/

import DiSpec.Engine.Pressure
import DiSpec.Workers.Escalation

namespace DiSpec

/-! ### Holding a table -/

/-- The blocks that `allocate` takes for `n` tokens, if there are as many: the free list is a stack. -/
def BlockManager.nextBlocks (m : BlockManager) (n : ℕ) : List ℕ := m.freeList.reverse.take (m.blocksNeeded n)

/-- From `m₀` to `m` nothing but the table of `sid` was added. -/
structure Holding (m₀ m : BlockManager) (sid : ℕ) (pins : Multiset ℕ) (t : BlockTable) : Prop where
  touches : BlockManager.Touches m₀ m sid
  accounted : m.Accounted pins
  table : m.tables.lookup sid = some t

section Holding

variable {m₀ m : BlockManager} {sid : ℕ} {pins : Multiset ℕ} {t : BlockTable}

/-- **Freeing** the table gives everything back. -/
theorem Holding.freed (h : Holding m₀ m sid pins t) (hacc : m₀.Accounted pins)
    (hfresh : m₀.tables.lookup sid = none) :
    ∃ m', m.free sid = (.ok (), m') ∧ m₀.SameButOrder m' :=
  BlockManager.free_sameButOrder hacc h.accounted hfresh h.touches

/-- **Leaving without freeing it** does not. -/
theorem Holding.kept (h : Holding m₀ m sid pins t) (hfresh : m₀.tables.lookup sid = none) :
    ¬ m₀.SameButOrder m := by
  intro hsame
  have htable := hsame.tables sid
  rw [h.table, hfresh] at htable
  cases htable

/-- Another token count for the table. -/
theorem Holding.setTokens (h : Holding m₀ m sid pins t) {n : ℕ} (hn : n ≤ t.blockIds.length * m.blockSize) :
    Holding m₀ (m.setTable sid { t with numTokens := n }) sid pins { t with numTokens := n } :=
  ⟨h.touches.trans BlockManager.touches_setTable, h.accounted.setTokens h.table hn, AList.lookup_insert _⟩

/-- **The allocation** either finds too few free blocks and changes nothing, or takes the blocks that are
next to be taken, and the table is held. -/
theorem allocate_holding (hacc : m₀.Accounted pins) (hbs : 0 < m₀.blockSize)
    (hfresh : m₀.tables.lookup sid = none) (n : ℕ) :
    m₀.freeList.length < m₀.blocksNeeded n ∧
      (∃ msg, m₀.allocate sid n [] = (.error (.OutOfBlocksError msg), m₀)) ∨
    m₀.blocksNeeded n ≤ m₀.freeList.length ∧
      ∃ m, m₀.allocate sid n [] = (.ok ⟨m₀.nextBlocks n, n⟩, m) ∧
        Holding m₀ m sid pins ⟨m₀.nextBlocks n, n⟩ ∧
        (m₀.nextBlocks n).length = m₀.blocksNeeded n ∧ (∀ b ∈ m₀.nextBlocks n, b ∉ pins) ∧
        m.freeList.length + m₀.blocksNeeded n = m₀.freeList.length := by
  rcases BlockManager.allocate_spec hacc hbs sid n List.nodup_nil (fun b hb => absurd hb List.not_mem_nil)
      (Nat.zero_le _) with ⟨hhas, -⟩ | ⟨-, hfew, msg, heq⟩ | ⟨-, new, m, heq, hext, hlen, hacc'⟩
  · rw [BlockManager.hasTable, hfresh] at hhas
    cases hhas
  · exact Or.inl ⟨hfew, msg, heq⟩
  have hlen : new.length = m₀.blocksNeeded n := hlen
  have hcount := congrArg List.length hext.freeList
  rw [List.length_append, List.length_reverse, hlen] at hcount
  have hnext : m₀.nextBlocks n = new := by
    rw [BlockManager.nextBlocks, hext.freeList, List.reverse_append, List.reverse_reverse, ← hlen]
    exact List.take_left
  rw [hnext]
  exact Or.inr ⟨by omega, m, heq, ⟨hext.toTouches, hacc', hext.table⟩, hlen,
    fun b hb => ((hacc.fresh hext.freeList).2 b hb).2.2, hcount.symm⟩

end Holding

/-! ### A forward that may raise -/

section Raising

variable {X D R G : Type} [Zero D] [Add X]

/-- The forward of `T`, but that its calls for the positions in `fails` raise, whatever they have
written to the pool by then. -/
structure Raising (T : Transformer X D R) (fails : List ℕ → Prop) (runner : ModelRunner X D R) : Prop where
  logits : runner.logits = T.runner.logits
  writes : runner.WritesPool
  raises : ∀ tokenIds positions slots seqMeta c, fails positions →
    ∃ x, (runner.forward tokenIds positions slots seqMeta c).1 = .error x
  returns : ∀ tokenIds positions slots seqMeta c, ¬fails positions →
    runner.forward tokenIds positions slots seqMeta c = T.forward tokenIds positions slots seqMeta c

/-- A forward that raises before it writes anything. -/
def Transformer.raisingRunner (T : Transformer X D R) (fails : List ℕ → Bool) : ModelRunner X D R where
  forward tokenIds positions slots seqMeta c :=
    if fails positions then (.error .RuntimeError, c) else T.forward tokenIds positions slots seqMeta c
  logits := T.logits

theorem Transformer.raisingRunner_raising (T : Transformer X D R) (fails : List ℕ → Bool) :
    Raising T (fails · = true) (T.raisingRunner fails) where
  logits := rfl
  writes tokenIds positions slots seqMeta c := by
    unfold raisingRunner
    dsimp only
    split
    · rfl
    · exact T.writesPool tokenIds positions slots seqMeta c
  raises tokenIds positions slots seqMeta c h := ⟨_, congrArg Prod.fst (if_pos h)⟩
  returns tokenIds positions slots seqMeta c h := if_neg h

variable {T : Transformer X D R} {fails : List ℕ → Prop} {runner : ModelRunner X D R} {c : PagedKVCache D}
  {sid : ℕ} {pins : Multiset ℕ}

/-- A call of it raises, and the manager is as it was, or does what the forward of `T` does. -/
theorem Raising.forward_cases (hr : Raising T fails runner) (tokenIds positions slots : List ℕ)
    (seqMeta : List SeqMeta) (c : PagedKVCache D) :
    (fails positions ∧ ∃ x c₁, runner.forward tokenIds positions slots seqMeta c = (.error x, c₁) ∧
      c₁.manager = c.manager) ∨
    ¬fails positions ∧ runner.forward tokenIds positions slots seqMeta c =
      T.forward tokenIds positions slots seqMeta c := by
  by_cases hf : fails positions
  · obtain ⟨x, hx⟩ := hr.raises tokenIds positions slots seqMeta c hf
    exact Or.inl ⟨hf, x, _, Prod.ext hx rfl, hr.writes tokenIds positions slots seqMeta c⟩
  · exact Or.inr ⟨hf, hr.returns tokenIds positions slots seqMeta c hf⟩

/-- **The prefill** of a prompt that holds its table: it goes on holding it, and the forward returns rows
unless the prompt is empty or the call one that raises. -/
theorem prefill_raising (hr : Raising T fails runner) (hbs : 0 < c.blockSize) {m : BlockManager}
    {ids : List ℕ} (promptIds : List ℕ) (h : Holding c.manager m sid pins ⟨ids, promptIds.length⟩) :
    ∃ slots r c₁, (c.setManager m).contextSlots ids promptIds.length = .ok slots ∧
      runner.forwardList promptIds (List.range promptIds.length) slots
        [⟨ids, promptIds.length, promptIds.length⟩] (c.setManager (m.setTable sid ⟨ids, promptIds.length⟩)) =
        (r, c₁) ∧
      Holding c.manager c₁.manager sid pins ⟨ids, promptIds.length⟩ ∧
      (¬(promptIds ≠ [] ∧ ¬fails (List.range promptIds.length)) ∧ (∃ x, r = .error x) ∨
        (promptIds ≠ [] ∧ ¬fails (List.range promptIds.length)) ∧
          ∃ hidden, r = .ok hidden ∧ 0 < hidden.length) := by
  have hbs₁ : 0 < (c.setManager m).blockSize := hbs.trans_eq h.touches.blockSize.symm
  have hcap : promptIds.length ≤ ids.length * m.blockSize := h.accounted.capacity sid _ h.table
  have hslots := (c.setManager m).contextSlots_spec hbs₁ hcap
  have hset := h.setTokens hcap
  set c₂ := c.setManager (m.setTable sid ⟨ids, promptIds.length⟩)
  by_cases h0 : promptIds = []
  · exact ⟨_, .error .RuntimeError, c₂, hslots, if_pos h0, hset, Or.inl ⟨fun hok => hok.1 h0, _, rfl⟩⟩
  set slots := (List.range promptIds.length).map (Paging.slotAt (c.setManager m).blockSize ids)
  have hlist := runner.forwardList_eq h0 (List.range promptIds.length) slots
    [⟨ids, promptIds.length, promptIds.length⟩] c₂
  rcases hr.forward_cases promptIds (List.range promptIds.length) slots
    [⟨ids, promptIds.length, promptIds.length⟩] c₂ with ⟨hf, x, c₁, hrun, hman⟩ | ⟨hf, hrun⟩
  · have hkeep : Holding c.manager c₁.manager sid pins ⟨ids, promptIds.length⟩ := hman ▸ hset
    exact ⟨slots, .error x, c₁, hslots, hlist.trans hrun, hkeep, Or.inl ⟨fun hok => hok.2 hf, x, rfl⟩⟩
  · have hin : ∀ s ∈ slots, s < c₂.numSlots := by
      intro s hs
      obtain ⟨p, hp, rfl⟩ := List.mem_map.1 hs
      exact Paging.slotAt_lt hbs₁ (h.accounted.block_lt h.table) ((List.mem_range.1 hp).trans_le hcap)
    have hpos : (List.range promptIds.length).length = promptIds.length := List.length_range
    obtain ⟨hidden, pool, htotal, hlen⟩ := T.forward_total (c := c₂) hbs₁ hpos
      ((List.length_map _).trans hpos) hin hcap (hset.accounted.block_lt hset.table)
    exact ⟨slots, .ok hidden, _, hslots, hlist.trans (hrun.trans htotal), hset,
      Or.inr ⟨⟨h0, hf⟩, hidden, rfl, (List.length_pos_iff.2 h0).trans_eq hlen.symm⟩⟩

/-- The blocks of the table are enough for its tokens. -/
theorem LLMEngine.Decoding.blocks_le {κ : Type} {e : LLMEngine κ D} {base : BaseKV D} {ctx : List ℕ}
    {t : BlockTable} (h : LLMEngine.Decoding T base e sid pins ctx t) :
    e.cache.manager.blocksNeeded t.numTokens ≤ e.cache.manager.freeList.length + t.blockIds.length :=
  h.exact ▸ Nat.le_add_left _ _

variable [Field R] [LinearOrder R]

/-- What the decode loop is to draw after `ctx`, whose last token is `nextId`, with KV `base` supplied. -/
def restFrom (torch : Torch R) (T : Transformer X D R) (base : BaseKV D) (params : SamplingParams R)
    (eos : Option ℕ) (n nextId : ℕ) (ctx : List ℕ) : RandM R (List ℕ) :=
  if some nextId = eos then .pure []
  else Autoregressive.decode (fun toks => nextToken torch params (T.logitsAfter base toks)) (isEos eos) n ctx

/-- Unless it is over it draws a token and then the rest. -/
theorem restFrom_succ (torch : Torch R) (T : Transformer X D R) (base : BaseKV D) (params : SamplingParams R)
    {eos : Option ℕ} (n : ℕ) {nextId : ℕ} (ctx : List ℕ) (heos : some nextId ≠ eos) :
    restFrom torch T base params eos (n + 1) nextId ctx =
      (nextToken torch params (T.logitsAfter base ctx)).bind fun t =>
        (restFrom torch T base params eos n t (ctx ++ [t])).map (t :: ·) := by
  rw [restFrom, if_neg heos, Autoregressive.decode]
  refine congrArg _ (funext fun t => ?_)
  unfold restFrom isEos
  by_cases ht : some t = eos
  · simp only [ht, decide_true, if_true]
    rfl
  · simp only [ht, decide_false, if_false]
    rfl

/-- It draws as many tokens as it may, unless one is the end of the sequence. -/
theorem restFrom_length (torch : Torch R) (src : Source R G) (T : Transformer X D R) (base : BaseKV D)
    (params : SamplingParams R) (eos : Option ℕ) (n nextId : ℕ) (ctx : List ℕ) (g : G) :
    let rest := ((restFrom torch T base params eos n nextId ctx).run src g).1
    rest.length ≤ n ∧ (eos = none → rest.length = n) := by
  unfold restFrom
  by_cases heos : some nextId = eos
  · rw [if_pos heos]
    exact ⟨Nat.zero_le n, fun hnone => absurd (heos.trans hnone) (Option.some_ne_none nextId)⟩
  rw [if_neg heos]
  have hstops := Autoregressive.decode_stops src (fun toks => nextToken torch params (T.logitsAfter base toks))
    (isEos eos) n ctx g
  refine ⟨hstops.length_le, fun hnone => hstops.length_le.eq_of_not_lt fun hlt => ?_⟩
  obtain ⟨l, t, -, ht⟩ := hstops.short hlt
  have ht : some t = eos := of_decide_eq_true ht
  exact absurd (ht.trans hnone) (Option.some_ne_none t)

/-- **The decode loop** goes on holding the table.  It returns exactly if there are blocks for all the
tokens that the model draws, and the call for none of them raises. -/
theorem decodeLoop_raising (torch : Torch R) (src : Source R G) (hr : Raising T fails runner)
    (params : SamplingParams R) (eos : Option ℕ) {base : BaseKV D} {m₀ : BlockManager} (n : ℕ)
    {e : LLMEngine Unit D} {ctx : List ℕ} {t : BlockTable} (hd : LLMEngine.Decoding T base e sid pins ctx t)
    (htouch : BlockManager.Touches m₀ e.cache.manager sid) (g : G) :
    ∃ r c' g' t', decodeLoop torch src runner sid params eos n (str ctx t.numTokens) t.numTokens e.cache g =
        (r, c', g') ∧
      Holding m₀ c'.manager sid pins t' ∧
      let rest := ((restFrom torch T base params eos n (str ctx t.numTokens) ctx).run src g).1
      (r.toBool = true ↔
        e.cache.manager.blocksNeeded (t.numTokens + rest.length) ≤
            e.cache.manager.freeList.length + t.blockIds.length ∧
          ∀ p, t.numTokens ≤ p → p < t.numTokens + rest.length → ¬fails [p]) := by
  induction n generalizing e ctx t g with
  | zero =>
    have hrest : (restFrom torch T base params eos 0 (str ctx t.numTokens) ctx).run src g = ([], g) := by
      unfold restFrom
      split <;> rfl
    refine ⟨.ok [], e.cache, g, t, rfl, ⟨htouch, hd.accounted, hd.table⟩, ?_⟩
    rw [hrest]
    exact iff_of_true rfl ⟨hd.blocks_le, fun p hle hlt => absurd hlt (not_lt.2 hle)⟩
  | succ n ih =>
    have hheld : Holding m₀ e.cache.manager sid pins t := ⟨htouch, hd.accounted, hd.table⟩
    by_cases heos : some (str ctx t.numTokens) = eos
    · refine ⟨.ok [], e.cache, g, t, ?_, hheld, ?_⟩
      · rw [decodeLoop, if_pos heos]
      · rw [restFrom, if_pos heos]
        exact iff_of_true rfl ⟨hd.blocks_le, fun p hle hlt => absurd hlt (not_lt.2 hle)⟩
    rw [restFrom_succ torch T base params n ctx heos, RandM.run_bind]
    simp only [RandM.run_map]
    set x := ((nextToken torch params (T.logitsAfter base ctx)).run src g).1 with hx
    set g₁ := ((nextToken torch params (T.logitsAfter base ctx)).run src g).2 with hg₁
    set rest := ((restFrom torch T base params eos n x (ctx ++ [x])).run src g₁).1 with hrest
    have hsucc : t.numTokens + (x :: rest).length = t.numTokens + 1 + rest.length := by
      rw [List.length_cons]
      omega
    rw [hsucc]
    rcases LLMEngine.decode_step hd [] with ⟨happ, hshort⟩ |
      ⟨blk, off, m, t', e₁, happ, htab, hfwd, hframe, htok, hfree, hnext⟩
    · refine ⟨.error (.OutOfBlocksError "block pool exhausted"), e.cache, g, t, ?_, hheld, ?_⟩
      · rw [decodeLoop, if_neg heos, happ]
        rfl
      · refine iff_of_false Bool.false_ne_true fun hall => ?_
        exact absurd hall.1 (not_le.2 (hshort.trans_le (BlockManager.blocksNeeded_mono _ hd.blockSize_pos
          (Nat.le_add_right _ _))))
    -- what the model does at this position
    have hfwd : T.forward [str ctx t.numTokens] [t.numTokens] [blk * e.cache.blockSize + off]
        [⟨t'.blockIds, 1, t.numTokens + 1⟩] (e.cache.setManager m) =
        (.ok [T.norm (T.hiddenAt base (str ctx) T.numLayers t.numTokens)], e₁.cache) :=
      congrArg (fun p => (p.1, p.2.cache)) hfwd
    have hman : e₁.cache.manager = m := by
      rw [← congrArg (fun p => p.2.manager) hfwd]
      exact T.writesPool _ _ _ _ _
    have hheld₁ : Holding m₀ m sid pins t' := by
      rw [← hman]
      exact ⟨htouch.trans hframe.touches, (hnext x).accounted, (hnext x).table⟩
    rcases hr.forward_cases [str ctx t.numTokens] [t.numTokens] [blk * e.cache.blockSize + off]
      [⟨t'.blockIds, 1, t.numTokens + 1⟩] (e.cache.setManager m) with ⟨hf, y, c₁, hrun, hkeep⟩ | ⟨hf, hrun⟩
    · have hkeep : c₁.manager = m := hkeep
      refine ⟨.error y, c₁, g, t', ?_, hkeep.symm ▸ hheld₁, ?_⟩
      · rw [decodeLoop, if_neg heos, happ]
        simp only [htab, hrun]
      · exact iff_of_false Bool.false_ne_true fun hall => hall.2 _ le_rfl (by omega) hf
    rw [hfwd] at hrun
    have hdraw : LLMEngine.sampleNext torch src params (runner.logits (lastRow
        [T.norm (T.hiddenAt base (str ctx) T.numLayers t.numTokens)])) g = (.ok x, g₁) := by
      have hl : ctx.length - 1 = t.numTokens := by rw [hd.length]; rfl
      rw [hr.logits, hx, hg₁, Transformer.logitsAfter, hl, ← LLMEngine.sampleNext_singleton]
      rfl
    have hlast : str (ctx ++ [x]) t'.numTokens = x := by
      rw [htok, ← hd.length, str, List.getD_append_right _ _ _ _ le_rfl, Nat.sub_self]
      rfl
    obtain ⟨r, c', g', t'', hloop, hheld₂, hiff⟩ := ih (hnext x) (htouch.trans hframe.touches) g₁
    rw [hlast, htok] at hloop
    dsimp only at hiff
    rw [hlast, htok, BlockManager.blocksNeeded_congr hframe.touches.blockSize, hfree, ← hrest] at hiff
    have hcalls : (∀ p, t.numTokens ≤ p → p < t.numTokens + 1 + rest.length → ¬fails [p]) ↔
        ∀ p, t.numTokens + 1 ≤ p → p < t.numTokens + 1 + rest.length → ¬fails [p] := by
      refine forall_congr' fun p => ⟨fun h hle => h (by omega), fun h hle hlt => ?_⟩
      rcases hle.eq_or_lt with rfl | hlt'
      · exact hf
      · exact h hlt' hlt
    rw [hcalls]
    cases r with
    | error y =>
      refine ⟨.error y, c', g', t'', ?_, hheld₂, hiff⟩
      rw [decodeLoop, if_neg heos, happ]
      simp only [htab, hrun, hdraw, hloop]
    | ok out =>
      refine ⟨.ok (x :: out), c', g', t'', ?_, hheld₂, hiff⟩
      rw [decodeLoop, if_neg heos, happ]
      simp only [htab, hrun, hdraw, hloop]

end Raising

/-! ### The three helpers -/

section Helpers

variable {X D R G : Type} [Zero D] [Add X] [Field R] [LinearOrder R] {T : Transformer X D R}
  {fails : List ℕ → Prop} {runner : ModelRunner X D R} {c : PagedKVCache D} {sid : ℕ} {pins : Multiset ℕ}

/-- **`prefill_export`** gives its blocks back if there are too few of them to begin with, or the forward
over the prompt returns. -/
theorem prefillExport_gives_back (torch : Torch R) (src : Source R G) (hr : Raising T fails runner)
    (hbs : 0 < c.blockSize) (hacc : c.manager.Accounted pins)
    (hfresh : c.manager.tables.lookup sid = none) (promptIds : List ℕ) (params : SamplingParams R) (g : G) :
    c.manager.SameButOrder (prefillExport torch src runner c g sid promptIds params).2.1.manager ↔
      c.manager.freeList.length < c.manager.blocksNeeded promptIds.length ∨
        promptIds ≠ [] ∧ ¬fails (List.range promptIds.length) := by
  rcases allocate_holding hacc hbs hfresh promptIds.length with ⟨hfew, msg, halloc⟩ |
    ⟨hroom, m, halloc, h, -⟩
  · simp only [prefillExport, halloc]
    exact iff_of_true (.refl _) (Or.inl hfew)
  rw [or_iff_right (not_lt.2 hroom)]
  obtain ⟨slots, r, c₁, hslots, hrun, h₁, hcase⟩ := prefill_raising hr hbs promptIds h
  simp only [prefillExport, halloc, hslots]
  rw [show (c.setManager m).setManager ((c.setManager m).manager.setTable sid
    ⟨c.manager.nextBlocks promptIds.length, promptIds.length⟩) = c.setManager (m.setTable sid
      ⟨c.manager.nextBlocks promptIds.length, promptIds.length⟩) from rfl, hrun]
  rcases hcase with ⟨hno, x, rfl⟩ | ⟨hyes, hidden, rfl, hpos⟩
  · exact iff_of_false (h₁.kept hfresh) hno
  -- with the forward done nothing else can raise
  obtain ⟨t, g₁, hdraw⟩ := LLMEngine.sampleNext_lastRow torch src T params hpos g
  rw [← hr.logits] at hdraw
  obtain ⟨k, v, hexp, -⟩ := c₁.exportContiguous_spec (hbs.trans_eq h₁.touches.blockSize.symm)
    (h₁.accounted.block_lt h₁.table) (h₁.accounted.capacity sid _ h₁.table)
  obtain ⟨m', hfree, hsame⟩ := h₁.freed hacc hfresh
  simp only [hdraw, hexp, hfree]
  exact iff_of_true hsame hyes

/-- The KV of the `n` tokens of a prompt after an import: its rows, broadcast, and behind them what the
blocks held when they were free. -/
def importedBase (c : PagedKVCache D) (n : ℕ) (k v : KVTensor D) : BaseKV D := fun i p =>
  if n ≤ p then none
  else if p < k.tokens then some ⟨k.broadcastRow c.numKvHeads i p, v.broadcastRow c.numKvHeads i p⟩
  else some (c.pool i (Paging.slotAt c.blockSize (c.manager.nextBlocks n) p))

omit [Field R] [LinearOrder R] in
/-- **An import that fits** leaves the table ready for the decode loop. -/
theorem import_decoding (hbs : 0 < c.blockSize) (hlayers : c.numLayers = T.numLayers) {promptIds : List ℕ}
    {m : BlockManager} (h : Holding c.manager m sid pins
      ⟨c.manager.nextBlocks promptIds.length, promptIds.length⟩)
    (hlen : (c.manager.nextBlocks promptIds.length).length = c.manager.blocksNeeded promptIds.length)
    (hpins : ∀ b ∈ c.manager.nextBlocks promptIds.length, b ∉ pins) {k v : KVTensor D}
    (hk : k.Broadcasts c k.tokens) (hv : v.Broadcasts c k.tokens)
    (hroom : k.tokens ≤ c.manager.blocksNeeded promptIds.length * c.blockSize) (firstToken : ℕ) :
    ∃ c₁, (c.setManager m).importContiguous (c.manager.nextBlocks promptIds.length) k v = (.ok (), c₁) ∧
      LLMEngine.Decoding T (importedBase c promptIds.length k v)
        (⟨c₁.setManager (c₁.manager.setTable sid
          ⟨c.manager.nextBlocks promptIds.length, promptIds.length⟩), none, 0, []⟩ : LLMEngine Unit D)
        sid pins (promptIds ++ [firstToken])
        ⟨c.manager.nextBlocks promptIds.length, promptIds.length⟩ := by
  set ids := c.manager.nextBlocks promptIds.length
  have hmbs : m.blockSize = c.blockSize := h.touches.blockSize
  have hbs₁ : 0 < (c.setManager m).blockSize := hbs.trans_eq hmbs.symm
  have hcap : promptIds.length ≤ ids.length * m.blockSize := h.accounted.capacity sid _ h.table
  have hin : ∀ b ∈ ids, b < m.numBlocks := h.accounted.block_lt h.table
  have hids : ids.Nodup := h.accounted.table_nodup sid _ h.table
  have hroom₁ : k.tokens ≤ ids.length * (c.setManager m).blockSize := by
    rw [hlen, show (c.setManager m).blockSize = c.blockSize from hmbs]
    exact hroom
  have hset := h.setTokens hcap
  obtain ⟨pool, himp, hrows, hkeep⟩ :=
    (c.setManager m).importContiguous_broadcasts hbs₁ hids hin hk hv hroom₁
  refine ⟨_, himp, hset.accounted, hbs₁, hset.table, ?_, by rw [List.length_append]; rfl,
    fun i p hp => if_pos hp, fun i hi p hp => ?_, fun j b _ hb => hpins b (List.mem_of_getElem? hb)⟩
  · exact hlen.trans (BlockManager.blocksNeeded_congr hmbs _).symm
  have hval : T.kvAt (importedBase c promptIds.length k v) (str (promptIds ++ [firstToken])) i p =
      if p < k.tokens then ⟨k.broadcastRow c.numKvHeads i p, v.broadcastRow c.numKvHeads i p⟩
      else c.pool i (Paging.slotAt c.blockSize ids p) := by
    rw [Transformer.kvAt, importedBase, if_neg (not_le.2 hp)]
    split <;> rfl
  rw [hval]
  by_cases hpk : p < k.tokens
  · rw [if_pos hpk]
    exact hrows i (hlayers.symm ▸ hi) p hpk
  · rw [if_neg hpk, ← hmbs]
    refine hkeep i _ fun hmem => hpk ?_
    obtain ⟨q, hq, hslot⟩ := List.mem_map.1 hmem
    have hq := List.mem_range.1 hq
    have hqp := Paging.slotAt_inj hbs₁ hids (hq.trans_le hroom₁) (hp.trans_le hcap) hslot
    exact hqp ▸ hq

/-- **`decode_from_kv`** gives its blocks back if there are too few of them to begin with, or the KV fits
them, there are blocks for all the tokens that the model draws, and the call for none of them raises. -/
theorem decodeFromKv_gives_back (torch : Torch R) (src : Source R G) (hr : Raising T fails runner)
    (hbs : 0 < c.blockSize) (hlayers : c.numLayers = T.numLayers) (hacc : c.manager.Accounted pins)
    (hfresh : c.manager.tables.lookup sid = none) (promptIds : List ℕ) (k v : KVTensor D)
    (firstToken maxNew : ℕ) (params : SamplingParams R) (eos : Option ℕ) (g : G) :
    let rest := ((restFrom torch T (importedBase c promptIds.length k v) params eos (maxNew - 1) firstToken
      (promptIds ++ [firstToken])).run src g).1
    c.manager.SameButOrder (decodeFromKv torch src runner c g sid promptIds k v firstToken maxNew params
        eos).2.1.manager ↔
      c.manager.freeList.length < c.manager.blocksNeeded promptIds.length ∨
        (k.Broadcasts c k.tokens ∧ v.Broadcasts c k.tokens ∧
            k.tokens ≤ c.manager.blocksNeeded promptIds.length * c.blockSize) ∧
          c.manager.blocksNeeded (promptIds.length + rest.length) ≤ c.manager.freeList.length ∧
          ∀ p, promptIds.length ≤ p → p < promptIds.length + rest.length → ¬fails [p] := by
  intro rest
  rcases allocate_holding hacc hbs hfresh promptIds.length with ⟨hfew, msg, halloc⟩ |
    ⟨hroom, m, halloc, h, hlen, hpins, hfree⟩
  · simp only [decodeFromKv, halloc]
    exact iff_of_true (.refl _) (Or.inl hfew)
  rw [or_iff_right (not_lt.2 hroom)]
  simp only [decodeFromKv, halloc]
  have hmbs : m.blockSize = c.blockSize := h.touches.blockSize
  by_cases hfits : k.Broadcasts c k.tokens ∧ v.Broadcasts c k.tokens ∧
      k.tokens ≤ c.manager.blocksNeeded promptIds.length * c.blockSize
  · obtain ⟨c₁, himp, hd⟩ := import_decoding hbs hlayers h hlen hpins hfits.1 hfits.2.1 hfits.2.2 firstToken
    have hman := (c.setManager m).importContiguous_manager (c.manager.nextBlocks promptIds.length) k v
    rw [himp] at hman
    have hman : c₁.manager = m := hman
    have htouch : BlockManager.Touches c.manager (c₁.setManager (c₁.manager.setTable sid
        ⟨c.manager.nextBlocks promptIds.length, promptIds.length⟩)).manager sid :=
      hman ▸ h.touches.trans BlockManager.touches_setTable
    obtain ⟨r, c₂, g₂, t', hloop, hheld, hiff⟩ :=
      decodeLoop_raising torch src hr params eos (maxNew - 1) hd htouch g
    have hstr : str (promptIds ++ [firstToken]) promptIds.length = firstToken := by
      rw [str, List.getD_append_right _ _ _ _ le_rfl, Nat.sub_self]
      rfl
    dsimp only at hloop hiff
    rw [hstr] at hloop hiff
    have hneed : ∀ j, (c₁.setManager (c₁.manager.setTable sid ⟨c.manager.nextBlocks promptIds.length,
        promptIds.length⟩)).manager.blocksNeeded j = c.manager.blocksNeeded j :=
      BlockManager.blocksNeeded_congr (hman ▸ hmbs)
    have hcount : (c₁.setManager (c₁.manager.setTable sid ⟨c.manager.nextBlocks promptIds.length,
        promptIds.length⟩)).manager.freeList.length + (c.manager.nextBlocks promptIds.length).length =
        c.manager.freeList.length := by
      rw [hlen, ← hfree, ← hman]
      rfl
    rw [hneed, hcount] at hiff
    rw [and_iff_right hfits, ← hiff]
    simp only [himp, hloop]
    cases r with
    | error x => exact iff_of_false (hheld.kept hfresh) Bool.false_ne_true
    | ok out =>
      obtain ⟨m', hfreed, hsame⟩ := hheld.freed hacc hfresh
      simp only [hfreed]
      exact iff_of_true hsame rfl
  · -- the import raises
    rw [iff_false_right fun hall => hfits hall.1]
    have hman := (c.setManager m).importContiguous_manager (c.manager.nextBlocks promptIds.length) k v
    have hbs₁ : 0 < (c.setManager m).blockSize := hbs.trans_eq hmbs.symm
    rcases himp : (c.setManager m).importContiguous (c.manager.nextBlocks promptIds.length) k v with
      ⟨x | ⟨⟩, c₁⟩
    · rw [himp] at hman
      have hman : c₁.manager = m := hman
      simp only
      exact (hman ▸ h : Holding c.manager c₁.manager sid pins _).kept hfresh
    · obtain ⟨hk, hv, hle⟩ := PagedKVCache.importContiguous_ok hbs₁ himp
      rw [hlen, show (c.setManager m).blockSize = c.blockSize from hmbs] at hle
      exact absurd ⟨hk, hv, hle⟩ hfits

end Helpers

section Escalation

variable {S X R : Type} [Zero S] [Add X] {d : ℕ} {T : Transformer X (Fin d → S) R} {fails : List ℕ → Prop}
  {runner : ModelRunner X (Fin d → S) R} {c : PagedKVCache (Fin d → S)} {sid : ℕ} {pins : Multiset ℕ}

/-- **`prefill_and_map`** gives its blocks back when `prefill_export` does, whatever the map does. -/
theorem prefillAndMap_gives_back (hr : Raising T fails runner) (hbs : 0 < c.blockSize)
    (hacc : c.manager.Accounted pins) (hfresh : c.manager.tables.lookup sid = none)
    (sourceRotary targetRotary : List ℕ → RopeTables S) (mapKV : MapKV S) (promptIds : List ℕ)
    (useResidual : Bool) :
    c.manager.SameButOrder (prefillAndMap runner sourceRotary targetRotary mapKV c sid promptIds
        useResidual).2.manager ↔
      c.manager.freeList.length < c.manager.blocksNeeded promptIds.length ∨
        promptIds ≠ [] ∧ ¬fails (List.range promptIds.length) := by
  rcases allocate_holding hacc hbs hfresh promptIds.length with ⟨hfew, msg, halloc⟩ |
    ⟨hroom, m, halloc, h, -⟩
  · simp only [prefillAndMap, halloc]
    exact iff_of_true (.refl _) (Or.inl hfew)
  rw [or_iff_right (not_lt.2 hroom)]
  obtain ⟨slots, r, c₁, hslots, hrun, h₁, hcase⟩ := prefill_raising hr hbs promptIds h
  simp only [prefillAndMap, halloc, hslots]
  rw [show (c.setManager m).setManager ((c.setManager m).manager.setTable sid
    ⟨c.manager.nextBlocks promptIds.length, promptIds.length⟩) = c.setManager (m.setTable sid
      ⟨c.manager.nextBlocks promptIds.length, promptIds.length⟩) from rfl, hrun]
  rcases hcase with ⟨hno, x, rfl⟩ | ⟨hyes, hidden, rfl, -⟩
  · exact iff_of_false (h₁.kept hfresh) hno
  obtain ⟨m', hfree, hsame⟩ := h₁.freed hacc hfresh
  simp only [hfree]
  exact iff_of_true hsame hyes

end Escalation

/-! ### The three together -/

/-- **Which exits give the blocks back**, in any state of the pool and whichever calls of the forward
raise.  Those that find too few free blocks for the prompt do; of the others

* the prefills do if the prompt is not empty and the forward over it returns, whatever the map does;
* `decode_from_kv` does if the KV fits the blocks, there are as many free blocks as the prompt and the
  tokens drawn after the first need, and the call of the forward for none of these raises. -/
theorem helpers_give_back_iff {X D X' S R G : Type} [Field R] [LinearOrder R] [Zero D] [Add X] [Zero S]
    [Add X'] {d : ℕ} (torch : Torch R) (src : Source R G) {T : Transformer X D R} {fails : List ℕ → Prop}
    {runner : ModelRunner X D R} (hr : Raising T fails runner) {c : PagedKVCache D} (hbs : 0 < c.blockSize)
    (hlayers : c.numLayers = T.numLayers) (hacc : ∃ pins, c.manager.Accounted pins) {sid : ℕ}
    (hfresh : c.manager.tables.lookup sid = none) {T' : Transformer X' (Fin d → S) R}
    {fails' : List ℕ → Prop} {runner' : ModelRunner X' (Fin d → S) R} (hr' : Raising T' fails' runner')
    {c' : PagedKVCache (Fin d → S)} (hbs' : 0 < c'.blockSize) (hacc' : ∃ pins, c'.manager.Accounted pins)
    {sid' : ℕ} (hfresh' : c'.manager.tables.lookup sid' = none) (promptIds : List ℕ) :
    let n := promptIds.length
    let few := c.manager.freeList.length < c.manager.blocksNeeded n
    let few' := c'.manager.freeList.length < c'.manager.blocksNeeded n
    (∀ params g,
      c.manager.SameButOrder (prefillExport torch src runner c g sid promptIds params).2.1.manager ↔
        few ∨ promptIds ≠ [] ∧ ¬fails (List.range n)) ∧
    (∀ k v firstToken maxNew params eos g,
      let rest := ((restFrom torch T (importedBase c n k v) params eos (maxNew - 1) firstToken
        (promptIds ++ [firstToken])).run src g).1
      (rest.length ≤ maxNew - 1 ∧ (eos = none → rest.length = maxNew - 1)) ∧
      (c.manager.SameButOrder (decodeFromKv torch src runner c g sid promptIds k v firstToken maxNew params
          eos).2.1.manager ↔
        few ∨ (k.Broadcasts c k.tokens ∧ v.Broadcasts c k.tokens ∧
            k.tokens ≤ c.manager.blocksNeeded n * c.blockSize) ∧
          c.manager.blocksNeeded (n + rest.length) ≤ c.manager.freeList.length ∧
          ∀ p, n ≤ p → p < n + rest.length → ¬fails [p])) ∧
    ∀ sourceRotary targetRotary mapKV useResidual,
      c'.manager.SameButOrder (prefillAndMap runner' sourceRotary targetRotary mapKV c' sid' promptIds
          useResidual).2.manager ↔
        few' ∨ promptIds ≠ [] ∧ ¬fails' (List.range n) := by
  obtain ⟨pins, hacc⟩ := hacc
  obtain ⟨pins', hacc'⟩ := hacc'
  exact ⟨prefillExport_gives_back torch src hr hbs hacc hfresh promptIds,
    fun k v firstToken maxNew params eos g => ⟨restFrom_length torch src T _ params eos _ _ _ g,
      decodeFromKv_gives_back torch src hr hbs hlayers hacc hfresh promptIds k v firstToken maxNew params eos g⟩,
    fun sourceRotary targetRotary mapKV useResidual =>
      prefillAndMap_gives_back hr' hbs' hacc' hfresh' sourceRotary targetRotary mapKV promptIds
        useResidual⟩

/-- The hypotheses are satisfiable: a prompt of one token is prefilled, and decoded past a block boundary
unless the call for its fourth token raises; and the map of no tokens raises inside the `try`. -/
theorem helpers_give_back_iff_one_token :
    let torch : Torch ℚ := ⟨id, fun _ => []⟩
    let src : Source ℚ Unit := ⟨fun g => (0, g), fun _ g => (0, g)⟩
    let c := sumModel.newCache 3 2
    let c' := pairModel.newCache 4 2
    let kv := ownPrefix sumModel [0] 1
    let runner := sumModel.raisingRunner (· = [3])
    let runner' := pairModel.raisingRunner fun _ => false
    let mapped := prefillAndMap runner' quarterTurns quarterTurns (pairMap.map id) c' 0 [0] true
    c.manager.SameButOrder (prefillExport torch src runner c () 0 [0] .default).2.1.manager ∧
      c.manager.SameButOrder
        (decodeFromKv torch src runner c () 0 [0] kv.1 kv.2 1 3 .default none).2.1.manager ∧
      ¬c.manager.SameButOrder
        (decodeFromKv torch src runner c () 0 [0] kv.1 kv.2 1 4 .default none).2.1.manager ∧
      mapped.1.toBool = false ∧ c'.manager.SameButOrder mapped.2.manager := by
  intro torch src c c' kv runner runner' mapped
  have hacc : ∀ n : ℕ, ∃ pins, (BlockManager.init n 2).Accounted pins := fun n =>
    ⟨0, ((Reachable.init (H := listHash)).accounted (by decide)).1⟩
  have hfresh : c.manager.tables.lookup 0 = none := rfl
  have hacc' : ∃ pins, c'.manager.Accounted pins := hacc 4
  have hfresh' : c'.manager.tables.lookup 0 = none := rfl
  obtain ⟨hexport, hdecode, hmap⟩ := helpers_give_back_iff torch src
    (sumModel.raisingRunner_raising (· = [3])) (c := c) (by decide) rfl (hacc 3) hfresh
    (pairModel.raisingRunner_raising fun _ => false) (by decide : 0 < c'.blockSize) hacc' hfresh' [0]
  obtain ⟨⟨-, hthree⟩, hreturns⟩ := hdecode kv.1 kv.2 1 3 .default none ()
  obtain ⟨⟨-, hfour⟩, hraises⟩ := hdecode kv.1 kv.2 1 4 .default none ()
  rw [hthree rfl] at hreturns
  rw [hfour rfl] at hraises
  refine ⟨(hexport .default ()).2 (Or.inr (by decide)),
    hreturns.2 (Or.inr ⟨by decide +kernel, by decide +kernel, fun p _ hlt => ?_⟩), mt hraises.1 ?_,
    by decide +kernel, (hmap quarterTurns quarterTurns (pairMap.map id) true).2 (Or.inr (by decide))⟩
  · have hlt : p < 1 + 2 := hlt
    rw [decide_eq_true_iff, List.singleton_inj]
    omega
  · rintro (hfew | ⟨-, -, hcalls⟩)
    · exact absurd hfew (by decide +kernel)
    · exact hcalls 3 (by decide) (by decide) rfl

/-- A pool of one block for a prompt that fills it: the first `append_token` of the decode loop raises,
and the table stays. -/
theorem out_of_blocks_leaks :
    let torch : Torch ℚ := ⟨id, fun _ => []⟩
    let src : Source ℚ Unit := ⟨fun g => (0, g), fun _ g => (0, g)⟩
    let c := sumModel.newCache 1 2
    let kv := ownPrefix sumModel [0, 1] 2
    let decoded := decodeFromKv torch src sumModel.runner c () 0 [0, 1] kv.1 kv.2 1 2 .default none
    c.manager.tables.lookup 0 = none ∧
      decoded.1 = .error (.OutOfBlocksError "block pool exhausted") ∧
      ¬ c.manager.SameButOrder decoded.2.1.manager := by
  intro torch src c kv decoded
  refine ⟨rfl, by decide +kernel, fun hsame => ?_⟩
  have htable := hsame.tables 0
  revert htable
  decide +kernel

end DiSpec
