/-
# Phase 1 of `step`

Every running request within the budget gets a decode slot (`decode_one`,
`decodeLoop_spec`).  Each adds a slice to the batch and keeps `Inv`.

This is the only place where `schedule` can raise: it raises `OutOfBlocksError`
exactly when more of the requests it takes stand on a block boundary than there
are free blocks.

`Scheduled` and `Grows` say what both phases leave alone and what the batch gains.
-/

import DiSpec.Sched.Lifecycle

namespace DiSpec
namespace ContinuousBatchingEngine

variable {X D R G : Type}

/-- The next token of `r` opens a block. -/
def onBoundary (e : ContinuousBatchingEngine D R G) (r : ℕ) : Bool :=
  match e.cache.manager.tables.lookup r with
  | none => false
  | some t => decide (t.numTokens % e.cache.blockSize = 0)

/-- What scheduling leaves alone. -/
structure Scheduled (e e' : ContinuousBatchingEngine D R G) : Prop where
  text : ∀ r, SameText (e.req r) (e'.req r)
  running : ∀ r ∈ e.running, r ∈ e'.running
  finished : e'.finished = e.finished
  nextId : e'.nextId = e.nextId
  maxBatchTokens : e'.maxBatchTokens = e.maxBatchTokens
  chunkSize : e'.chunkSize = e.chunkSize
  numSteps : e'.numSteps = e.numSteps
  rng : e'.rng = e.rng
  numBlocks : e'.cache.manager.numBlocks = e.cache.manager.numBlocks
  blockSize : e'.cache.manager.blockSize = e.cache.manager.blockSize
  tables : ∀ r t, e.cache.manager.tables.lookup r = some t →
    ∃ t', e'.cache.manager.tables.lookup r = some t' ∧ t.blockIds <+: t'.blockIds ∧
      t.numTokens ≤ t'.numTokens

theorem Scheduled.refl (e : ContinuousBatchingEngine D R G) : Scheduled e e :=
  ⟨fun _ => .refl _, fun _ h => h, rfl, rfl, rfl, rfl, rfl, rfl, rfl, rfl,
    fun _ t h => ⟨t, h, List.prefix_rfl, le_rfl⟩⟩

theorem Scheduled.trans {e₁ e₂ e₃ : ContinuousBatchingEngine D R G} (h : Scheduled e₁ e₂)
    (h' : Scheduled e₂ e₃) : Scheduled e₁ e₃ := by
  refine ⟨fun r => (h.text r).trans (h'.text r), fun r hr => h'.running r (h.running r hr),
    h'.finished.trans h.finished, h'.nextId.trans h.nextId,
    h'.maxBatchTokens.trans h.maxBatchTokens, h'.chunkSize.trans h.chunkSize,
    h'.numSteps.trans h.numSteps, h'.rng.trans h.rng, h'.numBlocks.trans h.numBlocks,
    h'.blockSize.trans h.blockSize, fun r t ht => ?_⟩
  obtain ⟨t', ht', hp, hn⟩ := h.tables r t ht
  obtain ⟨t'', ht'', hp', hn'⟩ := h'.tables r t' ht'
  exact ⟨t'', ht'', hp.trans hp', hn.trans hn'⟩

theorem Scheduled.tokensOf {e e' : ContinuousBatchingEngine D R G} (h : Scheduled e e') :
    e'.tokensOf = e.tokensOf := by
  funext r
  unfold ContinuousBatchingEngine.tokensOf
  rw [(h.text r).tokens]

/-- An action on one request that at most extends its table is scheduling. -/
theorem Acts.scheduled {e e' : ContinuousBatchingEngine D R G} {r : ℕ} (h : Acts e e' r)
    (hrun : r ∈ e.running → r ∈ e'.running)
    (htab : ∀ t, e.cache.manager.tables.lookup r = some t →
      ∃ t', e'.cache.manager.tables.lookup r = some t' ∧ t.blockIds <+: t'.blockIds ∧
        t.numTokens ≤ t'.numTokens) : Scheduled e e' := by
  refine ⟨h.text, fun r' hr' => ?_, h.finished, h.nextId, h.maxBatchTokens, h.chunkSize, h.numSteps,
    h.rng, h.touches.numBlocks, h.touches.blockSize, fun r' t ht => ?_⟩
  · rcases eq_or_ne r' r with rfl | hne
    · exact hrun hr'
    · exact (h.others r' hne).2.2.2.2 hr'
  · rcases eq_or_ne r' r with rfl | hne
    · exact htab t ht
    · exact ⟨t, (h.touches.others r' hne).trans ht, List.prefix_rfl, le_rfl⟩

/-- The slices `new` are what the batch gains between `e` and `e'`: each starts where the
table of its request ended, and the tables of the other requests are as they were. -/
structure Grows (e e' : ContinuousBatchingEngine D R G) (new : List Slice) : Prop where
  starts : ∀ s ∈ new, ∀ t, e.cache.manager.tables.lookup s.req = some t → s.start = t.numTokens
  same : ∀ r, ¬Sliced new r →
    e'.cache.manager.tables.lookup r = e.cache.manager.tables.lookup r

theorem Grows.nil (e : ContinuousBatchingEngine D R G) : Grows e e [] :=
  ⟨fun _ hs => absurd hs List.not_mem_nil, fun _ _ => rfl⟩

/-- More slices, of requests not in the batch before. -/
theorem Grows.append {e₁ e₂ e₃ : ContinuousBatchingEngine D R G} {new new' : List Slice}
    (h : Grows e₁ e₂ new) (h' : Grows e₂ e₃ new') (hns : ∀ s ∈ new', ¬Sliced new s.req) :
    Grows e₁ e₃ (new ++ new') := by
  refine ⟨fun s hs t ht => ?_, fun r hr => ?_⟩
  · rcases List.mem_append.1 hs with hs | hs
    · exact h.starts s hs t ht
    · exact h'.starts s hs t ((h.same _ (hns s hs)).trans ht)
  · refine (h'.same r ?_).trans (h.same r ?_)
    · rintro ⟨s, hs, rfl⟩
      exact hr ⟨s, List.mem_append_right _ hs, rfl⟩
    · rintro ⟨s, hs, rfl⟩
      exact hr ⟨s, List.mem_append_left _ hs, rfl⟩

theorem Grows.cons {e₁ e₂ e₃ : ContinuousBatchingEngine D R G} {s : Slice} {new : List Slice}
    (h : Grows e₁ e₂ [s]) (h' : Grows e₂ e₃ new) (hns : ¬Sliced new s.req) :
    Grows e₁ e₃ (s :: new) := by
  refine h.append h' ?_
  rintro s' hs' ⟨s'', hs'', heq⟩
  obtain rfl := List.mem_singleton.1 hs''
  exact hns ⟨s', hs', heq.symm⟩

/-- An action that gives `r` its slice. -/
theorem Acts.grows {e e' : ContinuousBatchingEngine D R G} {s : Slice} (h : Acts e e' s.req)
    (hs : ∀ t, e.cache.manager.tables.lookup s.req = some t → s.start = t.numTokens) :
    Grows e e' [s] := by
  refine ⟨fun s' hs' => ?_, fun r hr => h.touches.others r ?_⟩
  · obtain rfl := List.mem_singleton.1 hs'
    exact hs
  · rintro rfl
    exact hr ⟨s, List.mem_singleton_self _, rfl⟩

/-- An action on one request moves no other to or from a block boundary. -/
theorem onBoundary_of_acts {e e' : ContinuousBatchingEngine D R G} {r r' : ℕ} (h : Acts e e' r)
    (hne : r' ≠ r) : e'.onBoundary r' = e.onBoundary r' := by
  unfold onBoundary
  rw [h.touches.others r' hne, show e'.cache.blockSize = e.cache.blockSize from h.touches.blockSize]

variable [Zero D] [Add X] {T : Transformer X D R} {base : ℕ → BaseKV D}
  {e : ContinuousBatchingEngine D R G} {sl : List Slice} {b : Batch} {r : ℕ}

/-! ### Phase 1 -/

/-- **A running request in the batch.**  On a block boundary with no free block the loop
raises; otherwise the request gets the slot of its next position. -/
theorem decode_one (h : Inv T base e sl []) (hr : r ∈ e.running) (hns : ¬Sliced sl r)
    (hd : Describes base e.tokensOf e.cache.blockSize b sl) (hb : 1 ≤ b.budget) (rs : List ℕ) :
    (e.onBoundary r = true ∧ e.cache.manager.freeList = [] ∧
      ∃ msg, e.decodeLoop b (r :: rs) = (.error (.OutOfBlocksError msg), e, b)) ∨
    ∃ e₁ b₁ s, e.decodeLoop b (r :: rs) = e₁.decodeLoop b₁ rs ∧ Inv T base e₁ (sl ++ [s]) [] ∧
      Describes base e₁.tokensOf e₁.cache.blockSize b₁ (sl ++ [s]) ∧
      s.req = r ∧ s.len = 1 ∧ s.sampled = true ∧ Acts e e₁ r ∧ Scheduled e e₁ ∧ Grows e e₁ [s] ∧
      e₁.waiting = e.waiting ∧ e₁.prefilling = e.prefilling ∧ e₁.running = e.running ∧
      e₁.req = e.req ∧ b₁.budget = b.budget - 1 ∧ b₁.imports = b.imports ∧
      e.cache.manager.freeList.length =
        e₁.cache.manager.freeList.length + if e.onBoundary r then 1 else 0 := by
  have hbs := h.blockSize_pos
  obtain ⟨hprompt, hlive, -, t, ht, hexact, -, hcount⟩ := (h.each r).running hr
  obtain ⟨hout, hnum⟩ := hcount hns
  obtain ⟨hstate, hopen⟩ := hlive List.not_mem_nil
  have hstored := (h.each r).stored t ht hns
  have hbound : e.onBoundary r = decide (t.numTokens % e.cache.manager.blockSize = 0) := by
    unfold onBoundary
    rw [ht]
    rfl
  have htable : e.cache.manager.blockTable r = .ok t := by
    unfold BlockManager.blockTable
    rw [ht]
  rcases BlockManager.appendToken_spec h.accounted hbs ht with
    ⟨h0, hnil, heq⟩ | ⟨new, blk, m, heq, hext, hnew, hblk, hacc⟩
  · refine Or.inl ⟨by rw [hbound, h0]; rfl, hnil, "block pool exhausted", ?_⟩
    rw [decodeLoop, if_neg (by omega), htable]
    simp only [heq]
    rfl
  right
  obtain ⟨o, ho⟩ : ∃ o, (e.req r).outputIds.getLast? = some o := by
    cases hl : (e.req r).outputIds.getLast? with
    | none => exact absurd (List.getLast?_eq_none_iff.1 hl) hout
    | some o => exact ⟨o, rfl⟩
  have ho' : str (e.req r).tokens t.numTokens = o := by
    have hlast : (e.req r).tokens.getLast? = some o := by
      rw [Request.tokens, List.getLast?_append, ho]
      rfl
    rw [List.getLast?_eq_getElem?, ← hnum, Nat.add_sub_cancel] at hlast
    rw [str, List.getD_eq_getElem?_getD, hlast]
    rfl
  set s : Slice := ⟨r, t.blockIds ++ new, t.numTokens, 1, true⟩ with hs
  set e₁ : ContinuousBatchingEngine D R G :=
    { e.setManager m with numDecodeTokens := e.numDecodeTokens + 1 } with he₁
  have hmbs : e₁.cache.blockSize = e.cache.blockSize := hext.blockSize
  have hacts : Acts e e₁ r :=
    ⟨fun _ => .refl _, fun _ _ => ⟨rfl, Iff.rfl, Iff.rfl, Iff.rfl⟩, rfl, rfl, rfl, rfl, rfl, rfl, rfl,
      hext.toTouches, fun _ _ _ _ _ _ _ => rfl⟩
  have hstored₁ : Stored T base e₁ r (t.blockIds ++ new) t.numTokens := by
    refine ⟨fun i hi p hp => ?_, hstored.computed⟩
    rw [hmbs, Paging.slotAt_append hbs new (hp.trans_le (h.accounted.capacity r t ht))]
    exact hstored.holds i hi p hp
  set b₁ : Batch := { b with
    tokenIds := b.tokenIds ++ [o]
    positions := b.positions ++ [t.numTokens]
    writeSlots := b.writeSlots ++ [blk * e.cache.blockSize + t.numTokens % e.cache.blockSize]
    seqMeta := b.seqMeta ++ [⟨t.blockIds ++ new, 1, t.numTokens + 1⟩]
    cursor := b.cursor + 1
    lastIdx := b.lastIdx ++ [((b.cursor + 1 : ℕ) : ℤ) - 1]
    batch := b.batch ++ [r]
    budget := b.budget - 1 } with hb₁
  refine ⟨e₁, b₁, s, ?_, ?_, ?_, rfl, rfl, rfl, hacts, hacts.scheduled id ?_, hacts.grows ?_, rfl, rfl,
    rfl, rfl, rfl, rfl, ?_⟩
  · rw [decodeLoop, if_neg (by omega), htable]
    simp only [heq, ho, BlockManager.blockTable, hext.table]
    rfl
  · refine h.join hacts hns hacc (h.disjoint.extends h.accounted hext (Or.inr ⟨t, ht, rfl⟩)) (.refl _)
      hext.table hstored₁ (Or.inr ⟨hr, rfl, ?_⟩)
    refine ⟨hprompt, fun _ => ⟨hstate, hopen⟩, False.elim, _, hext.table, ?_, fun _ => hnum,
      fun hm => absurd trivial hm⟩
    show (t.blockIds ++ new).length = m.blocksNeeded (t.numTokens + 1)
    rw [List.length_append, hexact, hnew, BlockManager.blocksNeeded_congr hext.blockSize,
      BlockManager.blocksNeeded_succ _ hbs]
  · rw [hmbs]
    refine hd.snoc s rfl ?_ rfl ?_ rfl rfl rfl
    · show _ ++ [o] = _ ++ [str (e.req r).tokens t.numTokens]
      rw [ho']
    · exact congrArg (fun slot => b.writeSlots ++ [slot]) (Paging.slotAt_of_getElem? hblk).symm
  · rintro t' ht'
    obtain rfl := Option.some.inj (ht.symm.trans ht')
    exact ⟨_, hext.table, List.prefix_append _ _, Nat.le_succ _⟩
  · rintro t' ht'
    obtain rfl := Option.some.inj (ht.symm.trans ht')
    rfl
  · have hlen := congrArg List.length hext.freeList
    rw [List.length_append, List.length_reverse, hnew] at hlen
    rw [hbound, hlen]
    simp only [decide_eq_true_eq]
    rfl

/-- **Phase 1** takes the leading running requests within the budget.  It raises
`OutOfBlocksError` iff more of them stand on a block boundary than blocks are free. -/
theorem decodeLoop_spec (rs : List ℕ) {e : ContinuousBatchingEngine D R G} {sl : List Slice} {b : Batch}
    (h : Inv T base e sl []) (hn : rs.Nodup) (hrs : ∀ r ∈ rs, r ∈ e.running ∧ ¬Sliced sl r)
    (hd : Describes base e.tokensOf e.cache.blockSize b sl) :
    (e.cache.manager.freeList.length < (rs.take b.budget).countP e.onBoundary ∧
      ∃ msg e' b', e.decodeLoop b rs = (.error (.OutOfBlocksError msg), e', b')) ∨
    (rs.take b.budget).countP e.onBoundary ≤ e.cache.manager.freeList.length ∧
    ∃ e' b' new, e.decodeLoop b rs = (.ok (), e', b') ∧ Inv T base e' (sl ++ new) [] ∧
      Describes base e'.tokensOf e'.cache.blockSize b' (sl ++ new) ∧
      new.map Slice.req = rs.take b.budget ∧ (∀ s ∈ new, s.len = 1 ∧ s.sampled = true) ∧
      Scheduled e e' ∧ Grows e e' new ∧ e'.waiting = e.waiting ∧ e'.prefilling = e.prefilling ∧
      e'.running = e.running ∧ e'.req = e.req ∧ b'.budget = b.budget - rs.length ∧
      b'.imports = b.imports ∧ e.cache.manager.freeList.length =
        e'.cache.manager.freeList.length + (rs.take b.budget).countP e.onBoundary := by
  induction rs generalizing e sl b with
  | nil =>
    refine Or.inr ⟨by simp, e, b, [], rfl, ?_, ?_, by simp, by simp, .refl e, .nil e, rfl, rfl, rfl,
      rfl, rfl, rfl, by simp⟩
    · rwa [List.append_nil]
    · rwa [List.append_nil]
  | cons r rs ih =>
    rcases Nat.eq_zero_or_pos b.budget with h0 | hpos
    · refine Or.inr ⟨by simp [h0], e, b, [], ?_, ?_, ?_, by simp [h0], by simp, .refl e,
        .nil e, rfl, rfl, rfl, rfl, by omega, rfl, by simp [h0]⟩
      · rw [decodeLoop, if_pos (by omega)]
      · rwa [List.append_nil]
      · rwa [List.append_nil]
    obtain ⟨k, hk⟩ := Nat.exists_eq_succ_of_ne_zero hpos.ne'
    have hcount : ((r :: rs).take b.budget).countP e.onBoundary =
        (rs.take k).countP e.onBoundary + if e.onBoundary r then 1 else 0 := by
      rw [hk, Nat.succ_eq_add_one, List.take_succ_cons, List.countP_cons]
    obtain ⟨hr, hns⟩ := hrs r List.mem_cons_self
    rw [List.nodup_cons] at hn
    rcases decode_one h hr hns hd hpos rs with ⟨hbound, hnil, msg, heq⟩ |
      ⟨e₁, b₁, s, heq, hinv, hd₁, hreq, hlen, hsam, hacts, hsched, hgrow, hw, hp, hrun, hq, hbud, himp,
        hfree⟩
    · refine Or.inl ⟨?_, msg, e, b, heq⟩
      rw [hcount, hbound, hnil, if_pos rfl, List.length_nil]
      omega
    have hbk : b₁.budget = k := by omega
    have hsame : (rs.take k).countP e₁.onBoundary = (rs.take k).countP e.onBoundary := by
      refine List.countP_congr fun r' hr' => ?_
      have hne : r' ≠ r := by
        rintro rfl
        exact hn.1 (List.mem_of_mem_take hr')
      rw [onBoundary_of_acts hacts hne]
    have hnext : ∀ r' ∈ rs, r' ∈ e₁.running ∧ ¬Sliced (sl ++ [s]) r' := by
      intro r' hr'
      obtain ⟨hrun', hns'⟩ := hrs r' (List.mem_cons_of_mem _ hr')
      refine ⟨hrun.symm ▸ hrun', ?_⟩
      rintro ⟨s', hs', heq'⟩
      have hne : r' ≠ r := by
        rintro rfl
        exact hn.1 hr'
      exact hns' ⟨s', (mem_snoc_of_ne hreq hne s' heq').1 hs', heq'⟩
    rcases ih hinv hn.2 hnext hd₁ with ⟨hshort, msg, e', b', heq'⟩ |
      ⟨henough, e', b', new, heq', hinv', hd', hnew, hone, hsched', hgrow', hw', hp', hrun', hq', hbud',
        himp', hfree'⟩
    · refine Or.inl ⟨?_, msg, e', b', heq.trans heq'⟩
      rw [hbk, hsame] at hshort
      rw [hcount, hfree]
      omega
    · refine Or.inr ⟨?_, e', b', s :: new, heq.trans heq', ?_, ?_, ?_, fun s' hs' => ?_,
        hsched.trans hsched', hgrow.cons hgrow' ?_, hw'.trans hw, hp'.trans hp, hrun'.trans hrun,
        hq'.trans hq, ?_,
        himp'.trans himp, ?_⟩
      · rw [hbk, hsame] at henough
        rw [hcount, hfree]
        omega
      · rwa [List.append_assoc] at hinv'
      · rwa [List.append_assoc] at hd'
      · rw [List.map_cons, hreq, hnew, hbk, hk, Nat.succ_eq_add_one, List.take_succ_cons]
      · rcases List.mem_cons.1 hs' with rfl | hs'
        · exact ⟨hlen, hsam⟩
        · exact hone s' hs'
      · rintro ⟨s', hs', heq''⟩
        refine hn.1 (List.mem_of_mem_take (i := b₁.budget) ?_)
        rw [← hnew, ← hreq, ← heq'']
        exact List.mem_map_of_mem hs'
      · rw [hbud', hbud, List.length_cons]
        omega
      · rw [hbk, hsame] at hfree'
        rw [hcount, hfree]
        omega

end ContinuousBatchingEngine
end DiSpec
