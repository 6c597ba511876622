/-
# No step writes a slot of another request

The slots of a batch come from `append_token`, from `slots_for_positions` and, at
admission, from `import_contiguous`.  `Recorded` ties the record of all these writes to
the block tables: the table of a request lists exactly the slots written for it, position
by position.  It holds along every run (`scheduler_writes_own_slots`), so what a
`SeqMeta` makes the forward read is what was written for that request, and nobody else
has written there.
-/

import DiSpec.Sched.Run

namespace DiSpec
namespace ContinuousBatchingEngine

variable {X D R G : Type}

/-! ### The record of one batch -/

/-- The writes of a slice. -/
def sliceWrites (bs : ℕ) (s : Slice) : List (ℕ × ℕ × ℕ) :=
  (List.range' s.start s.len).map fun p => (s.req, p, Paging.slotAt bs s.blockIds p)

/-- The record of a batch is that of its slices. -/
theorem writes_eq {base : ℕ → BaseKV D} {tok : ℕ → ℕ → ℕ} {bs : ℕ} {b : Batch} {sl : List Slice}
    (h : Describes base tok bs b sl) : b.writes = sl.flatMap (sliceWrites bs) := by
  rw [Batch.writes, Batch.owners, h.batch, h.seqMeta, h.positions, h.writeSlots]
  clear h
  induction sl with
  | nil => rfl
  | cons s sl ih =>
    have hlen : (List.replicate s.len s.req).length =
        ((List.range' s.start s.len).zip
          ((List.range' s.start s.len).map (Paging.slotAt bs s.blockIds))).length := by simp
    have hpos : Segment.positions ((s :: sl).map (Slice.segment base tok)) =
        List.range' s.start s.len ++ Segment.positions (sl.map (Slice.segment base tok)) := by
      rw [Segment.positions, List.map_cons, Segment.entries_cons, List.map_append, List.map_map]
      exact congrArg (· ++ _) (List.map_id _)
    have hslots : Segment.slots bs ((s :: sl).map (Slice.segment base tok)) =
        (List.range' s.start s.len).map (Paging.slotAt bs s.blockIds) ++
          Segment.slots bs (sl.map (Slice.segment base tok)) := by
      rw [Segment.slots, List.map_cons, Segment.entries_cons, List.map_append, List.map_map]
      rfl
    rw [hpos, hslots, List.zip_append (by simp), List.flatMap_cons, ← ih, List.map_cons, List.map_cons,
      List.map_cons, List.zip_cons_cons, List.flatMap_cons]
    refine (List.zip_append hlen).trans (congrArg (· ++ _) ?_)
    rw [sliceWrites]
    refine List.ext_getElem (by simp) fun i h₁ h₂ => ?_
    simp

theorem owners_length {base : ℕ → BaseKV D} {tok : ℕ → ℕ → ℕ} {bs : ℕ} {b : Batch} {sl : List Slice}
    (h : Describes base tok bs b sl) : b.owners.length = b.positions.length := by
  rw [Batch.owners, h.batch, h.seqMeta, h.positions]
  clear h
  induction sl with
  | nil => rfl
  | cons s sl ih =>
    rw [List.map_cons, List.map_cons, List.map_cons, List.zip_cons_cons, List.flatMap_cons,
      List.length_append, ih, Segment.positions, Segment.positions, Segment.entries_cons, List.map_append,
      List.length_append, List.length_replicate, List.length_map, List.length_map, List.length_map,
      List.length_range']
    rfl

theorem mem_writes {base : ℕ → BaseKV D} {tok : ℕ → ℕ → ℕ} {bs : ℕ} {b : Batch} {sl : List Slice}
    (h : Describes base tok bs b sl) {r p slot : ℕ} : (r, p, slot) ∈ b.writes ↔
      ∃ s ∈ sl, s.req = r ∧ s.start ≤ p ∧ p < s.start + s.len ∧ slot = Paging.slotAt bs s.blockIds p := by
  rw [writes_eq h, List.mem_flatMap]
  constructor
  · rintro ⟨s, hs, hw⟩
    obtain ⟨q, hq, heq⟩ := List.mem_map.1 hw
    cases heq
    exact ⟨s, hs, rfl, (List.mem_range'_1.1 hq).1, (List.mem_range'_1.1 hq).2, rfl⟩
  · rintro ⟨s, hs, rfl, hlo, hhi, rfl⟩
    exact ⟨s, hs, List.mem_map.2 ⟨p, List.mem_range'_1.2 ⟨hlo, hhi⟩, rfl⟩⟩

/-! ### The record of a run -/

/-- The record of all writes and the tables agree: the table of a request lists the slots
written for it, and nothing was written for a request without a table that is yet to come. -/
structure Recorded (e : ContinuousBatchingEngine D R G) (hist : List (ℕ × ℕ × ℕ)) : Prop where
  stored : ∀ r t, e.cache.manager.tables.lookup r = some t → ∀ p slot,
    (r, p, slot) ∈ hist ↔ p < t.numTokens ∧ slot = Paging.slotAt e.cache.blockSize t.blockIds p
  fresh : ∀ r, r ∈ e.waiting ∨ e.nextId ≤ r → ∀ p slot, (r, p, slot) ∉ hist

variable [Zero D] [Add X] {T : Transformer X D R} {base : ℕ → BaseKV D}
  {e e₁ e' : ContinuousBatchingEngine D R G} {b : Batch} {sl : List Slice} {hist : List (ℕ × ℕ × ℕ)}

/-- A request that phases 1 and 2 leave waiting was waiting before. -/
theorem waiting_of_scheduled (h : Inv T base e [] []) (h₁ : Inv T base e₁ sl []) (hs : Scheduled e e₁)
    {r : ℕ} (hr : r ∈ e₁.waiting) : r ∈ e.waiting := by
  obtain ⟨hnp, hnr, hnf⟩ := h₁.only_waiting hr
  have hnone := (h₁.each r).noTable hnp hnr
  have hno : ∀ t, e.cache.manager.tables.lookup r ≠ some t := fun t ht => by
    obtain ⟨t', ht', -⟩ := hs.tables r t ht
    exact absurd (hnone.symm.trans ht') (by simp)
  have hmem : r ∈ e.waiting ++ e.prefilling ++ e.running ++ e.finished := by
    rw [h.created, ← hs.nextId]
    exact (h₁.created r).1 (by simp [hr])
  simp only [List.mem_append] at hmem
  rcases hmem with ((hw | hp) | hrun) | hf
  · exact hw
  · obtain ⟨-, -, -, t, ht, -⟩ := (h.each r).prefilling hp
    exact absurd ht (hno t)
  · obtain ⟨-, -, -, t, ht, -⟩ := (h.each r).running hrun
    exact absurd ht (hno t)
  · exact absurd (hs.finished ▸ hf) hnf

/-- A request in the batch that was not waiting had a table. -/
theorem table_of_sliced (h : Inv T base e [] []) (h₁ : Inv T base e₁ sl []) (hs : Scheduled e e₁)
    {s : Slice} (hmem : s ∈ sl) (hw : s.req ∉ e.waiting) :
    ∃ t, e.cache.manager.tables.lookup s.req = some t := by
  obtain ⟨hq, -⟩ := (h₁.each s.req).slice s hmem rfl
  have hnf : s.req ∉ e.finished := by
    rw [← hs.finished]
    exact hq.elim (fun hp => (h₁.only_prefilling hp).2.2) fun hr => (h₁.only_running hr).2.2
  have hall : s.req ∈ e.waiting ++ e.prefilling ++ e.running ++ e.finished := by
    rw [h.created, ← hs.nextId]
    refine (h₁.created _).1 ?_
    simp only [List.mem_append]
    tauto
  simp only [List.mem_append] at hall
  rcases hall with ((hw' | hp) | hr) | hf
  · exact absurd hw' hw
  · obtain ⟨-, -, -, t, ht, -⟩ := (h.each _).prefilling hp
    exact ⟨t, ht⟩
  · obtain ⟨-, -, -, t, ht, -⟩ := (h.each _).running hr
    exact ⟨t, ht⟩
  · exact absurd hf hnf

/-- **Phases 1 and 2 keep the record**, the new writes included. -/
theorem Recorded.schedule (h : Recorded e hist) (hinv : Inv T base e [] []) (hinv₁ : Inv T base e₁ sl [])
    (hd : Describes base e₁.tokensOf e₁.cache.blockSize b sl) (hs : Scheduled e e₁) (hg : Grows e e₁ sl)
    (himp : Imported e sl b.imports) : Recorded e₁ (hist ++ (b.imports ++ b.writes)) := by
  have hbs : e₁.cache.blockSize = e.cache.blockSize := hs.blockSize
  have honly : ∀ s ∈ sl, ∀ s' ∈ sl, s'.req = s.req → s' = s := fun s hm s' hm' heq =>
    List.inj_on_of_nodup_map hinv₁.slices_nodup hm' hm heq
  constructor
  · intro r t ht p slot
    rw [List.mem_append, List.mem_append, himp, mem_writes hd, hbs]
    by_cases hsl : Sliced sl r
    · obtain ⟨s, hm, rfl⟩ := hsl
      obtain rfl := Option.some.inj ((hinv₁.slice_table hm).symm.trans ht)
      show _ ↔ p < s.start + s.len ∧ slot = Paging.slotAt e.cache.blockSize s.blockIds p
      have hold : ((s.req, p, slot) ∈ hist ∨ ∃ s' ∈ sl, s'.req ∈ e.waiting ∧ s.req = s'.req ∧ p < s'.start ∧
          slot = Paging.slotAt e.cache.blockSize s'.blockIds p) ↔
          p < s.start ∧ slot = Paging.slotAt e.cache.blockSize s.blockIds p := by
        by_cases hw : s.req ∈ e.waiting
        · -- admitted in this step: only its import was written
          constructor
          · rintro (hh | ⟨s', hm', -, heq, hlt, hslot⟩)
            · exact absurd hh (h.fresh _ (Or.inl hw) _ _)
            · obtain rfl := honly s hm s' hm' heq.symm
              exact ⟨hlt, hslot⟩
          · rintro ⟨hlt, hslot⟩
            exact Or.inr ⟨s, hm, hw, rfl, hlt, hslot⟩
        · -- admitted before: what its table counted was written
          obtain ⟨t, ht⟩ := table_of_sliced hinv hinv₁ hs hm hw
          obtain ⟨t', ht', ⟨more, hmore⟩, -⟩ := hs.tables _ t ht
          obtain rfl := Option.some.inj ((hinv₁.slice_table hm).symm.trans ht')
          have hmore : t.blockIds ++ more = s.blockIds := hmore
          have hcap := hinv.accounted.capacity _ t ht
          rw [h.stored _ t ht p slot, hg.starts s hm t ht]
          constructor
          · rintro (⟨hlt, hslot⟩ | ⟨s', hm', hw', heq, -⟩)
            · rw [← hmore, Paging.slotAt_append hinv.blockSize_pos _ (hlt.trans_le hcap)]
              exact ⟨hlt, hslot⟩
            · exact absurd (heq ▸ hw') hw
          · rintro ⟨hlt, hslot⟩
            rw [← hmore, Paging.slotAt_append hinv.blockSize_pos _ (hlt.trans_le hcap)] at hslot
            exact Or.inl ⟨hlt, hslot⟩
      rw [← or_assoc, hold]
      constructor
      · rintro (⟨hlt, hslot⟩ | ⟨s', hm', heq, -, hhi, hslot⟩)
        · exact ⟨by omega, hslot⟩
        · obtain rfl := honly s hm s' hm' heq
          exact ⟨hhi, hslot⟩
      · rintro ⟨hhi, hslot⟩
        rcases Nat.lt_or_ge p s.start with hlt | hge
        · exact Or.inl ⟨hlt, hslot⟩
        · exact Or.inr ⟨s, hm, rfl, hge, hhi, hslot⟩
    · rw [hg.same r hsl] at ht
      rw [← h.stored r t ht p slot]
      constructor
      · rintro (hh | ⟨s, hm, -, heq, -⟩ | ⟨s, hm, heq, -⟩)
        · exact hh
        · exact absurd ⟨s, hm, heq.symm⟩ hsl
        · exact absurd ⟨s, hm, heq⟩ hsl
      · exact Or.inl
  · intro r hr p slot
    have hsl : ¬Sliced sl r := by
      rintro ⟨s, hm, rfl⟩
      obtain ⟨hq, -⟩ := (hinv₁.each s.req).slice s hm rfl
      rcases hr with hw | hge
      · exact hq.elim (hinv₁.only_waiting hw).1 (hinv₁.only_waiting hw).2.1
      · have hlt := (hinv₁.created s.req).1 (by simp only [List.mem_append]; tauto)
        omega
    have hold : r ∈ e.waiting ∨ e.nextId ≤ r :=
      hr.imp (waiting_of_scheduled hinv hinv₁ hs) fun hge => hs.nextId ▸ hge
    rw [List.mem_append, List.mem_append, himp, mem_writes hd]
    rintro (hh | ⟨s, hm, -, heq, -⟩ | ⟨s, hm, heq, -⟩)
    · exact h.fresh r hold p slot hh
    · exact hsl ⟨s, hm, heq.symm⟩
    · exact hsl ⟨s, hm, heq⟩

omit [Zero D] in
/-- Phases 3 to 5 write nothing but the batch. -/
theorem Recorded.execute (h : Recorded e hist) {drawn : List (ℕ × ℕ)} (hex : Executed e e' drawn) :
    Recorded e' hist := by
  have hbs : e'.cache.blockSize = e.cache.blockSize := hex.blockSize
  refine ⟨fun r t ht p slot => ?_, fun r hr => h.fresh r ?_⟩
  · rw [hbs]
    exact h.stored r t (hex.tables r t ht) p slot
  · rwa [hex.waiting, hex.nextId] at hr

omit [Zero D] in
/-- A submission writes nothing. -/
theorem Recorded.submit (h : Recorded e hist) {s : Submission D R} {r : ℕ}
    (heq : e.addRequest s = (.ok r, e')) : Recorded e' hist := by
  rcases addRequest_spec e s with ⟨msg, herr⟩ | ⟨hok, -⟩
  · rw [herr] at heq
    cases heq
  obtain rfl := (Prod.mk.inj (hok.symm.trans heq)).2
  refine ⟨h.stored, fun r hr => h.fresh r ?_⟩
  rcases hr with hw | hge
  · rcases List.mem_append.1 hw with hw | hw
    · exact Or.inl hw
    · exact Or.inr (List.mem_singleton.1 hw).ge
  · exact Or.inr (Nat.le_of_succ_le hge)

variable [Field R] [LinearOrder R]

/-- **Along every run the tables list what was written.** -/
theorem recorded_of_run {torch : Torch R} {src : Source R G} {numBlocks blockSize : ℕ} (hbs : 1 ≤ blockSize)
    {maxBatchTokens : ℕ} {chunkSize : Option ℕ} {rng : G} {cs : List (Call D R)}
    (hprompt : ∀ s ∈ submissions cs, s.promptIds ≠ [])
    (hrun : calls torch src T.runner (init T numBlocks blockSize maxBatchTokens chunkSize rng) cs = .ok e) :
    After T numBlocks blockSize (submissions cs) e ∧
      Recorded e
        (history torch src T.runner (init T numBlocks blockSize maxBatchTokens chunkSize rng) cs) := by
  refine calls_induction (P := fun subs hist e => After T numBlocks blockSize subs e ∧ Recorded e hist)
    (S := fun _ => True) [] [] ?_ ?_ ?_ hprompt (fun _ _ _ _ _ => trivial) hrun
  · rintro subs hist e s r e' ⟨hafter, hrec⟩ hs heq
    exact ⟨hafter.submit hs heq, hrec.submit heq⟩
  · rintro subs hist e e' ⟨hafter, hrec⟩ - heq
    obtain ⟨e₁, b, sl, hstep⟩ := hafter.stepRun heq (basesOf subs) fun r s hs => by rw [basesOf, hs]
    refine ⟨hafter.step heq, ?_⟩
    rw [written, hstep.schedule]
    exact (hrec.schedule hafter.invOf hstep.mid hstep.describes hstep.scheduled hstep.grows
      hstep.imported).execute hstep.executed
  · refine ⟨.init T numBlocks hbs maxBatchTokens chunkSize rng, fun r t ht => ?_,
      fun _ _ _ _ => List.not_mem_nil⟩
    cases ht

end ContinuousBatchingEngine

open ContinuousBatchingEngine

variable {X D R G : Type} [Zero D] [Add X] [Field R] [LinearOrder R]

/-- **No step of the scheduler writes a slot that belongs to anyone else.**  After any run of
submissions and steps that raised nothing, let the next step collect the batch `b` and
leave the engine at `e₁` before its forward.  The slots the forward is to write are
pairwise distinct and in the pool; each is the slot of the position recorded for its
token in the table of its own request; neither they nor those written at admission are
slots of the stored context of another request; and the slots a `SeqMeta` makes the
forward read are, position by position, those written for its request in the whole run,
by import or in this step. -/
theorem scheduler_writes_own_slots (torch : Torch R) (src : Source R G) (T : Transformer X D R)
    {numBlocks blockSize : ℕ} (hbs : 1 ≤ blockSize) (maxBatchTokens : ℕ) (chunkSize : Option ℕ) (rng : G)
    (cs : List (Call D R)) (hprompt : ∀ s ∈ submissions cs, s.promptIds ≠ [])
    {e e₁ : ContinuousBatchingEngine D R G} {b : Batch}
    (hrun : calls torch src T.runner (init T numBlocks blockSize maxBatchTokens chunkSize rng) cs = .ok e)
    (hsched : e.schedule = (.ok (), e₁, b)) :
    let hist := history torch src T.runner (init T numBlocks blockSize maxBatchTokens chunkSize rng) cs
    b.writeSlots.Nodup ∧ (∀ slot ∈ b.writeSlots, slot < numBlocks * blockSize) ∧
    b.writes.map (fun w => w.2) = b.positions.zip b.writeSlots ∧
    (∀ r p slot, (r, p, slot) ∈ b.writes → ∃ t blk off, e₁.cache.manager.blockTable r = .ok t ∧
      t.slot blockSize p = .ok (blk, off) ∧ slot = blk * blockSize + off) ∧
    (∀ r p slot, (r, p, slot) ∈ b.imports ++ b.writes → ∀ r' t', r' ≠ r →
      e₁.cache.manager.blockTable r' = .ok t' → ∀ p' < t'.numTokens, ∀ blk off,
        t'.slot blockSize p' = .ok (blk, off) → slot ≠ blk * blockSize + off) ∧
    b.seqMeta.length = b.batch.length ∧
    ∀ (i r : ℕ) info, b.batch[i]? = some r → b.seqMeta[i]? = some info →
      ∃ slots, e₁.cache.contextSlots info.blockIds info.ctxLen = .ok slots ∧
        ∀ (p slot : ℕ), slots[p]? = some slot ↔ (r, p, slot) ∈ hist ++ (b.imports ++ b.writes) := by
  intro hist
  obtain ⟨hafter, hrec⟩ := recorded_of_run hbs hprompt hrun
  have hinv := hafter.invOf
  rcases schedule_spec hinv with ⟨-, msg, e', b', herr⟩ |
    ⟨-, e', b', sl, heq, hinv₁, hd, -, -, hs, hg, himp, -⟩
  · rw [herr] at hsched
    cases hsched
  obtain ⟨rfl, rfl⟩ := Prod.mk.inj (Prod.mk.inj (hsched.symm.trans heq)).2
  have hrec₁ := hrec.schedule hinv hinv₁ hd hs hg himp
  have hsize : e₁.cache.blockSize = blockSize := hs.blockSize.trans hafter.blockSize
  have hnum : e₁.cache.manager.numBlocks = numBlocks := hs.numBlocks.trans hafter.numBlocks
  have hlook : ∀ r t, e₁.cache.manager.blockTable r = .ok t ↔ e₁.cache.manager.tables.lookup r = some t := by
    intro r t
    unfold BlockManager.blockTable
    cases e₁.cache.manager.tables.lookup r <;> simp
  -- the slot of a stored position, as `BlockTable.slot` gives it
  have hslot : ∀ r t, e₁.cache.manager.tables.lookup r = some t → ∀ p < t.numTokens,
      ∃ blk, t.slot blockSize p = .ok (blk, p % blockSize) ∧
        Paging.slotAt blockSize t.blockIds p = blk * blockSize + p % blockSize := by
    intro r t ht p hp
    have hroom := hp.trans_le (hinv₁.accounted.capacity r t ht)
    rw [show e₁.cache.manager.blockSize = blockSize from hsize] at hroom
    obtain ⟨blk, hblk, hget⟩ := BlockManager.slot_spec hbs hroom
    exact ⟨blk, hget, Paging.slotAt_of_getElem? hblk⟩
  have hmem : ∀ r p slot, (r, p, slot) ∈ b.imports ++ b.writes → ∃ t,
      e₁.cache.manager.tables.lookup r = some t ∧ p < t.numTokens ∧
        slot = Paging.slotAt blockSize t.blockIds p := by
    intro r p slot hw
    have hsl : Sliced sl r := by
      rw [List.mem_append, himp, mem_writes hd] at hw
      rcases hw with ⟨s, hm, -, heq, -⟩ | ⟨s, hm, heq, -⟩
      · exact ⟨s, hm, heq.symm⟩
      · exact ⟨s, hm, heq⟩
    obtain ⟨s, hm, rfl⟩ := hsl
    have := (hrec₁.stored _ _ (hinv₁.slice_table hm) p slot).1 (List.mem_append_right _ hw)
    rw [hsize] at this
    exact ⟨_, hinv₁.slice_table hm, this⟩
  refine ⟨?_, fun slot hw => ?_, ?_, fun r p slot hw => ?_,
    fun r p slot hw r' t' hne ht' p' hp' blk off hget => ?_, ?_, fun i r info hr hi => ?_⟩
  · rw [hd.writeSlots]
    exact hinv₁.slots_nodup _
  · rw [hd.writeSlots] at hw
    obtain ⟨s, hm, p, -, hhi, rfl⟩ := mem_batch_slots.1 hw
    have := Paging.slotAt_lt hinv₁.blockSize_pos (hinv₁.accounted.block_lt (hinv₁.slice_table hm))
      (hhi.trans_le (hinv₁.slice_room hm))
    rw [hsize, hnum] at this
    rwa [hsize]
  · refine List.map_snd_zip ?_
    rw [owners_length hd, List.length_zip]
    exact min_le_left _ _
  · obtain ⟨t, ht, hp, rfl⟩ := hmem r p slot (List.mem_append_right _ hw)
    obtain ⟨blk, hget, heq⟩ := hslot r t ht p hp
    exact ⟨t, blk, _, (hlook r t).2 ht, hget, heq⟩
  · obtain ⟨t, ht, hp, rfl⟩ := hmem r p slot hw
    rw [hlook] at ht'
    obtain ⟨blk', hget', heq'⟩ := hslot r' t' ht' p' hp'
    obtain ⟨rfl, rfl⟩ := Prod.mk.inj (Except.ok.inj (hget'.symm.trans hget))
    rw [← heq', ← hsize]
    exact hinv₁.slot_ne (Ne.symm hne) ht ht' hp hp'
  · rw [hd.seqMeta, hd.batch, List.length_map, List.length_map, List.length_map]
  · rw [hd.batch, List.getElem?_map] at hr
    rw [hd.seqMeta, List.getElem?_map, List.getElem?_map] at hi
    obtain ⟨s, hget, rfl⟩ := Option.map_eq_some_iff.1 hr
    rw [hget] at hi
    obtain rfl := Option.some.inj hi
    have hm := List.mem_of_getElem? hget
    refine ⟨_, e₁.cache.contextSlots_spec hinv₁.blockSize_pos (hinv₁.slice_room hm), fun p slot => ?_⟩
    rw [hrec₁.stored _ _ (hinv₁.slice_table hm) p slot, List.getElem?_map]
    show (List.range (s.start + s.len))[p]?.map (Paging.slotAt e₁.cache.blockSize s.blockIds) = some slot ↔
      p < s.start + s.len ∧ slot = Paging.slotAt e₁.cache.blockSize s.blockIds p
    rcases Nat.lt_or_ge p (s.start + s.len) with hlt | hge
    · rw [List.getElem?_range hlt]
      exact ⟨fun h => ⟨hlt, (Option.some.inj h).symm⟩, fun h => congrArg some h.2.symm⟩
    · rw [List.getElem?_eq_none (by simpa using hge)]
      exact iff_of_false (by simp) fun h => absurd h.1 (not_lt.2 hge)

/-- The hypotheses are satisfiable: one request decodes while another is admitted with the KV
of its first token. -/
theorem scheduler_writes_own_slots_import :
    let torch : Torch ℚ := ⟨id, fun _ => []⟩
    let src : Source ℚ Unit := ⟨fun g => (0, g), fun _ g => (0, g)⟩
    let kv : KVTensor ℤ := ⟨1, 1, 1, 1, fun _ _ => [5]⟩
    let e₁ := ((init sumModel 8 2 8 none () : ContinuousBatchingEngine ℤ ℚ Unit).addRequest
      ⟨[0, 1, 2], 4, .default, none, 0, none⟩).2
    let e := ((e₁.step torch src sumModel.runner).2.addRequest
      ⟨[1, 2], 3, .default, none, 0, some (kv, kv)⟩).2
    e.schedule.2.2.batch = [0, 1] ∧ e.schedule.2.2.imports = [(1, 0, 10)] ∧
      e.schedule.2.2.writeSlots = [13, 11] ∧ e.schedule.2.2.writeSlots.Nodup :=
  ⟨by decide +kernel, by decide +kernel, by decide +kernel,
    (scheduler_writes_own_slots ⟨id, fun _ => []⟩ ⟨fun g => (0, g), fun _ g => (0, g)⟩ sumModel (by decide)
      8 none () [.addRequest ⟨[0, 1, 2], 4, .default, none, 0, none⟩, .step,
        .addRequest ⟨[1, 2], 3, .default, none, 0,
          some (⟨1, 1, 1, 1, fun _ _ => [5]⟩, ⟨1, 1, 1, 1, fun _ _ => [5]⟩)⟩]
      (by simp [submissions])
      ((calls_addRequest (r := 0) (by decide +kernel) _).trans ((calls_step (by decide +kernel) _).trans
        (calls_addRequest (r := 1) (by decide +kernel) _)))
      (Prod.ext (by decide +kernel) rfl)).1⟩

end DiSpec
