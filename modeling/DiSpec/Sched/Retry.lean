/-
# What a step leaves behind when it runs out of blocks

Phase 1 of `step` reserves a slot for one running request after another, before the
forward.  When a reservation raises, those made before it stay: their tables count a
token that is never written.  So a step that raises `OutOfBlocksError` leaves the
engine as it was iff the very first running request is the one that finds no block
(`failing_step_unchanged_iff`).  In a run whose failing steps are all of this kind
every table counts exactly the tokens stored, and the next token of a request goes
right after them.
-/

import DiSpec.Sched.Exhaustion
import DiSpec.Sched.Outputs

namespace DiSpec

/-- `slots_for_positions` raises nothing but `IndexError`. -/
theorem PagedKVCache.slotsForPositions_raises {D : Type} (c : PagedKVCache D) (ids ps : List ℕ) (x : Exc)
    (h : c.slotsForPositions ids ps = .error x) : x = .IndexError := by
  induction ps with
  | nil => cases h
  | cons p ps ih =>
    rw [slotsForPositions] at h
    split at h
    · exact (Except.error.inj h).symm
    · split at h
      next e heq => exact ih (heq.trans h)
      · cases h

theorem PagedKVCache.slotsForList_raises {D : Type} (c : PagedKVCache D) (ids ps : List ℕ) (x : Exc)
    (h : c.slotsForList ids ps = .error x) : x = .IndexError := by
  unfold slotsForList at h
  split at h
  · exact (Except.error.inj h).symm
  · exact c.slotsForPositions_raises ids ps x h

theorem PagedKVCache.importContiguous_raises {D : Type} (c : PagedKVCache D) (ids : List ℕ) (k v : KVTensor D)
    (x : Exc) (h : (c.importContiguous ids k v).1 = .error x) : x.isOutOfBlocks = false := by
  have hassign : ∀ old slots (t : KVTensor D) e, c.assignSlots old slots t = .error e →
      e.isOutOfBlocks = false := by
    intro old slots t e he
    unfold assignSlots at he
    split at he
    · obtain rfl := Except.error.inj he
      rfl
    · split at he
      · cases he
      · obtain rfl := Except.error.inj he
        rfl
  unfold importContiguous at h
  split at h
  next e heq =>
    obtain rfl := Except.error.inj h
    rw [c.slotsForPositions_raises ids _ e heq]
    rfl
  · split at h
    next e heq =>
      obtain rfl := Except.error.inj h
      exact hassign _ _ _ e heq
    · split at h
      next e heq =>
        obtain rfl := Except.error.inj h
        exact hassign _ _ _ e heq
      · cases h

namespace Transformer

variable {X D R : Type} [Zero D] [Add X]

omit [Add X] in
theorem attend_raises (T : Transformer X D R) (c : PagedKVCache D) (layer : ℕ) (infos : List SeqMeta)
    (q : List (List D)) (kv : List (KV D)) (x : Exc) (h : T.attend c layer infos q kv = .error x) :
    x = .IndexError := by
  induction infos generalizing q kv with
  | nil => cases h
  | cons info infos ih =>
    rw [attend] at h
    split at h
    next e heq =>
      obtain rfl := Except.error.inj h
      unfold context at heq
      split at heq
      · cases heq
      · split at heq
        next e' heq' =>
          obtain rfl := Except.error.inj heq
          exact c.slotsForPositions_raises _ _ e' heq'
        · unfold PagedKVCache.gather at heq
          split at heq
          · cases heq
          · exact (Except.error.inj heq).symm
    · split at h
      next e heq => exact ih _ _ (heq.trans h)
      · cases h

/-- **The forward raises nothing but `IndexError`.** -/
theorem forward_raises (T : Transformer X D R) (tokenIds positions writeSlots : List ℕ)
    (seqMeta : List SeqMeta) (c : PagedKVCache D) (x : Exc)
    (h : (T.forward tokenIds positions writeSlots seqMeta c).1 = .error x) : x = .IndexError := by
  have hlayer : ∀ i rows (c : PagedKVCache D),
      (T.attention i rows positions writeSlots seqMeta c).1 = .error x → x = .IndexError := by
    intro i rows c hx
    unfold attention PagedKVCache.write at hx
    simp only at hx
    split at hx
    next e c' heq =>
      split at heq
      · cases heq
      · obtain rfl := Except.error.inj (Prod.mk.inj heq).1
        exact (Except.error.inj hx).symm
    · split at hx
      next e heq =>
        obtain rfl := Except.error.inj hx
        exact T.attend_raises _ i _ _ _ e heq
      · cases hx
  have hlayers : ∀ n i rows (c : PagedKVCache D),
      (T.layers positions writeSlots seqMeta i n rows c).1 = .error x → x = .IndexError := by
    intro n
    induction n with
    | zero =>
      intro i rows c hx
      cases hx
    | succ n ih =>
      intro i rows c hx
      rw [layers] at hx
      split at hx
      next e c' heq => exact hlayer i _ c ((congrArg Prod.fst heq).trans hx)
      · exact ih _ _ _ hx
  unfold forward at h
  split at h
  next e c' heq => exact hlayers _ 0 _ c ((congrArg Prod.fst heq).trans h)
  · cases h

end Transformer

namespace ContinuousBatchingEngine

variable {X D R G : Type} {e e' : ContinuousBatchingEngine D R G}

/-! ### Only the decode loop runs out of blocks -/

theorem remove_raises (xs : List ℕ) (r : ℕ) (x : Exc) (h : remove xs r = .error x) :
    x.isOutOfBlocks = false := by
  unfold remove at h
  split at h
  · cases h
  · obtain rfl := Except.error.inj h
    rfl

theorem blockTable_raises (m : BlockManager) (r : ℕ) (x : Exc) (h : m.blockTable r = .error x) :
    x.isOutOfBlocks = false := by
  unfold BlockManager.blockTable at h
  split at h
  · cases h
  · obtain rfl := Except.error.inj h
    rfl

/-- Admission catches `OutOfBlocksError`. -/
theorem admitRequest_raises (e : ContinuousBatchingEngine D R G) (b : Batch) (r : ℕ) (x : Exc)
    (h : (e.admitRequest b r).1 = .error x) : x.isOutOfBlocks = false := by
  unfold admitRequest at h
  split at h
  · cases h
  split at h
  next x' m heq =>
    cases hx : x'.isOutOfBlocks with
    | true =>
      rw [hx, if_pos rfl] at h
      cases h
    | false =>
      rw [hx, if_neg Bool.false_ne_true] at h
      rw [← Except.error.inj h]
      exact hx
  next t m heq =>
    simp only at h
    split at h
    next x' e' b' himp =>
      obtain rfl := Except.error.inj h
      unfold importPrefix at himp
      split at himp
      · cases himp
      · split at himp
        next x'' c heq' =>
          obtain rfl := Except.error.inj (Prod.mk.inj himp).1
          exact PagedKVCache.importContiguous_raises _ _ _ _ x'' (congrArg Prod.fst heq')
        · cases himp
    next e' b' himp =>
      split at h
      next x' heq' =>
        obtain rfl := Except.error.inj h
        exact remove_raises _ _ x' heq'
      · cases h

theorem prefillChunk_raises (e : ContinuousBatchingEngine D R G) (b : Batch) (r : ℕ) (x : Exc)
    (h : (e.prefillChunk b r).1 = .error x) : x.isOutOfBlocks = false := by
  unfold prefillChunk at h
  split at h
  next x' heq =>
    obtain rfl := Except.error.inj h
    exact blockTable_raises _ _ x' heq
  · simp only at h
    split at h
    next x' heq =>
      obtain rfl := Except.error.inj h
      rw [PagedKVCache.slotsForList_raises _ _ _ x' heq]
      rfl
    · split at h
      · split at h
        next x' heq =>
          obtain rfl := Except.error.inj h
          exact remove_raises _ _ x' heq
        · cases h
      · cases h

theorem prefillLoop_raises (rs : List ℕ) (e : ContinuousBatchingEngine D R G) (b : Batch) (x : Exc)
    (h : (e.prefillLoop b rs).1 = .error x) : x.isOutOfBlocks = false := by
  induction rs generalizing e b with
  | nil => cases h
  | cons r rs ih =>
    rw [prefillLoop] at h
    split at h
    · cases h
    split at h
    next x' e' b' heq =>
      obtain rfl := Except.error.inj h
      exact admitRequest_raises e b r x' (congrArg Prod.fst heq)
    · cases h
    next e' b' heq =>
      split at h
      next x' e'' b'' heq' => exact prefillChunk_raises e' b' r x ((congrArg Prod.fst heq').trans h)
      · exact ih _ _ h

variable [Zero D] [Add X] [Field R] [LinearOrder R] {T : Transformer X D R}

/-- **A step runs out of blocks in the decode loop.** -/
theorem step_raises (torch : Torch R) (src : Source R G) (h : Queues e) {x : Exc}
    (hx : x.isOutOfBlocks = true) (heq : e.step torch src T.runner = (.error x, e')) :
    ∃ b, e.decodeLoop e.emptyBatch e.running = (.error x, e', b) := by
  have hno : x.isOutOfBlocks ≠ false := by simp [hx]
  rw [step] at heq
  rcases hs : e.schedule with ⟨x' | ⟨⟩, e₁, b⟩
  · rw [hs] at heq
    obtain ⟨h₁, rfl⟩ := Prod.mk.inj heq
    obtain rfl := Except.error.inj h₁
    rw [schedule] at hs
    rcases hd : e.decodeLoop e.emptyBatch e.running with ⟨x'' | ⟨⟩, e₂, b₂⟩
    · rw [hd] at hs
      obtain ⟨h₂, h₃⟩ := Prod.mk.inj hs
      obtain ⟨rfl, rfl⟩ := Prod.mk.inj h₃
      obtain rfl := Except.error.inj h₂
      exact ⟨b₂, rfl⟩
    · rw [hd] at hs
      exact absurd (prefillLoop_raises _ _ _ _ (congrArg Prod.fst hs)) hno
  · rw [hs] at heq
    simp only at heq
    split at heq
    · cases heq
    · obtain ⟨res, e₁', b', dec, new, hs', hsched⟩ := schedule_any h
      obtain ⟨rfl, h₁⟩ := Prod.mk.inj (hs'.symm.trans hs)
      obtain ⟨rfl, rfl⟩ := Prod.mk.inj h₁
      obtain ⟨res, e₂, taken, done, hexec, -, -, herr⟩ := execute_any torch src T.runner e₁' (b := b')
        fun r hr => hsched.toSample_running.2 r (hsched.sampleBatch ▸ hr)
      obtain ⟨rfl, rfl⟩ := Prod.mk.inj (hexec.symm.trans heq)
      rcases herr x rfl with hx' | hx'
      · exact absurd hx' hno
      · rw [T.forward_raises _ _ _ _ _ x hx'] at hx
        cases hx

/-! ### What the decode loop leaves -/

/-- **The engine is as it was**: the queues, the fields of every request, every block table and
the free list. -/
structure Unchanged (e e' : ContinuousBatchingEngine D R G) : Prop where
  waiting : e'.waiting = e.waiting
  prefilling : e'.prefilling = e.prefilling
  running : e'.running = e.running
  finished : e'.finished = e.finished
  req : ∀ r, e'.req r = e.req r
  tables : ∀ r, e'.cache.manager.tables.lookup r = e.cache.manager.tables.lookup r
  freeList : e'.cache.manager.freeList = e.cache.manager.freeList

/-- No block is free and the first running request needs one. -/
def BlockedAtFirst (e : ContinuousBatchingEngine D R G) : Prop :=
  e.cache.manager.freeList = [] ∧ ∃ r rs, e.running = r :: rs ∧ e.onBoundary r = true

omit [Zero D] [Add X] [Field R] [LinearOrder R] in
/-- **The decode loop that runs out of blocks** has changed nothing, or it has reserved a slot
for its first request. -/
theorem decodeLoop_outOfBlocks (rs : List ℕ) (b : Batch) {b' : Batch} {x : Exc}
    (hx : x.isOutOfBlocks = true) (heq : e.decodeLoop b rs = (.error x, e', b')) :
    ∃ r rs', rs = r :: rs' ∧ ∃ t, e.cache.manager.tables.lookup r = some t ∧
      (e.cache.manager.freeList = [] ∧ e.onBoundary r = true ∧ e' = e ∨
        ¬(e.cache.manager.freeList = [] ∧ e.onBoundary r = true) ∧
          ∃ t', e'.cache.manager.tables.lookup r = some t' ∧ t.numTokens < t'.numTokens) := by
  cases rs with
  | nil => cases heq
  | cons r rs =>
    refine ⟨r, rs, rfl, ?_⟩
    rw [decodeLoop] at heq
    split at heq
    · cases heq
    rcases e.cache.manager.appendToken_cases r with ⟨hnone, -⟩ | ⟨t, ht, hcase⟩
    · simp only [BlockManager.blockTable, hnone] at heq
      obtain rfl := Except.error.inj (Prod.mk.inj heq).1
      cases hx
    have hbound : e.onBoundary r = true ↔ t.numTokens % e.cache.manager.blockSize = 0 := by
      unfold onBoundary
      rw [ht]
      exact decide_eq_true_iff
    have htab : e.cache.manager.blockTable r = .ok t := by rw [BlockManager.blockTable, ht]
    refine ⟨t, ht, ?_⟩
    rcases hcase with ⟨hb, hnil, happ⟩ | ⟨hnot, ids, m, -, -, hcase⟩
    · simp only [htab, happ] at heq
      exact Or.inl ⟨hnil, hbound.2 hb, (Prod.mk.inj (Prod.mk.inj heq).2).1.symm⟩
    refine Or.inr ⟨fun h => hnot ⟨hbound.1 h.2, h.1⟩, ?_⟩
    rcases hcase with ⟨happ, -⟩ | ⟨⟨blk, off⟩, happ, hm⟩
    · simp only [htab, happ] at heq
      obtain rfl := Except.error.inj (Prod.mk.inj heq).1
      cases hx
    have hmtab : m.blockTable r = .ok ⟨ids, t.numTokens + 1⟩ := by rw [BlockManager.blockTable, hm]
    cases hlast : (e.req r).outputIds.getLast? with
    | none =>
      simp only [htab, happ, hlast] at heq
      obtain rfl := Except.error.inj (Prod.mk.inj heq).1
      cases hx
    | some token =>
      simp only [htab, happ, hlast, hmtab] at heq
      obtain ⟨res, e₂, b₂, new, heq', hrest⟩ := decodeLoop_any rs
        { e.setManager m with numDecodeTokens := e.numDecodeTokens + 1 } _
      obtain ⟨-, h₁⟩ := Prod.mk.inj (heq'.symm.trans heq)
      obtain ⟨rfl, -⟩ := Prod.mk.inj h₁
      obtain ⟨t', ht', hle⟩ := hrest.grow r _ hm
      exact ⟨t', ht', hle⟩

/-- **A step that runs out of blocks leaves the engine as it was iff the first running request
finds none**; then nothing at all has changed. -/
theorem outOfBlocks_unchanged_iff (torch : Torch R) (src : Source R G) (h : Queues e) {x : Exc}
    (hx : x.isOutOfBlocks = true) (heq : e.step torch src T.runner = (.error x, e')) :
    (Unchanged e e' ↔ e.BlockedAtFirst) ∧ (e.BlockedAtFirst → e' = e) := by
  obtain ⟨b, hdec⟩ := step_raises torch src h hx heq
  obtain ⟨r, rs, hrun, t, ht, hcase⟩ := decodeLoop_outOfBlocks e.running _ hx hdec
  rcases hcase with ⟨hnil, hb, rfl⟩ | ⟨hnot, t', ht', hlt⟩
  · have hblocked : e'.BlockedAtFirst := ⟨hnil, r, rs, hrun, hb⟩
    exact ⟨iff_of_true ⟨rfl, rfl, rfl, rfl, fun _ => rfl, fun _ => rfl, rfl⟩ hblocked, fun _ => rfl⟩
  · have hno : ¬e.BlockedAtFirst := by
      rintro ⟨hnil, r', rs', hrun', hb⟩
      obtain ⟨rfl, -⟩ := List.cons.inj (hrun.symm.trans hrun')
      exact hnot ⟨hnil, hb⟩
    refine ⟨iff_of_false (fun hsame => ?_) hno, fun hb => absurd hb hno⟩
    obtain rfl := Option.some.inj (ht.symm.trans ((hsame.tables r).symm.trans ht'))
    exact lt_irrefl _ hlt

/-! ### Runs with failing steps -/

variable {torch : Torch R} {src : Source R G} {numBlocks blockSize : ℕ} {subs : List (Submission D R)}

/-- **A run whose failing steps all fail at the first request** keeps the invariant. -/
theorem After.leaves (h : After T numBlocks blockSize subs e) (hq : Queues e) {cs : List (Call D R)}
    (hprompt : ∀ s ∈ accepted torch src T.runner e cs, s.promptIds ≠ [])
    (hfirst : ∀ cs₁ cs₂, cs = cs₁ ++ .step :: cs₂ →
      outOfBlocks ((leaves torch src T.runner e cs₁).step torch src T.runner).1 = true →
      (leaves torch src T.runner e cs₁).BlockedAtFirst) :
    After T numBlocks blockSize (subs ++ accepted torch src T.runner e cs)
      (leaves torch src T.runner e cs) := by
  induction cs generalizing e subs with
  | nil => rwa [accepted, List.append_nil]
  | cons c cs ih =>
    have hrest : ∀ cs₁ cs₂, cs = cs₁ ++ .step :: cs₂ →
        outOfBlocks ((ContinuousBatchingEngine.leaves torch src T.runner
          (leave torch src T.runner e c) cs₁).step torch src T.runner).1 = true →
        (ContinuousBatchingEngine.leaves torch src T.runner
          (leave torch src T.runner e c) cs₁).BlockedAtFirst := fun cs₁ cs₂ hcs hraise =>
      hfirst (c :: cs₁) cs₂ (by rw [hcs, List.cons_append]) hraise
    have hq' := hq.leave torch src T.runner c
    show After T numBlocks blockSize _
      (ContinuousBatchingEngine.leaves torch src T.runner (leave torch src T.runner e c) cs)
    cases c with
    | addRequest s =>
      rcases hres : e.addRequest s with ⟨x | r, e₁⟩
      · have hleave : leave torch src T.runner e (.addRequest s) = e := by
          rcases addRequest_spec e s with ⟨msg, herr⟩ | ⟨hok, -⟩
          · rw [leave, herr]
          · rw [hok] at hres
            cases hres
        obtain rfl : e₁ = e := by rw [← hleave, leave, hres]
        rw [accepted, hres] at hprompt ⊢
        rw [hleave] at hrest ⊢
        exact ih h hq hprompt hrest
      · have hleave : leave torch src T.runner e (.addRequest s) = e₁ := by rw [leave, hres]
        rw [accepted, hres] at hprompt ⊢
        rw [hleave] at hrest hq' ⊢
        rw [List.append_cons]
        exact ih (h.submit (hprompt s List.mem_cons_self) hres) hq'
          (fun s' hs' => hprompt s' (List.mem_cons_of_mem _ hs')) hrest
    | step =>
      rw [accepted] at hprompt ⊢
      refine ih (?_ : After T numBlocks blockSize subs (e.step torch src T.runner).2) hq' hprompt hrest
      rcases hres : e.step torch src T.runner with ⟨x | ⟨⟩, e₁⟩
      · rcases step_spec torch src h.invOf with ⟨-, msg, e₂, herr⟩ | ⟨-, e₂, b, sl, e₃, hrun⟩
        · obtain ⟨hx, rfl⟩ := Prod.mk.inj (herr.symm.trans hres)
          obtain rfl := Except.error.inj hx
          have hb := hfirst [] cs rfl (by
            show outOfBlocks (e.step torch src T.runner).1 = true
            rw [hres]
            rfl)
          have hsame : e₂ = e := (outOfBlocks_unchanged_iff torch src hq rfl hres).2 hb
          show After T numBlocks blockSize subs e₂
          rw [hsame]
          exact h
        · rw [hrun.step] at hres
          cases hres
      · exact h.step hres

/-- What a later step relies on: the pool holds the KV of all the tokens a table counts, and
the next token of the request goes right after them. -/
structure Resumable (T : Transformer X D R) (base : BaseKV D) (e : ContinuousBatchingEngine D R G)
    (r : ℕ) : Prop where
  running : r ∈ e.running → ∃ t, e.cache.manager.tables.lookup r = some t ∧
    t.numTokens + 1 = (e.req r).tokens.length
  prefilling : r ∈ e.prefilling → ∃ t, e.cache.manager.tables.lookup r = some t ∧
    t.numTokens = (e.req r).prefillPos
  stored : ∀ t, e.cache.manager.tables.lookup r = some t →
    T.Holds e.cache t.blockIds base (str (e.req r).tokens) t.numTokens

omit [Field R] [LinearOrder R] in
theorem After.resumable (h : After T numBlocks blockSize subs e) (r : ℕ) :
    Resumable T (basesOf subs r) e r := by
  have hno : ¬Sliced [] r := fun ⟨s, hs, _⟩ => absurd hs List.not_mem_nil
  have hr := h.invOf.each r
  refine ⟨fun hm => ?_, fun hm => ?_, fun t ht => (hr.stored t ht hno).holds⟩
  · obtain ⟨-, -, -, t, ht, -, -, hcount⟩ := hr.running hm
    exact ⟨t, ht, (hcount hno).2⟩
  · obtain ⟨-, -, -, t, ht, hnum, -⟩ := hr.prefilling hm
    exact ⟨t, ht, hnum⟩

end ContinuousBatchingEngine

open ContinuousBatchingEngine

variable {X D R G : Type} [Zero D] [Add X] [Field R] [LinearOrder R]

/-- **When a step that runs out of blocks leaves the engine as it was**, in every state that calls
lead to, raising or not: iff the first running request is the one that finds no block.  A
run whose failing steps are all of this kind can go on: every table counts exactly what
is stored. -/
theorem failing_step_unchanged_iff (torch : Torch R) (src : Source R G) (T : Transformer X D R)
    (numBlocks : ℕ) {blockSize : ℕ} (hbs : 1 ≤ blockSize) (maxBatchTokens : ℕ) (chunkSize : Option ℕ)
    (rng : G) (cs : List (Call D R)) :
    let e₀ := init T numBlocks blockSize maxBatchTokens chunkSize rng
    let e := leaves torch src T.runner e₀ cs
    (outOfBlocks (e.step torch src T.runner).1 = true →
      (Unchanged e (e.step torch src T.runner).2 ↔ e.BlockedAtFirst) ∧
        (e.BlockedAtFirst → (e.step torch src T.runner).2 = e)) ∧
    ((∀ s ∈ accepted torch src T.runner e₀ cs, s.promptIds ≠ []) →
      (∀ cs₁ cs₂, cs = cs₁ ++ .step :: cs₂ →
        outOfBlocks ((leaves torch src T.runner e₀ cs₁).step torch src T.runner).1 = true →
        (leaves torch src T.runner e₀ cs₁).BlockedAtFirst) →
      ∀ r, Resumable T (basesOf (accepted torch src T.runner e₀ cs) r) e r) := by
  intro e₀ e
  have hq₀ : Queues e₀ := init_queues T numBlocks blockSize maxBatchTokens chunkSize rng
  refine ⟨fun hraise => ?_, fun hprompt hfirst r => ?_⟩
  · rcases hres : e.step torch src T.runner with ⟨x | ⟨⟩, e'⟩
    · rw [hres] at hraise
      exact outOfBlocks_unchanged_iff torch src (hq₀.leaves torch src T.runner cs) hraise hres
    · rw [hres] at hraise
      cases hraise
  · have hinit := After.init T numBlocks hbs maxBatchTokens chunkSize rng (R := R) (G := G)
    have hafter := hinit.leaves hq₀ hprompt hfirst
    rw [List.nil_append] at hafter
    exact hafter.resumable r

/-- **A failing step that leaves a hole.**  Two requests run on two blocks of two slots.  The step
reserves a slot for the first and finds no block for the second: the table of the first
counts two tokens then, and one is stored. -/
theorem failing_step_leaves_hole :
    let torch : Torch ℚ := ⟨id, fun _ => []⟩
    let src : Source ℚ Unit := ⟨fun g => (0, g), fun _ g => (0, g)⟩
    let e := leaves torch src sumModel.runner (init sumModel 2 2 8 none () :
      ContinuousBatchingEngine ℤ ℚ Unit) [.addRequest ⟨[0], 4, .default, none, 0, none⟩,
        .addRequest ⟨[0, 1], 4, .default, none, 0, none⟩, .step]
    let e' := (e.step torch src sumModel.runner).2
    outOfBlocks (e.step torch src sumModel.runner).1 = true ∧ ¬Unchanged e e' ∧
      e.cache.manager.tables.lookup 0 = some ⟨[1], 1⟩ ∧
      e'.cache.manager.tables.lookup 0 = some ⟨[1], 2⟩ ∧ (e'.req 0).tokens.length = 2 := by
  refine ⟨by decide +kernel, fun hsame => ?_, by decide +kernel, by decide +kernel, by decide +kernel⟩
  exact absurd (hsame.tables 0) (by decide +kernel)

/-- The hypotheses are satisfiable: the first running request is the one on a boundary, and a
second attempt finds the engine as the first one did. -/
theorem failing_step_unchanged_iff_first :
    let torch : Torch ℚ := ⟨id, fun _ => []⟩
    let src : Source ℚ Unit := ⟨fun g => (0, g), fun _ g => (0, g)⟩
    let s₁ : Submission ℤ ℚ := ⟨[0, 1], 4, .default, none, 0, none⟩
    let s₂ : Submission ℤ ℚ := ⟨[0], 4, .default, none, 0, none⟩
    let e := leaves torch src sumModel.runner (init sumModel 2 2 8 none () :
      ContinuousBatchingEngine ℤ ℚ Unit) [.addRequest s₁, .addRequest s₂, .step, .step]
    Unchanged e (e.step torch src sumModel.runner).2 ∧ Resumable sumModel (basesOf [s₁, s₂] 0) e 0 := by
  intro torch src s₁ s₂ e
  have h := failing_step_unchanged_iff torch src sumModel 2 (by decide : 1 ≤ 2) 8 none ()
    [.addRequest s₁, .addRequest s₂, .step, .step]
  refine ⟨(h.1 (by decide +kernel)).1.2 ⟨by decide +kernel, 0, [1], by decide +kernel, by decide +kernel⟩,
    h.2 (by simp [accepted, addRequest, s₁, s₂]) (fun cs₁ cs₂ hcs hraise => ?_) 0⟩
  rcases cs₁ with _ | ⟨c₁, _ | ⟨c₂, _ | ⟨c₃, _ | ⟨c₄, cs₁⟩⟩⟩⟩
  · simp at hcs
  · simp at hcs
  · obtain ⟨rfl, rfl, -⟩ : .addRequest s₁ = c₁ ∧ .addRequest s₂ = c₂ ∧ True := by simp at hcs; simp [hcs]
    exact absurd hraise (by decide +kernel)
  · obtain ⟨rfl, rfl, rfl⟩ : .addRequest s₁ = c₁ ∧ .addRequest s₂ = c₂ ∧ .step = c₃ := by
      simp at hcs
      simp [hcs]
    exact ⟨by decide +kernel, 0, [1], by decide +kernel, by decide +kernel⟩
  · simp at hcs

end DiSpec
