/-
# Phase 2 of `step`

The prefills under way continue and waiting requests are admitted.  One request of the
queue is admitted if it waits (`admit_spec`) and gets a chunk of its prompt: what the
code does with it (`prefillChunk_eq`) keeps the invariant and adds a slice to the batch
(`prefillChunk_spec`).  The loop goes on as long as the budget and the free blocks last;
`Prefills` collects what it does (`prefillLoop_spec`).  This phase never raises.

Which of the prompts end in the step is known before it (`finishing`).
-/

import DiSpec.Sched.Decode

namespace DiSpec
namespace ContinuousBatchingEngine

variable {X D R G : Type}
variable [Zero D] [Add X] {T : Transformer X D R} {base : ℕ → BaseKV D}
  {e : ContinuousBatchingEngine D R G} {sl : List Slice} {b : Batch} {r : ℕ}

/-! ### Admission -/

/-- The number of tokens of supplied KV. -/
def prefixLen (kv : Option (KVTensor D × KVTensor D)) : ℕ :=
  match kv with
  | none => 0
  | some (k, _) => k.tokens

omit [Zero D] [Add X] in
/-- No KV is supplied past the prefix. -/
theorem baseOf_eq_none {kv : Option (KVTensor D × KVTensor D)} {i p : ℕ} (h : prefixLen kv ≤ p) :
    baseOf kv i p = none := by
  cases kv with
  | none => rfl
  | some kv => exact if_neg (not_lt.2 h)

omit [Zero D] [Add X] in
theorem importedAt_range (r n : ℕ) (f : ℕ → ℕ) :
    importedAt r (.ok ((List.range n).map f)) = (List.range n).map fun p => (r, p, f p) := by
  have hzip : (List.range n).zip ((List.range n).map f) = (List.range n).map fun p => (p, f p) := by
    conv_lhs => arg 1; rw [← List.map_id (List.range n)]
    exact List.zip_map'
  rw [importedAt, List.length_map, List.length_range, hzip, List.map_map]
  rfl

/-- **The import of a supplied prefix** fills the leading slots of the table with it. -/
theorem importPrefix_spec (T : Transformer X D R) {e : ContinuousBatchingEngine D R G} (b : Batch)
    {r : ℕ} {ids : List ℕ} (hbs : 0 < e.cache.blockSize) (hlayers : e.cache.numLayers = T.numLayers)
    (hacc : e.cache.manager.Accounted 0) (ht : e.cache.manager.tables.lookup r = some ⟨ids, 0⟩)
    (hpos : (e.req r).prefillPos = 0) (hfits : PrefixFits e.cache (e.req r))
    (hroom : prefixLen (e.req r).prefixKv ≤ ids.length * e.cache.blockSize) :
    ∃ pool m, e.importPrefix b r ⟨ids, 0⟩ = (.ok (),
        { e with
          cache := { e.cache with pool, manager := m }
          req := Function.update e.req r
            { e.req r with prefillPos := prefixLen (e.req r).prefixKv, prefixKv := none } },
        { b with imports := b.imports ++ (List.range (prefixLen (e.req r).prefixKv)).map fun p =>
            (r, p, Paging.slotAt e.cache.blockSize ids p) }) ∧
      BlockManager.Touches e.cache.manager m r ∧ m.freeList = e.cache.manager.freeList ∧
      m.Accounted 0 ∧ m.tables.lookup r = some ⟨ids, prefixLen (e.req r).prefixKv⟩ ∧
      (∀ tok, T.Holds { e.cache with pool, manager := m } ids (baseOf (e.req r).prefixKv) tok
        (prefixLen (e.req r).prefixKv)) ∧
      ∀ i sl, sl / e.cache.blockSize ∉ ids → pool i sl = e.cache.pool i sl := by
  unfold importPrefix
  cases hkv : (e.req r).prefixKv with
  | none =>
    refine ⟨e.cache.pool, e.cache.manager, ?_, .refl _ _, rfl, hacc, ht, fun tok i hi p hp => ?_,
      fun _ _ _ => rfl⟩
    · have hsame : Function.update e.req r { e.req r with prefillPos := 0, prefixKv := none } = e.req := by
        rw [← hpos, ← hkv]
        exact Function.update_eq_self _ _
      simp only [prefixLen, hsame, List.range_zero, List.map_nil, List.append_nil]
    · exact absurd hp (Nat.not_lt_zero p)
  | some kv =>
    obtain ⟨k, v⟩ := kv
    rw [hkv] at hroom
    have hroom : k.tokens ≤ ids.length * e.cache.blockSize := hroom
    obtain ⟨hk, hv, -⟩ := hfits k v hkv
    obtain ⟨pool, himp, hnew, hkeep⟩ := e.cache.importContiguous_spec hbs (hacc.table_nodup r _ ht)
      (hacc.block_lt ht) hk hv hroom
    refine ⟨pool, e.cache.manager.setTable r ⟨ids, k.tokens⟩, ?_, BlockManager.touches_setTable, rfl, ?_, ?_,
      fun tok i hi p hp => ?_, fun i sl hsl => ?_⟩
    · have hslots := PagedKVCache.contextSlots_spec { e.cache with pool } hbs hroom
      simp only [himp, prefixLen, hslots, importedAt_range]
      rfl
    · exact hacc.setTokens (t := ⟨ids, 0⟩) ht hroom
    · exact AList.lookup_insert _
    · have hp : p < k.tokens := hp
      rw [Transformer.kvAt, show baseOf (some (k, v)) i p = some ⟨k.rows i p, v.rows i p⟩ from
        if_pos hp, Option.getD_some]
      exact hnew i (hlayers.symm ▸ hi) p hp
    · refine hkeep i sl fun hmem => hsl ?_
      obtain ⟨p, hp, rfl⟩ := List.mem_map.1 hmem
      exact Paging.slotAt_div_mem hbs ((List.mem_range.1 hp).trans_le hroom)

/-- The waiting queue after an admission, with the prefilling one. -/
theorem perm_admitted {w p : List ℕ} {r : ℕ} (hr : r ∈ w) : (w.erase r ++ (p ++ [r])).Perm (w ++ p) := by
  have h₁ : (w.erase r ++ (p ++ [r])).Perm (r :: (w.erase r ++ p)) := by
    rw [← List.append_assoc]
    exact List.perm_append_singleton r _
  exact h₁.trans ((List.perm_cons_erase hr).symm.append_right p)

/-- The rows that the admission of `r` imports, as events. -/
def importEvents (e : ContinuousBatchingEngine D R G) (r : ℕ) (t : BlockTable) : List (ℕ × ℕ × ℕ) :=
  (List.range t.numTokens).map fun p => (r, p, Paging.slotAt e.cache.blockSize t.blockIds p)

/-- **Admission** of the next request of the queue.  A request under way passes.  A waiting
one is refused when too few blocks are free for its prompt; otherwise it gets the blocks
of its prompt, with its supplied prefix in them. -/
theorem admit_spec (h : Inv T base e sl []) (b : Batch) (hr : r ∈ e.prefilling ∨ r ∈ e.waiting)
    (hns : ¬Sliced sl r) :
    (r ∈ e.waiting ∧ e.admitRequest b r = (.ok false, e, b) ∧ e.cache.manager.freeList.length <
        e.cache.manager.blocksNeeded (e.req r).promptIds.length) ∨
    ∃ e₁ l t, e.admitRequest b r = (.ok true, e₁, { b with imports := b.imports ++ l }) ∧
      Inv T base e₁ sl [] ∧ r ∈ e₁.prefilling ∧ Acts e e₁ r ∧ Scheduled e e₁ ∧
      e₁.running = e.running ∧ e₁.cache.manager.tables.lookup r = some t ∧
      (r ∈ e.prefilling ∧ e₁ = e ∧ l = [] ∨ r ∈ e.waiting ∧
        t.numTokens = prefixLen (e.req r).prefixKv ∧ l = importEvents e r t ∧
        e.cache.manager.freeList.length = e₁.cache.manager.freeList.length +
          e.cache.manager.blocksNeeded (e.req r).promptIds.length) := by
  have hbs := h.blockSize_pos
  rcases hr with hr | hr
  · -- already prefilling
    obtain ⟨hstate, -, -, t, ht, -, -⟩ := (h.each r).prefilling hr
    refine Or.inr ⟨e, [], t, ?_, h, hr, .refl e r, .refl e, rfl, ht, Or.inl ⟨hr, rfl, rfl⟩⟩
    rw [admitRequest, if_pos (by rw [hstate]; decide), List.append_nil]
  obtain ⟨hnp, hnr, hnf⟩ := h.only_waiting hr
  obtain ⟨hstate, hpos, hout, hprompt, hbase, hcovers⟩ := (h.each r).waiting hr
  have hnone := (h.each r).noTable hnp hnr
  set q := e.req r with hq
  rcases BlockManager.allocate_spec h.accounted hbs r q.promptIds.length List.nodup_nil
      (by simp) (Nat.zero_le _) with ⟨hhas, -⟩ | ⟨-, hfew, msg, heq⟩ | ⟨-, new, m, heq, hext, hnew, hacc⟩
  · exact absurd hhas (by rw [BlockManager.hasTable, hnone]; simp)
  · refine Or.inl ⟨hr, ?_, hfew⟩
    rw [admitRequest, if_neg (by simp [← hq, hstate]), ← hq, heq]
    rfl
  right
  rw [List.nil_append] at heq
  rw [List.length_nil, Nat.sub_zero] at hnew
  set m₀ := m.setTable r ⟨new, 0⟩ with hm₀
  have ht₀ : m₀.tables.lookup r = some ⟨new, 0⟩ := AList.lookup_insert _
  have hacc₀ : m₀.Accounted 0 := hacc.setTokens hext.table (Nat.zero_le _)
  have hmbs : m₀.blockSize = e.cache.blockSize := hext.blockSize
  have hcover : prefixLen q.prefixKv < q.promptIds.length := by
    cases hkv : q.prefixKv with
    | none => exact List.length_pos_iff.2 hprompt
    | some kv => exact (hcovers kv.1 kv.2 hkv).2.2
  have hroom : q.promptIds.length ≤ new.length * e.cache.blockSize := by
    rw [hnew]
    exact BlockManager.blocksNeeded_mul_ge _ hbs _
  obtain ⟨pool, m₁, himp, htouch₁, hfree₁, hacc₁, ht₁, hholds, hpool⟩ :=
    importPrefix_spec T (e := e.setManager m₀) b (r := r) (hbs.trans_eq hmbs.symm)
      h.numLayers hacc₀ ht₀ hpos (hcovers.congr rfl) (by
        show prefixLen q.prefixKv ≤ new.length * m₀.blockSize
        rw [hmbs]
        omega)
  set n := prefixLen q.prefixKv with hn
  have htouch : BlockManager.Touches e.cache.manager m₁ r :=
    (hext.toTouches.trans BlockManager.touches_setTable).trans htouch₁
  have hbs₁ : m₁.blockSize = e.cache.blockSize := htouch.blockSize
  set q₁ : Request D R := { q with prefillPos := n, prefixKv := none, state := .PREFILLING } with hq₁
  set e₁ : ContinuousBatchingEngine D R G := { e with
    cache := { e.cache with pool, manager := m₁ }
    req := Function.update e.req r q₁
    waiting := e.waiting.erase r
    prefilling := e.prefilling ++ [r] } with he₁
  have hreq : e₁.req r = q₁ := Function.update_self _ _ _
  obtain ⟨-, hfresh⟩ := h.accounted.fresh hext.freeList
  have hacts : Acts e e₁ r := by
    refine .of_update (q := q₁) rfl ⟨rfl, rfl, rfl, rfl, rfl, rfl, rfl⟩
      (fun r' hne => ⟨List.mem_erase_of_ne hne, ?_, Iff.rfl⟩) ⟨rfl, rfl, rfl, rfl, rfl, rfl, rfl⟩ htouch
      fun r' t hne ht i sl hsl => ?_
    · show r' ∈ e.prefilling ++ [r] ↔ r' ∈ e.prefilling
      simp [hne]
    · refine hpool i sl fun hmem => ?_
      rw [show (e.setManager m₀).cache.blockSize = e.cache.blockSize from hmbs] at hmem
      exact (hfresh _ hmem).2.1 (BlockManager.mem_tableBlocks ht hsl)
  have hfree : e.cache.manager.freeList.length = m₁.freeList.length +
      e.cache.manager.blocksNeeded q.promptIds.length := by
    have hlen := congrArg List.length hext.freeList
    rw [List.length_append, List.length_reverse, hnew] at hlen
    rw [hfree₁, hlen]
    rfl
  refine ⟨e₁, importEvents e r ⟨new, n⟩, ⟨new, n⟩, ?_, ?_, by simp [he₁], hacts, ?_, rfl, ht₁,
    Or.inr ⟨hr, rfl, rfl, hfree⟩⟩
  · have hevents : (List.range n).map (fun p =>
        (r, p, Paging.slotAt (e.setManager m₀).cache.blockSize new p)) = importEvents e r ⟨new, n⟩ := by
      unfold importEvents
      rw [show (e.setManager m₀).cache.blockSize = e.cache.blockSize from hmbs]
    have hremove : remove (e.setManager m₀).waiting r = .ok (e.waiting.erase r) := if_pos hr
    rw [admitRequest, if_neg (by simp [← hq, hstate]), ← hq, heq]
    simp only [← hm₀, himp, setReq]
    rw [hremove]
    simp only [Function.update_self, Function.update_idem]
    rw [← hevents]
    rfl
  · have hdisj : m₁.TablesDisjoint := by
      refine (h.disjoint.extends h.accounted hext (Or.inl rfl)).touches
        (BlockManager.touches_setTable.trans htouch₁) fun t' ht' => ?_
      obtain rfl := Option.some.inj (ht₁.symm.trans ht')
      exact ⟨_, hext.table, rfl⟩
    have hp : r ∈ e₁.prefilling := by simp [he₁]
    have hlists : (e₁.waiting ++ e₁.prefilling ++ e₁.running ++ e₁.finished).Nodup :=
      (((perm_admitted hr).append_right _).append_right _).nodup_iff.2 h.lists
    obtain ⟨hw, -, -⟩ := not_mem_of_prefilling hlists hp
    refine h.act hacts hacc₁ hdisj ((perm_admitted hr).append_right _) h.slices_nodup
      (fun _ _ _ _ => Iff.rfl) ⟨fun hm => absurd hp hm, fun hm => absurd hm hw, fun _ => ?_,
        fun hm => absurd hm hnr, fun hm => absurd hm hnf, fun s hs hsr => absurd ⟨s, hs, hsr⟩ hns,
        fun t ht _ => ?_⟩
    · rw [hreq]
      exact ⟨rfl, hout, hcover, ⟨new, n⟩, ht₁, rfl, by
        rw [hnew, BlockManager.blocksNeeded_congr hbs₁]⟩
    · rw [ht₁] at ht
      obtain rfl := Option.some.inj ht
      refine ⟨?_, fun i p hp => ?_⟩
      · rw [hbase]
        exact hholds _
      · rw [hbase]
        exact baseOf_eq_none hp
  · exact hacts.scheduled id fun t ht => by rw [hnone] at ht; cases ht

/-! ### Chunks -/

/-- The batch with `n` more tokens of the prompt of `r` in it, from position `start` on. -/
def chunked (b : Batch) (r : ℕ) (promptIds ids : List ℕ) (bs start n : ℕ) (sampled : Bool) : Batch :=
  { b with
    tokenIds := b.tokenIds ++ (promptIds.drop start).take n
    positions := b.positions ++ List.range' start n
    writeSlots := b.writeSlots ++ (List.range' start n).map (Paging.slotAt bs ids)
    seqMeta := b.seqMeta ++ [⟨ids, n, start + n⟩]
    cursor := b.cursor + n
    budget := b.budget - n
    batch := b.batch ++ [r]
    lastIdx := b.lastIdx ++ if sampled then [((b.cursor + n : ℕ) : ℤ) - 1] else []
    sampled := b.sampled ++ [sampled] }

omit [Zero D] [Add X] in
/-- A chunk of a prompt is a slice. -/
theorem describes_chunked (hd : Describes base e.tokensOf e.cache.blockSize b sl)
    (hout : (e.req r).outputIds = []) {start n : ℕ} (hend : start + n ≤ (e.req r).promptIds.length)
    (ids : List ℕ) (sampled : Bool) :
    Describes base e.tokensOf e.cache.blockSize
      (chunked b r (e.req r).promptIds ids e.cache.blockSize start n sampled)
      (sl ++ [⟨r, ids, start, n, sampled⟩]) := by
  refine hd.snoc _ rfl ?_ rfl rfl rfl rfl rfl
  show _ ++ ((e.req r).promptIds.drop start).take n = _ ++ (List.range' start n).map (str (e.req r).tokens)
  rw [Request.tokens, hout, List.append_nil, take_drop_eq_map_str _ hend]

/-- **What `prefillChunk` does**: the table counts the new tokens, and the request either
prefills on or, at the end of its prompt, joins the running ones. -/
theorem prefillChunk_eq (h : Inv T base e sl []) (hr : r ∈ e.prefilling) {t : BlockTable}
    (ht : e.cache.manager.tables.lookup r = some t) {left n : ℕ}
    (hleft : left = (e.req r).promptIds.length - t.numTokens)
    (hn : n = min (min left e.chunkSize) b.budget) (hpos : 1 ≤ n) :
    ∃ e₁, e.prefillChunk b r = (.ok (), e₁, chunked b r (e.req r).promptIds t.blockIds
        e.cache.blockSize t.numTokens n (decide (n = left))) ∧ Acts e e₁ r ∧
      e₁.cache = { e.cache with
        manager := e.cache.manager.setTable r ⟨t.blockIds, t.numTokens + n⟩ } ∧
      (e₁.waiting ++ e₁.prefilling ++ e₁.running).Perm (e.waiting ++ e.prefilling ++ e.running) ∧
      (r ∈ e₁.prefilling ∧ decide (n = left) = false ∧ IsPrefilling e₁.cache.manager r (e₁.req r) ∨
        r ∈ e₁.running ∧ decide (n = left) = true ∧
          IsRunning e₁.cache.manager r (e₁.req r) True False) := by
  obtain ⟨hstate, hout, hlt, t', ht', hnum, hexact⟩ := (h.each r).prefilling hr
  obtain rfl := Option.some.inj (ht.symm.trans ht')
  set q := e.req r with hq
  set m := e.cache.manager.setTable r ⟨t.blockIds, t.numTokens + n⟩ with hm
  have htm : m.tables.lookup r = some ⟨t.blockIds, t.numTokens + n⟩ := AList.lookup_insert _
  have htable : e.cache.manager.blockTable r = .ok t := by
    unfold BlockManager.blockTable
    rw [ht]
  have hin : ∀ p ∈ List.range' t.numTokens n, p < t.blockIds.length * e.cache.blockSize := fun p hp => by
    have hroom := BlockManager.blocksNeeded_mul_ge e.cache.manager h.blockSize_pos q.promptIds.length
    rw [← hexact] at hroom
    have hroom : q.promptIds.length ≤ t.blockIds.length * e.cache.blockSize := hroom
    have := (List.mem_range'_1.1 hp).2
    omega
  have hslots := (e.cache.slotsForList_range' t.blockIds t.numTokens hpos).trans
    (e.cache.slotsForPositions_spec h.blockSize_pos t.blockIds hin)
  subst hleft
  by_cases hfin : n = q.promptIds.length - t.numTokens
  · -- the chunk ends the prompt
    set q₁ : Request D R := { q with prefillPos := t.numTokens + n, prefilled := true, state := .RUNNING }
      with hq₁
    set e₁ : ContinuousBatchingEngine D R G := { e with
      cache := { e.cache with manager := m }
      req := Function.update e.req r q₁
      numPrefillTokens := e.numPrefillTokens + n
      prefilling := e.prefilling.erase r
      running := e.running ++ [r] } with he₁
    have hreq : e₁.req r = q₁ := Function.update_self _ _ _
    have hacts : Acts e e₁ r := by
      refine .of_update (q := q₁) rfl ⟨rfl, rfl, rfl, rfl, rfl, rfl, rfl⟩
        (fun r' hne => ⟨Iff.rfl, List.mem_erase_of_ne hne, ?_⟩) ⟨rfl, rfl, rfl, rfl, rfl, rfl, rfl⟩
        BlockManager.touches_setTable fun _ _ _ _ _ _ _ => rfl
      show r' ∈ e.running ++ [r] ↔ r' ∈ e.running
      simp [hne]
    refine ⟨e₁, ?_, hacts, rfl, ?_, Or.inr ⟨by simp [he₁], decide_eq_true hfin, ?_⟩⟩
    · have hremove : remove e.prefilling r = .ok (e.prefilling.erase r) := if_pos hr
      rw [prefillChunk, htable, decide_eq_true hfin]
      simp only [← hq, ← hnum, ← hn, hslots]
      rw [if_pos (by omega)]
      simp only [setReq, setManager, hremove]
      rfl
    · rw [List.append_assoc, List.append_assoc]
      exact (perm_admitted hr).append_left _
    · rw [hreq]
      have hne : q.promptIds ≠ [] := List.ne_nil_of_length_pos (by omega)
      refine ⟨hne, fun _ => ⟨rfl, Or.inl hout⟩, False.elim, _, htm, ?_, fun _ => ?_,
        fun hm => absurd trivial hm⟩
      · rw [show t.numTokens + n = q.promptIds.length by omega]
        exact hexact
      · show t.numTokens + n = q.tokens.length
        rw [Request.tokens, hout, List.append_nil]
        omega
  · -- more of the prompt is left
    set e₁ : ContinuousBatchingEngine D R G := { e with
      cache := { e.cache with manager := m }
      req := Function.update e.req r { q with prefillPos := t.numTokens + n }
      numPrefillTokens := e.numPrefillTokens + n } with he₁
    have hreq : e₁.req r = { q with prefillPos := t.numTokens + n } := Function.update_self _ _ _
    have hacts : Acts e e₁ r :=
      .of_update (q := { q with prefillPos := t.numTokens + n }) rfl ⟨rfl, rfl, rfl, rfl, rfl, rfl, rfl⟩
        (fun _ _ => ⟨Iff.rfl, Iff.rfl, Iff.rfl⟩) ⟨rfl, rfl, rfl, rfl, rfl, rfl, rfl⟩
        BlockManager.touches_setTable fun _ _ _ _ _ _ _ => rfl
    refine ⟨e₁, ?_, hacts, rfl, .refl _, Or.inl ⟨hr, decide_eq_false hfin, ?_⟩⟩
    · rw [prefillChunk, htable, decide_eq_false hfin]
      simp only [← hq, ← hnum, ← hn, hslots]
      rw [if_neg (by omega)]
      simp only [chunked, Bool.false_eq_true, if_false, List.append_nil]
      rfl
    · rw [hreq]
      refine ⟨hstate, hout, ?_, _, htm, rfl, hexact⟩
      show t.numTokens + n < q.promptIds.length
      omega

/-- **The next chunk of a prompt** under way: at least one token, at most what is left of the
prompt, the chunk size and the budget.  The request is sampled, and joins the running
ones, iff the chunk ends its prompt. -/
theorem prefillChunk_spec (h : Inv T base e sl []) (hr : r ∈ e.prefilling) (hns : ¬Sliced sl r)
    {t : BlockTable} (ht : e.cache.manager.tables.lookup r = some t)
    (hd : Describes base e.tokensOf e.cache.blockSize b sl) (hb : 1 ≤ b.budget) (hc : 0 < e.chunkSize) :
    ∃ e₁ b₁ s, e.prefillChunk b r = (.ok (), e₁, b₁) ∧ Inv T base e₁ (sl ++ [s]) [] ∧
      Describes base e₁.tokensOf e₁.cache.blockSize b₁ (sl ++ [s]) ∧
      s.req = r ∧ s.blockIds = t.blockIds ∧ s.start = t.numTokens ∧ 1 ≤ s.len ∧
      s.len = min (min ((e.req r).promptIds.length - t.numTokens) e.chunkSize) b.budget ∧
      s.sampled = decide (s.len = (e.req r).promptIds.length - t.numTokens) ∧
      Acts e e₁ r ∧ Scheduled e e₁ ∧
      e₁.cache.manager.freeList = e.cache.manager.freeList ∧
      b₁.sampled = b.sampled ++ [s.sampled] ∧ b₁.budget = b.budget - s.len ∧
      b₁.imports = b.imports := by
  have hbs := h.blockSize_pos
  obtain ⟨-, hnr, -⟩ := h.only_prefilling hr
  obtain ⟨-, hout, hlt, t', ht', hnum, hexact⟩ := (h.each r).prefilling hr
  obtain rfl := Option.some.inj (ht.symm.trans ht')
  set left := (e.req r).promptIds.length - t.numTokens with hleft
  set n := min (min left e.chunkSize) b.budget with hn
  have hpos : 1 ≤ n := by omega
  have hend : t.numTokens + n ≤ (e.req r).promptIds.length := by omega
  have hroom : (e.req r).promptIds.length ≤ t.blockIds.length * e.cache.blockSize := by
    rw [hexact]
    exact BlockManager.blocksNeeded_mul_ge _ hbs _
  obtain ⟨e₁, heq, hacts, hcache, hperm, hq⟩ := prefillChunk_eq (b := b) h hr ht hleft hn hpos
  set s : Slice := ⟨r, t.blockIds, t.numTokens, n, decide (n = left)⟩ with hs
  have htm : e₁.cache.manager.tables.lookup r = some ⟨t.blockIds, t.numTokens + n⟩ := by
    rw [hcache]
    exact AList.lookup_insert _
  have hstored : Stored T base e₁ r t.blockIds t.numTokens :=
    ((h.each r).stored t ht hns).congr hbs (h.accounted.capacity r t ht) (by rw [hcache]; rfl)
      (hacts.text r).tokens fun _ _ _ => by rw [hcache]
  have hsched : Scheduled e e₁ := hacts.scheduled (fun hm => absurd hm hnr) fun t' ht' => by
    obtain rfl := Option.some.inj (ht.symm.trans ht')
    exact ⟨_, htm, List.prefix_rfl, Nat.le_add_right _ _⟩
  refine ⟨e₁, _, s, heq, ?_, ?_, rfl, rfl, rfl, hpos, rfl, rfl, hacts, hsched, by rw [hcache]; rfl, rfl,
    rfl, rfl⟩
  · refine h.join hacts hns ?_ ?_ hperm htm hstored hq
    · rw [hcache]
      exact h.accounted.setTokens ht (hend.trans hroom)
    · rw [hcache]
      exact h.disjoint.setTokens ht _
  · rw [hsched.tokensOf, show e₁.cache.blockSize = e.cache.blockSize from hacts.touches.blockSize]
    exact describes_chunked hd hout hend _ _

/-! ### Phase 2 -/

omit [Zero D] [Add X] in
/-- Where the prefill of a request of the queue resumes. -/
def resumeAt (q : Request D R) : ℕ :=
  if q.state = .WAITING then prefixLen q.prefixKv else q.prefillPos

omit [Zero D] [Add X] in
/-- The blocks a request of the queue takes before its next chunk. -/
def blocksToAdmit (e : ContinuousBatchingEngine D R G) (q : Request D R) : ℕ :=
  if q.state = .WAITING then e.cache.manager.blocksNeeded q.promptIds.length else 0

/-- The rows imported for the new slices: those of the prefixes of the requests that were
waiting, up to where their prefill starts. -/
def Imported (e : ContinuousBatchingEngine D R G) (new : List Slice) (l : List (ℕ × ℕ × ℕ)) : Prop :=
  ∀ ev : ℕ × ℕ × ℕ, ev ∈ l ↔ ∃ s ∈ new, s.req ∈ e.waiting ∧ ev.1 = s.req ∧ ev.2.1 < s.start ∧
    ev.2.2 = Paging.slotAt e.cache.blockSize s.blockIds ev.2.1

/-- **A request of the queue.**  The loop ends where too few blocks are free for a waiting one;
otherwise the request gets a slice. -/
theorem prefill_one (h : Inv T base e sl []) (hr : r ∈ e.prefilling ∨ r ∈ e.waiting) (hns : ¬Sliced sl r)
    (hd : Describes base e.tokensOf e.cache.blockSize b sl) (hb : 1 ≤ b.budget) (hc : 0 < e.chunkSize)
    (rs : List ℕ) :
    (e.cache.manager.freeList.length < e.blocksToAdmit (e.req r) ∧
      e.prefillLoop b (r :: rs) = (.ok (), e, b)) ∨
    ∃ e₁ b₁ s l, e.prefillLoop b (r :: rs) = e₁.prefillLoop b₁ rs ∧ Inv T base e₁ (sl ++ [s]) [] ∧
      Describes base e₁.tokensOf e₁.cache.blockSize b₁ (sl ++ [s]) ∧ s.req = r ∧ 1 ≤ s.len ∧
      s.len = min (min ((e.req r).promptIds.length - resumeAt (e.req r)) e.chunkSize) b.budget ∧
      s.sampled = decide (s.len = (e.req r).promptIds.length - resumeAt (e.req r)) ∧
      Acts e e₁ r ∧ Scheduled e e₁ ∧ Grows e e₁ [s] ∧
      e.cache.manager.freeList.length =
        e₁.cache.manager.freeList.length + e.blocksToAdmit (e.req r) ∧
      b₁.sampled = b.sampled ++ [s.sampled] ∧ b₁.budget = b.budget - s.len ∧
      b₁.imports = b.imports ++ l ∧ Imported e [s] l := by
  rcases admit_spec h b hr hns with ⟨hw, heq, hfew⟩ | ⟨e₁, l, t, heq, hinv, hp, hacts, hsched, -, ht, hcase⟩
  · refine Or.inl ⟨?_, ?_⟩
    · rwa [blocksToAdmit, if_pos ((h.each r).waiting hw).state]
    · rw [prefillLoop, if_neg (by omega), heq]
  right
  have hbs : e₁.cache.blockSize = e.cache.blockSize := hacts.touches.blockSize
  have hprompt : (e₁.req r).promptIds = (e.req r).promptIds := (hacts.text r).promptIds
  obtain ⟨hres, hneed, hstart, himp⟩ : resumeAt (e.req r) = t.numTokens ∧
      e.cache.manager.freeList.length =
        e₁.cache.manager.freeList.length + e.blocksToAdmit (e.req r) ∧
      (∀ t', e.cache.manager.tables.lookup r = some t' → t.numTokens = t'.numTokens) ∧
      ∀ s : Slice, s.req = r → s.blockIds = t.blockIds → s.start = t.numTokens → Imported e [s] l := by
    rcases hcase with ⟨hpre, rfl, rfl⟩ | ⟨hw, hnum, rfl, hfree⟩
    · obtain ⟨hstate, -, -, t', ht', hnum, -⟩ := (h.each r).prefilling hpre
      obtain rfl := Option.some.inj (ht.symm.trans ht')
      refine ⟨?_, ?_, fun t' ht'' => ?_, fun s hs _ _ ev => ?_⟩
      · rw [resumeAt, if_neg (by rw [hstate]; decide), hnum]
      · rw [blocksToAdmit, if_neg (by rw [hstate]; decide), Nat.add_zero]
      · rw [Option.some.inj (ht.symm.trans ht'')]
      · refine iff_of_false List.not_mem_nil ?_
        rintro ⟨s', hs', hw, -⟩
        obtain rfl := List.mem_singleton.1 hs'
        exact (h.only_prefilling hpre).1 (hs ▸ hw)
    · have hstate := ((h.each r).waiting hw).state
      obtain ⟨hnp, hnr, -⟩ := h.only_waiting hw
      refine ⟨?_, ?_, fun t' ht' => ?_, fun s hs hids hst ev => ?_⟩
      · rw [resumeAt, if_pos hstate, hnum]
      · rwa [blocksToAdmit, if_pos hstate]
      · rw [(h.each r).noTable hnp hnr] at ht'
        cases ht'
      · rw [importEvents, List.mem_map]
        constructor
        · rintro ⟨p, hp, rfl⟩
          exact ⟨s, List.mem_singleton_self _, hs ▸ hw, hs.symm, hst ▸ List.mem_range.1 hp, by rw [hids]⟩
        · rintro ⟨s', hs', -, hreq, hlt, hslot⟩
          obtain rfl := List.mem_singleton.1 hs'
          refine ⟨ev.2.1, List.mem_range.2 (hst ▸ hlt), ?_⟩
          rw [← hs, ← hreq, ← hids, ← hslot]
  obtain ⟨e₂, b₂, s, heq₂, hinv₂, hd₂, hreq, hids, hst, hpos, hlen, hsam, hacts₂, hsched₂, hfree₂, hsam₂,
      hbud, himp₂⟩ :=
    prefillChunk_spec (b := { b with imports := b.imports ++ l }) hinv hp hns ht
      (by
        rw [hsched.tokensOf, hbs]
        exact hd.congr rfl rfl rfl rfl rfl rfl rfl) hb (hacts.chunkSize ▸ hc)
  rw [hprompt, ← hres] at hlen hsam
  rw [hacts.chunkSize] at hlen
  refine ⟨e₂, b₂, s, l, ?_, hinv₂, hd₂, hreq, hpos, hlen, hsam, hacts.trans hacts₂, hsched.trans hsched₂, ?_,
    ?_, hsam₂, hbud, himp₂, himp s hreq hids hst⟩
  · rw [prefillLoop, if_neg (by omega), heq]
    simp only [heq₂]
  · obtain rfl := hreq
    exact (hacts.trans hacts₂).grows fun t' ht' => hst.trans (hstart t' ht')
  · rw [hfree₂]
    exact hneed

/-- The requests of the queue whose prompts end within `budget` tokens and `free` blocks. -/
def finishing (e : ContinuousBatchingEngine D R G) : (budget free : ℕ) → List ℕ → List ℕ
  | _, _, [] => []
  | budget, free, r :: rs =>
    let need := e.blocksToAdmit (e.req r)
    let left := (e.req r).promptIds.length - resumeAt (e.req r)
    let chunk := min (min left e.chunkSize) budget
    if budget < 1 ∨ free < need then []
    else (if chunk = left then [r] else []) ++ e.finishing (budget - chunk) (free - need) rs

omit [Zero D] [Add X] in
/-- What `finishing` reads of the engine. -/
theorem finishing_congr {e e' : ContinuousBatchingEngine D R G} {rs : List ℕ}
    (hreq : ∀ r ∈ rs, e'.req r = e.req r) (hchunk : e'.chunkSize = e.chunkSize)
    (hsize : e'.cache.manager.blockSize = e.cache.manager.blockSize) (budget free : ℕ) :
    e'.finishing budget free rs = e.finishing budget free rs := by
  induction rs generalizing budget free with
  | nil => rfl
  | cons r rs ih =>
    have hneed : ∀ q, e'.blocksToAdmit q = e.blocksToAdmit q := fun q => by
      unfold blocksToAdmit
      rw [BlockManager.blocksNeeded_congr hsize]
    rw [finishing, finishing, hreq r List.mem_cons_self, hneed, hchunk,
      ih fun r' hr' => hreq r' (List.mem_cons_of_mem _ hr')]

/-- What phase 2 does with the requests `rs` of the queue: it never raises, gives slices to
some of them, and samples from those that `finishing` lists. -/
structure Prefills (T : Transformer X D R) (base : ℕ → BaseKV D) (e e' : ContinuousBatchingEngine D R G)
    (sl : List Slice) (b b' : Batch) (rs : List ℕ) (new : List Slice) : Prop where
  ok : e.prefillLoop b rs = (.ok (), e', b')
  inv : Inv T base e' (sl ++ new) []
  describes : Describes base e'.tokensOf e'.cache.blockSize b' (sl ++ new)
  slices : ∀ s ∈ new, s.req ∈ rs ∧ 1 ≤ s.len
  scheduled : Scheduled e e'
  grows : Grows e e' new
  sampled : b'.sampled = b.sampled ++ new.map Slice.sampled
  imports : ∃ l, b'.imports = b.imports ++ l ∧ Imported e new l
  finishing : (new.filter fun s => s.sampled).map Slice.req =
    e.finishing b.budget e.cache.manager.freeList.length rs

/-- Phase 2 where nothing more fits. -/
theorem Prefills.stop {rs : List ℕ} (h : Inv T base e sl [])
    (hd : Describes base e.tokensOf e.cache.blockSize b sl) (heq : e.prefillLoop b rs = (.ok (), e, b))
    (hfin : e.finishing b.budget e.cache.manager.freeList.length rs = []) :
    Prefills T base e e sl b b rs [] := by
  refine ⟨heq, ?_, ?_, by simp, .refl e, .nil e, by simp, ⟨[], by simp, fun ev => by simp⟩, ?_⟩
  · rwa [List.append_nil]
  · rwa [List.append_nil]
  · rw [hfin]
    rfl

omit [Zero D] [Add X] in
/-- The rows imported for one request and then for others. -/
theorem Imported.cons {e₁ : ContinuousBatchingEngine D R G} {s : Slice} {new : List Slice}
    {l l' : List (ℕ × ℕ × ℕ)} (h : Imported e [s] l) (h' : Imported e₁ new l') (ha : Acts e e₁ r)
    (hne : ∀ s' ∈ new, s'.req ≠ r) : Imported e (s :: new) (l ++ l') := by
  have hbs : e₁.cache.blockSize = e.cache.blockSize := ha.touches.blockSize
  intro ev
  rw [List.mem_append, h ev, h' ev, hbs]
  constructor
  · rintro (⟨s', hs', hrest⟩ | ⟨s', hs', hw, hrest⟩)
    · obtain rfl := List.mem_singleton.1 hs'
      exact ⟨s', List.mem_cons_self, hrest⟩
    · exact ⟨s', List.mem_cons_of_mem _ hs', (ha.others s'.req (hne s' hs')).2.1.1 hw, hrest⟩
  · rintro ⟨s', hs', hw, hrest⟩
    rcases List.mem_cons.1 hs' with rfl | hs'
    · exact Or.inl ⟨s', List.mem_singleton_self _, hw, hrest⟩
    · exact Or.inr ⟨s', hs', (ha.others s'.req (hne s' hs')).2.1.2 hw, hrest⟩

/-- **Phase 2** never raises.  It gives slices to requests of the queue and samples from
those that `finishing` lists. -/
theorem prefillLoop_spec (rs : List ℕ) {e : ContinuousBatchingEngine D R G} {sl : List Slice} {b : Batch}
    (h : Inv T base e sl []) (hn : rs.Nodup)
    (hrs : ∀ r ∈ rs, (r ∈ e.prefilling ∨ r ∈ e.waiting) ∧ ¬Sliced sl r)
    (hd : Describes base e.tokensOf e.cache.blockSize b sl) (hc : b.budget = 0 ∨ 0 < e.chunkSize) :
    ∃ e' b' new, Prefills T base e e' sl b b' rs new := by
  induction rs generalizing e sl b with
  | nil => exact ⟨e, b, [], .stop h hd rfl rfl⟩
  | cons r rs ih =>
    rcases Nat.eq_zero_or_pos b.budget with h0 | hpos
    · refine ⟨e, b, [], .stop h hd ?_ ?_⟩
      · rw [prefillLoop, if_pos (by omega)]
      · rw [finishing, if_pos (Or.inl (by omega))]
    have hc : 0 < e.chunkSize := hc.resolve_left (by omega)
    obtain ⟨hr, hns⟩ := hrs r List.mem_cons_self
    rw [List.nodup_cons] at hn
    have hne : ∀ r' ∈ rs, r' ≠ r := by
      rintro r' hr' rfl
      exact hn.1 hr'
    rcases prefill_one h hr hns hd hpos hc rs with ⟨hfew, heq⟩ |
      ⟨e₁, b₁, s, l, heq, hinv, hd₁, hreq, hlen, hchunk, hsam, hacts, hsched, hgrow, hfree, hsam₁, hbud, himp,
        himported⟩
    · refine ⟨e, b, [], .stop h hd heq ?_⟩
      rw [finishing, if_pos (Or.inr hfew)]
    have hnext : ∀ r' ∈ rs, (r' ∈ e₁.prefilling ∨ r' ∈ e₁.waiting) ∧ ¬Sliced (sl ++ [s]) r' := by
      intro r' hr'
      obtain ⟨hq, hns'⟩ := hrs r' (List.mem_cons_of_mem _ hr')
      obtain ⟨-, hw, hp, -⟩ := hacts.others r' (hne r' hr')
      refine ⟨by rwa [hw, hp], ?_⟩
      rintro ⟨s', hs', heq'⟩
      exact hns' ⟨s', (mem_snoc_of_ne hreq (hne r' hr') s' heq').1 hs', heq'⟩
    obtain ⟨e', b', new, hrest⟩ := ih hinv hn.2 hnext hd₁ (Or.inr (hacts.chunkSize ▸ hc))
    obtain ⟨l', himp', himported'⟩ := hrest.imports
    have hnot : ¬Sliced new s.req := by
      rintro ⟨s', hs', heq''⟩
      exact hn.1 (hreq ▸ heq'' ▸ (hrest.slices s' hs').1)
    refine ⟨e', b', s :: new, heq.trans hrest.ok, ?_, ?_, fun s' hs' => ?_, hsched.trans hrest.scheduled,
      hgrow.cons hrest.grows hnot, ?_, ⟨l ++ l', ?_, ?_⟩, ?_⟩
    · exact List.append_cons sl s new ▸ hrest.inv
    · exact List.append_cons sl s new ▸ hrest.describes
    · rcases List.mem_cons.1 hs' with rfl | hs'
      · exact ⟨hreq ▸ List.mem_cons_self, hlen⟩
      · exact ⟨List.mem_cons_of_mem _ (hrest.slices s' hs').1, (hrest.slices s' hs').2⟩
    · rw [hrest.sampled, hsam₁, List.append_assoc]
      rfl
    · rw [himp', himp, List.append_assoc]
    · exact himported.cons himported' hacts fun s' hs' => hne _ (hrest.slices s' hs').1
    · rw [finishing, if_neg (by omega), ← hchunk, ← hbud]
      have hsub : e.cache.manager.freeList.length - e.blocksToAdmit (e.req r) =
          e₁.cache.manager.freeList.length := by omega
      rw [hsub, ← finishing_congr (fun r' hr' => (hacts.others r' (hne r' hr')).1) hacts.chunkSize
        hacts.touches.blockSize, ← hrest.finishing, List.filter_cons, hsam]
      split
      next heq => rw [if_pos (of_decide_eq_true heq), List.map_cons, hreq]; rfl
      next heq => rw [if_neg fun hm => heq (decide_eq_true hm), List.nil_append]

end ContinuousBatchingEngine
end DiSpec
