/-
# Forking to an id in use

`allocate` refuses an id that owns a table; `fork` does not look.  When the child id owns a
table, or is the parent's own id, that table is overwritten, and the references of its blocks
stay in the counts with no table left to give them back: after a `fork` the manager accounts for
the pins *and* for the blocks of the overwritten table (`fork_accounted`).

`CountsExact` says that nothing is lost: each count is the number of tables and cache nodes that
hold the block, and freeing every sequence leaves only pinned blocks out of the pool.  After any
history the manager accounts for the pins and for all that forks have lost (`Op.run_lost`), and a
lost reference is never found again: the state is exact if and only if no fork of the history
overwrote a table that lists a block (`counts_exact_iff_forks_lose_none`).
-/

import DiSpec.KV.History

namespace DiSpec

namespace BlockManager

/-- The blocks that the table of `seq` lists, none if it owns no table. -/
def blocksOf (m : BlockManager) (seq : ℕ) : List ℕ := ((m.tables.lookup seq).map BlockTable.blockIds).getD []

/-- `fork` raises, or the child id owns no table that lists a block. -/
def ForkLosesNone (m : BlockManager) (parent child : ℕ) : Prop :=
  m.tables.lookup parent = none ∨ m.blocksOf child = []

/-- `free` one sequence after the other. -/
def freeEach (m : BlockManager) (seqs : List ℕ) : BlockManager := seqs.foldl (fun m seq => (m.free seq).2) m

variable {m : BlockManager} {pins : Multiset ℕ}

/-- What the tables list is what the table of `seq` lists and what the others list. -/
theorem tableBlocks_eq_blocksOf (m : BlockManager) (seq : ℕ) :
    m.tableBlocks = ↑(m.blocksOf seq) + m.otherBlocks seq := by
  cases ht : m.tables.lookup seq with
  | none =>
    rw [blocksOf, ht, otherBlocks_of_none ht]
    exact (zero_add _).symm
  | some t =>
    rw [blocksOf, ht]
    exact tableBlocks_eq ht

/-- **`fork` to any id.**  The references of the table it overwrites stay counted. -/
theorem fork_accounted (h : m.Accounted pins) {parent : ℕ} (child : ℕ) {p : BlockTable}
    (hp : m.tables.lookup parent = some p) :
    ∃ m', m.fork parent child = (.ok p, m') ∧ m'.numBlocks = m.numBlocks ∧
      m'.blockSize = m.blockSize ∧ m'.Accounted (↑(m.blocksOf child) + pins) := by
  obtain ⟨rc, hadd, hcount⟩ := m.addRefs_spec p.blockIds fun b hb =>
    (h.counted.mem_iff b).2 (Multiset.mem_add.2 (Or.inl (mem_tableBlocks hp hb)))
  have hc := hcount _ _ h.counted
  rw [tableBlocks_eq_blocksOf m child] at hc
  refine ⟨{ m with refCount := rc, tables := m.tables.insert child p }, ?_, rfl, rfl, ?_, ?_, ?_⟩
  · rw [fork, hp]
    simp only [hadd]
    rfl
  · rw [tableBlocks, Dict.total_insert]
    have heq : (↑p.blockIds : Multiset ℕ) + (↑(m.blocksOf child) + m.otherBlocks child + pins) =
        ↑p.blockIds + m.otherBlocks child + (↑(m.blocksOf child) + pins) := by
      simp only [add_assoc, add_left_comm]
    exact heq ▸ hc
  · intro s t hs
    rcases eq_or_ne s child with rfl | hne
    · obtain rfl := Option.some.inj ((AList.lookup_insert _).symm.trans hs)
      exact h.table_nodup parent p hp
    · exact h.table_nodup s t ((AList.lookup_insert_ne hne).symm.trans hs)
  · intro s t hs
    rcases eq_or_ne s child with rfl | hne
    · obtain rfl := Option.some.inj ((AList.lookup_insert _).symm.trans hs)
      exact h.capacity parent p hp
    · exact h.capacity s t ((AList.lookup_insert_ne hne).symm.trans hs)

/-- **Freeing sequences** keeps the accounting and leaves none of them a table. -/
theorem freeEach_spec (h : m.Accounted pins) (seqs : List ℕ) :
    (m.freeEach seqs).Accounted pins ∧ (m.freeEach seqs).numBlocks = m.numBlocks ∧
      ∀ seq, (m.freeEach seqs).tables.lookup seq =
        if seq ∈ seqs then none else m.tables.lookup seq := by
  induction seqs generalizing m with
  | nil => exact ⟨h, rfl, fun seq => rfl⟩
  | cons s seqs ih =>
    obtain ⟨m', heq, htouch, -, hnone, hacc⟩ := free_spec h s
    have hstep : m.freeEach (s :: seqs) = m'.freeEach seqs := by
      rw [freeEach, List.foldl_cons, heq]
      rfl
    obtain ⟨hacc', hnb, htab⟩ := ih hacc
    rw [hstep]
    refine ⟨hacc', hnb.trans htouch.numBlocks, fun seq => ?_⟩
    rw [htab seq]
    rcases eq_or_ne seq s with rfl | hne
    · rw [hnone, ite_self, if_pos List.mem_cons_self]
    · rw [htouch.others seq hne]
      simp only [List.mem_cons, hne, false_or]

/-- **With no table left** the blocks are free or pinned. -/
theorem Accounted.free_add_pins (h : m.Accounted pins) (hno : ∀ seq, m.tables.lookup seq = none) :
    m.freeList.length + pins.toFinset.card = m.numBlocks := by
  have hempty : m.tableBlocks = 0 := by
    refine Multiset.eq_zero_iff_forall_notMem.2 fun b hb => ?_
    obtain ⟨seq, t, ht, -⟩ := mem_tableBlocks_iff.1 hb
    rw [hno seq] at ht
    cases ht
  have hc := h.counted
  rw [hempty, zero_add] at hc
  have hfree : m.freeList.toFinset = Finset.range m.numBlocks \ pins.toFinset := by
    ext b
    rw [List.mem_toFinset, hc.free_iff, Finset.mem_sdiff, Multiset.mem_toFinset]
  have hsub : pins.toFinset ⊆ Finset.range m.numBlocks := fun b hb =>
    hc.bounded b (Multiset.mem_toFinset.1 hb)
  rw [← List.toFinset_card_of_nodup hc.free_nodup, hfree, Finset.card_sdiff_add_card_eq_card hsub,
    Finset.card_range]

end BlockManager

/-- The tables that list block `b` and the cache nodes that hold it. -/
def holders {κ : Type} (m : BlockManager) (c : PrefixCache κ) (b : ℕ) : ℕ :=
  (m.tables.items.countP fun e => b ∈ e.2.blockIds) + c.nodes.items.countP fun e => e.2.block = b

/-- Where no table lists a block twice, holders are references. -/
theorem holders_eq_references {κ : Type} {m : BlockManager} {c : PrefixCache κ}
    (hn : ∀ seq t, m.tables.lookup seq = some t → t.blockIds.Nodup) (b : ℕ) :
    holders m c b = references m c b := by
  have hitems : ∀ e ∈ m.tables.items, e.2.blockIds.Nodup := fun e he =>
    hn e.1 e.2 (Dict.mem_items_iff.1 he)
  have hsum : ∀ l : List (ℕ × BlockTable), (∀ e ∈ l, e.2.blockIds.Nodup) →
      (l.countP fun e => b ∈ e.2.blockIds) = (l.map fun e => e.2.blockIds.count b).sum := by
    intro l
    induction l with
    | nil => intro _; rfl
    | cons e l ih =>
      intro hl
      rw [List.countP_cons, List.map_cons, List.sum_cons,
        ih fun e' he' => hl e' (List.mem_cons_of_mem _ he'), add_comm,
        (hl e List.mem_cons_self).count]
      simp
  rw [holders, references, hsum _ hitems]

/-- Nothing is lost: every count is the number of holders, and freeing every sequence returns
every block that the cache has not pinned. -/
structure CountsExact {κ : Type} (m : BlockManager) (c : PrefixCache κ) : Prop where
  counts : ∀ b, (m.refCount.lookup b).getD 0 = holders m c b
  freed : ∀ seqs, (∀ seq, seq ∈ m.tables → seq ∈ seqs) →
    (m.freeEach seqs).freeList.length + c.pins.toFinset.card = m.numBlocks

/-- `fork` raises and changes nothing, or loses nothing. -/
def ForkKeeps {κ : Type} (m : BlockManager) (c : PrefixCache κ) (parent child : ℕ) : Prop :=
  (∃ e, m.fork parent child = (.error e, m)) ∨ CountsExact (m.fork parent child).2 c

section Step

variable {κ : Type} {m : BlockManager} {c : PrefixCache κ}

/-- The counts of an accounted manager. -/
theorem BlockManager.Accounted.refCount_eq {pins : Multiset ℕ} (h : m.Accounted pins) (b : ℕ) :
    (m.refCount.lookup b).getD 0 = m.tableBlocks.count b + pins.count b := by
  rw [← Multiset.count_add, h.counted.lookup]
  split
  next => rfl
  next hb => exact (Multiset.count_eq_zero.2 hb).symm

/-- **Exact means nothing lost**, where the manager accounts for the pins of the cache and for
some lost references. -/
theorem countsExact_iff {lost : Multiset ℕ} (h : m.Accounted (lost + c.pins)) :
    CountsExact m c ↔ lost = 0 := by
  have hcount : ∀ b, (m.refCount.lookup b).getD 0 = lost.count b + holders m c b := by
    intro b
    rw [h.refCount_eq, holders_eq_references h.table_nodup, references_eq_count, Multiset.count_add,
      Multiset.count_add]
    omega
  constructor
  · intro hexact
    refine Multiset.eq_zero_iff_forall_notMem.2 fun b hb => ?_
    have hpos := Multiset.count_pos.2 hb
    have := hcount b
    have := hexact.counts b
    omega
  · rintro rfl
    rw [zero_add] at h
    refine ⟨fun b => by rw [hcount b, Multiset.count_zero, zero_add], fun seqs hall => ?_⟩
    obtain ⟨hacc, hnb, htab⟩ := BlockManager.freeEach_spec h seqs
    rw [← hnb]
    refine hacc.free_add_pins fun seq => ?_
    rw [htab seq]
    split
    next => rfl
    next hseq => exact AList.lookup_eq_none.2 fun hmem => hseq (hall seq hmem)

/-- **`fork` loses nothing iff it overwrites no table that lists a block.** -/
theorem fork_keeps_iff (h : m.Accounted c.pins) (parent child : ℕ) :
    ForkKeeps m c parent child ↔ m.ForkLosesNone parent child := by
  cases hp : m.tables.lookup parent with
  | none =>
    refine iff_of_true (Or.inl ⟨.KeyError, ?_⟩) (Or.inl hp)
    rw [BlockManager.fork, hp]
  | some p =>
    obtain ⟨m', heq, -, -, hacc⟩ := BlockManager.fork_accounted h child hp
    rw [ForkKeeps, heq, BlockManager.ForkLosesNone, countsExact_iff hacc, hp, Multiset.coe_eq_zero]
    constructor
    · rintro (⟨e, he⟩ | hnil)
      · cases congrArg Prod.fst he
      · exact Or.inr hnil
    · rintro (hnone | hnil)
      · cases hnone
      · exact Or.inr hnil

end Step

namespace Op

variable {κ : Type} [DecidableEq κ] {H : RollingHash κ} {numBlocks blockSize : ℕ}

/-- The pool after a history of operations on a new one, raising or not. -/
def run (H : RollingHash κ) (numBlocks blockSize : ℕ) (ops : List Op) : BlockManager × PrefixCache κ :=
  ops.foldl (fun s op => (op.exec H s.1 s.2).2) (.init numBlocks blockSize, .init blockSize)

/-- What the callers of an operation owe it, a fork nothing. -/
def Owed (m : BlockManager) (op : Op) : Prop := (∀ parent child, op ≠ .fork parent child) → op.Admissible m

/-- Every operation of the history is given what it is owed. -/
def AllOwed (H : RollingHash κ) (numBlocks blockSize : ℕ) (ops : List Op) : Prop :=
  ∀ ops₁ op, ops₁ ++ [op] <+: ops → op.Owed (run H numBlocks blockSize ops₁).1

/-- No fork of the history overwrites a table that lists a block. -/
def ForksLoseNone (H : RollingHash κ) (numBlocks blockSize : ℕ) (ops : List Op) : Prop :=
  ∀ ops₁ parent child, ops₁ ++ [.fork parent child] <+: ops →
    (run H numBlocks blockSize ops₁).1.ForkLosesNone parent child

theorem run_append (ops : List Op) (op : Op) :
    run H numBlocks blockSize (ops ++ [op]) =
      (op.exec H (run H numBlocks blockSize ops).1 (run H numBlocks blockSize ops).2).2 := by
  rw [run, List.foldl_append]
  rfl

/-- The loop of `insert` keeps the accounting, whatever else is counted. -/
theorem insertLoop_lost {lost : Multiset ℕ} (c : PrefixCache κ) (m : BlockManager)
    (kbs : List (κ × ℕ)) (h : m.Accounted (lost + c.pins)) :
    (c.insertLoop m kbs).2.2.Accounted (lost + (c.insertLoop m kbs).2.1.pins) ∧
      (c.insertLoop m kbs).2.2.blockSize = m.blockSize := by
  induction kbs generalizing c m with
  | nil => exact ⟨h, rfl⟩
  | cons kb kbs ih =>
    obtain ⟨key, blk⟩ := kb
    rw [PrefixCache.insertLoop]
    cases hl : c.nodes.lookup key with
    | none =>
      cases hk : m.refCount.lookup blk with
      | none =>
        rw [show m.addRef blk = (.error .KeyError, m) by rw [BlockManager.addRef, hk]]
        exact ⟨h, rfl⟩
      | some k =>
        obtain ⟨m₁, hadd, -, hbs, htab, -, hacc⟩ :=
          BlockManager.addRef_spec h.tallied ((h.counted.mem_iff blk).1 (Dict.mem_of_lookup hk))
        have hpins : PrefixCache.pins { c with nodes := c.nodes.insert key ⟨blk, c.clock⟩,
                                               misses := c.misses + 1 } = blk ::ₘ c.pins := by
          rw [PrefixCache.pins, Dict.total_insert_of_notMem _ (AList.lookup_eq_none.1 hl)]
          rfl
        simp only [hadd]
        obtain ⟨hacc', hbs'⟩ := ih _ m₁ (by
          rw [hpins, Multiset.add_cons]
          exact h.of_tables htab hacc)
        exact ⟨hacc', hbs'.trans hbs⟩
    | some node => exact ih _ m (by rw [PrefixCache.pins_touch c hl c.clock]; exact h)

/-- So does the loop of `evict` over cached nodes. -/
theorem evictLoop_lost {lost : Multiset ℕ} (c : PrefixCache κ) (m : BlockManager)
    (victims : List (κ × CacheNode)) (h : m.Accounted (lost + c.pins))
    (hv : ∀ v ∈ victims, c.nodes.lookup v.1 = some v.2) (hn : (victims.map Prod.fst).Nodup) :
    (c.evictLoop m victims).2.2.Accounted (lost + (c.evictLoop m victims).2.1.pins) ∧
      (c.evictLoop m victims).2.2.blockSize = m.blockSize := by
  induction victims generalizing c m with
  | nil => exact ⟨h, rfl⟩
  | cons v victims ih =>
    obtain ⟨key, node⟩ := v
    rw [List.map_cons, List.nodup_cons] at hn
    have hl : c.nodes.lookup key = some node := hv (key, node) List.mem_cons_self
    have hpins : c.pins = node.block ::ₘ PrefixCache.pins { c with nodes := c.nodes.erase key } := by
      rw [PrefixCache.pins, Dict.total_eq _ hl]
      rfl
    rw [hpins, Multiset.add_cons] at h
    obtain ⟨m₁, hrel, -, hbs, -, hacc⟩ := BlockManager.release_pin_spec h
    have hne : ∀ v ∈ victims, v.1 ≠ key := fun v hmem heq => hn.1 (List.mem_map.2 ⟨v, hmem, heq⟩)
    rw [PrefixCache.evictLoop]
    simp only [hrel]
    obtain ⟨hacc', hbs'⟩ := ih { c with nodes := c.nodes.erase key } m₁ hacc (fun v hmem => by
      show (c.nodes.erase key).lookup v.1 = some v.2
      rw [AList.lookup_erase_ne (hne v hmem)]
      exact hv v (List.mem_cons_of_mem _ hmem)) hn.2
    exact ⟨hacc', hbs'.trans hbs⟩

/-- **One operation** adds to what is lost the blocks of the table that it overwrites by a fork. -/
theorem exec_lost {m : BlockManager} {c : PrefixCache κ} {lost : Multiset ℕ} (op : Op)
    (h : m.Accounted (lost + c.pins)) (hbs : 0 < m.blockSize) (howed : op.Owed m) :
    ∃ gone : Multiset ℕ, (op.exec H m c).2.1.Accounted (gone + lost + (op.exec H m c).2.2.pins) ∧
      (op.exec H m c).2.1.blockSize = m.blockSize ∧
      (gone = 0 ↔ ∀ parent child, op = .fork parent child → m.ForkLosesNone parent child) := by
  have hno : (∀ parent child, op ≠ .fork parent child) → ((0 : Multiset ℕ) = 0 ↔
      ∀ parent child, op = .fork parent child → m.ForkLosesNone parent child) := fun hne =>
    iff_of_true rfl fun parent child heq => absurd heq (hne parent child)
  have hsame : (∀ parent child, op ≠ .fork parent child) →
      m.Accounted (0 + lost + c.pins) ∧ m.blockSize = m.blockSize ∧ ((0 : Multiset ℕ) = 0 ↔
        ∀ parent child, op = .fork parent child → m.ForkLosesNone parent child) := fun hne =>
    ⟨by rwa [zero_add], rfl, hno hne⟩
  cases op with
  | allocate seq n reuse =>
    obtain ⟨hr, hlive, hlen⟩ := howed fun _ _ => Op.noConfusion
    refine ⟨0, ?_⟩
    rw [exec]
    rcases BlockManager.allocate_spec h hbs seq n hr
        (fun b hb => (h.counted.mem_iff b).1 (hlive b hb)) hlen with
      ⟨-, msg, heq⟩ | ⟨-, -, msg, heq⟩ | ⟨-, new, m', heq, hext, -, hacc⟩
    · rw [heq]; exact hsame fun _ _ => Op.noConfusion
    · rw [heq]; exact hsame fun _ _ => Op.noConfusion
    · rw [heq, zero_add]; exact ⟨hacc, hext.blockSize, hno fun _ _ => Op.noConfusion⟩
  | appendToken seq =>
    refine ⟨0, ?_⟩
    rw [exec]
    cases ht : m.tables.lookup seq with
    | none =>
      rw [show m.appendToken seq = (.error .KeyError, m) by rw [BlockManager.appendToken, ht]]
      exact hsame fun _ _ => Op.noConfusion
    | some t =>
      rcases BlockManager.appendToken_spec h hbs ht with
        ⟨-, -, heq⟩ | ⟨new, b, m', heq, hext, -, -, hacc⟩
      · rw [heq]; exact hsame fun _ _ => Op.noConfusion
      · rw [heq, zero_add]; exact ⟨hacc, hext.blockSize, hno fun _ _ => Op.noConfusion⟩
  | reserve seq k =>
    refine ⟨0, ?_⟩
    rw [exec]
    cases ht : m.tables.lookup seq with
    | none =>
      rw [show m.reserve seq k = (.error .KeyError, m) by rw [BlockManager.reserve, ht]]
      exact hsame fun _ _ => Op.noConfusion
    | some t =>
      rcases BlockManager.reserve_spec h hbs ht k with ⟨-, msg, heq⟩ | ⟨new, m', heq, hext, -, -, hacc⟩
      · rw [heq]; exact hsame fun _ _ => Op.noConfusion
      · rw [heq, zero_add]; exact ⟨hacc, hext.blockSize, hno fun _ _ => Op.noConfusion⟩
  | truncate seq n =>
    refine ⟨0, ?_⟩
    rw [exec]
    cases ht : m.tables.lookup seq with
    | none =>
      rw [show m.truncate seq n = (.error .KeyError, m) by rw [BlockManager.truncate, ht]]
      exact hsame fun _ _ => Op.noConfusion
    | some t =>
      obtain ⟨m', heq, htouch, -, -, hacc⟩ := BlockManager.truncate_spec h hbs ht
        (howed (fun _ _ => Op.noConfusion) t ht)
      rw [heq, zero_add]
      exact ⟨hacc, htouch.blockSize, hno fun _ _ => Op.noConfusion⟩
  | free seq =>
    obtain ⟨m', heq, htouch, -, -, hacc⟩ := BlockManager.free_spec h seq
    refine ⟨0, ?_⟩
    rw [exec, heq, zero_add]
    exact ⟨hacc, htouch.blockSize, hno fun _ _ => Op.noConfusion⟩
  | fork parent child =>
    rw [exec]
    cases hp : m.tables.lookup parent with
    | none =>
      refine ⟨0, ?_⟩
      rw [show m.fork parent child = (.error .KeyError, m) by rw [BlockManager.fork, hp], zero_add]
      refine ⟨h, rfl, iff_of_true rfl fun p ch heq => ?_⟩
      obtain ⟨rfl, rfl⟩ := Op.fork.inj heq
      exact Or.inl hp
    | some p =>
      obtain ⟨m', heq, -, hbs', hacc⟩ := BlockManager.fork_accounted h child hp
      refine ⟨↑(m.blocksOf child), ?_⟩
      rw [heq, add_assoc, Multiset.coe_eq_zero]
      refine ⟨hacc, hbs', fun hnil p' ch' hop => ?_, fun hall => ?_⟩
      · obtain ⟨rfl, rfl⟩ := Op.fork.inj hop
        exact Or.inr hnil
      · exact (hall parent child rfl).resolve_left (by rw [hp]; simp)
  | insert toks seq =>
    refine ⟨0, ?_⟩
    rw [exec]
    cases ht : m.tables.lookup seq with
    | none =>
      rw [show m.blockTable seq = .error .KeyError by rw [BlockManager.blockTable, ht]]
      exact hsame fun _ _ => Op.noConfusion
    | some t =>
      rw [show m.blockTable seq = .ok t by rw [BlockManager.blockTable, ht], zero_add]
      obtain ⟨hacc, hbs'⟩ := insertLoop_lost { c with clock := c.clock + 1 } m
        ((PrefixCache.blockHashes H c.bs toks).zip t.blockIds) h
      exact ⟨hacc, hbs', hno fun _ _ => Op.noConfusion⟩
  | «match» toks =>
    have hp : (c.match H toks).2.pins = c.pins :=
      (PrefixCache.matchLoop_spec { c with clock := c.clock + 1 }
        (PrefixCache.blockHashes H c.bs toks)).1
    refine ⟨0, ?_⟩
    rw [exec]
    show m.Accounted (0 + lost + (c.match H toks).2.pins) ∧ _ ∧ _
    rw [hp]
    exact hsame fun _ _ => Op.noConfusion
  | evict k =>
    obtain ⟨hv, hn⟩ := c.victims_spec k
    obtain ⟨hacc, hbs'⟩ := evictLoop_lost c m _ h hv hn
    have hev : (c.evict m k).2 = (c.evictLoop m (sliceTo c.byLastUsed k)).2 := by
      rw [PrefixCache.evict]
      split <;> simp only [*]
    refine ⟨0, ?_⟩
    rw [zero_add]
    show (c.evict m k).2.2.Accounted (lost + (c.evict m k).2.1.pins) ∧ (c.evict m k).2.2.blockSize = _ ∧ _
    rw [hev]
    exact ⟨hacc, hbs', hno fun _ _ => Op.noConfusion⟩

/-- **Every history**, whatever the ids of its forks: the manager accounts for the pins of the
cache and for what the forks have lost. -/
theorem run_lost (hbs : 1 ≤ blockSize) (ops : List Op) (howed : AllOwed H numBlocks blockSize ops) :
    ∃ lost : Multiset ℕ, (run H numBlocks blockSize ops).1.Accounted
        (lost + (run H numBlocks blockSize ops).2.pins) ∧
      (run H numBlocks blockSize ops).1.blockSize = blockSize ∧
      (lost = 0 ↔ ForksLoseNone H numBlocks blockSize ops) := by
  induction ops using List.reverseRecOn with
  | nil =>
    refine ⟨0, BlockManager.init_accounted numBlocks blockSize, rfl, iff_of_true rfl ?_⟩
    intro ops₁ parent child hp
    exact absurd (List.prefix_nil.1 hp) (by simp)
  | append_singleton ops op ih =>
    obtain ⟨lost, hacc, hsize, hlost⟩ := ih fun ops₁ op' hp =>
      howed ops₁ op' (hp.trans (List.prefix_append _ _))
    obtain ⟨gone, hacc', hsize', hgone⟩ := exec_lost (H := H) op hacc (hsize.symm ▸ hbs)
      (howed ops op List.prefix_rfl)
    refine ⟨gone + lost, by rw [run_append]; exact hacc', by rw [run_append]; exact hsize'.trans hsize,
      ?_⟩
    have hadd : gone + lost = 0 ↔ gone = 0 ∧ lost = 0 := by
      simp only [← Multiset.card_eq_zero, Multiset.card_add]
      omega
    rw [hadd, hlost, hgone]
    constructor
    · rintro ⟨hop, hforks⟩ ops₁ parent child hp
      rcases List.prefix_concat_iff.1 hp with heq | hp
      · obtain ⟨rfl, hlast⟩ := List.append_inj' heq rfl
        exact hop parent child (List.singleton_inj.1 hlast).symm
      · exact hforks ops₁ parent child hp
    · intro h
      exact ⟨fun parent child heq => h ops parent child (heq ▸ List.prefix_rfl),
        fun ops₁ parent child hp => h ops₁ parent child (hp.trans (List.prefix_append _ _))⟩

end Op

open Op in
/-- Forking as promised: after every history, whatever the ids, `fork` raises and changes nothing
or loses nothing. -/
def ForkNeverLoses : Prop :=
  ∀ (κ : Type) [DecidableEq κ] (H : RollingHash κ) (numBlocks blockSize : ℕ), 1 ≤ blockSize →
    ∀ ops : List Op, AllOwed H numBlocks blockSize ops → ForksLoseNone H numBlocks blockSize ops →
      ∀ parent child, ForkKeeps (run H numBlocks blockSize ops).1 (run H numBlocks blockSize ops).2
        parent child

/-- One operation on a new pool. -/
theorem Op.allOwed_single {κ : Type} [DecidableEq κ] {H : RollingHash κ} {numBlocks blockSize : ℕ}
    {op : Op} (h : op.Owed (.init numBlocks blockSize)) : Op.AllOwed H numBlocks blockSize [op] := by
  intro ops₁ op' hp
  rcases List.prefix_concat_iff.1 (show _ <+: [] ++ [_] from hp) with heq | hp
  · obtain ⟨rfl, hop⟩ := List.append_inj' heq rfl
    obtain rfl := List.singleton_inj.1 hop
    exact h
  · exact absurd (List.prefix_nil.1 hp) (by simp)

theorem oneAllocated_owed : Op.AllOwed listHash 2 2 [.allocate 0 2 []] :=
  Op.allOwed_single fun _ => ⟨by decide, by decide, by decide⟩

theorem oneAllocated_forks : Op.ForksLoseNone listHash 2 2 [.allocate 0 2 []] := by
  intro ops₁ p ch hp
  rcases List.prefix_concat_iff.1 (show _ <+: [] ++ [_] from hp) with heq | hp
  · cases List.singleton_inj.1 (List.append_inj' heq rfl).2
  · exact absurd (List.prefix_nil.1 hp) (by simp)

/-- **A sequence forked to itself keeps its block for ever**: one table lists the block and its
count is two. -/
theorem fork_to_itself_loses : ¬ ForkNeverLoses := by
  intro h
  rcases h (List ℕ) listHash 2 2 (by decide) _ oneAllocated_owed oneAllocated_forks 0 0 with
    ⟨e, he⟩ | hexact
  · have hok : ((Op.run listHash 2 2 [.allocate 0 2 []]).1.fork 0 0).1.isOk = false := by rw [he]; rfl
    exact absurd hok (by decide +kernel)
  · exact absurd (hexact.counts 1) (by decide +kernel)

/-- **A history has lost nothing exactly if none of its forks overwrote a table that lists a
block**, and then the same decides the next fork. -/
theorem counts_exact_iff_forks_lose_none {κ : Type} [DecidableEq κ] (H : RollingHash κ)
    {numBlocks blockSize : ℕ} (hbs : 1 ≤ blockSize) (ops : List Op)
    (howed : Op.AllOwed H numBlocks blockSize ops) :
    (CountsExact (Op.run H numBlocks blockSize ops).1 (Op.run H numBlocks blockSize ops).2 ↔
      Op.ForksLoseNone H numBlocks blockSize ops) ∧
    (Op.ForksLoseNone H numBlocks blockSize ops → ∀ parent child,
      (ForkKeeps (Op.run H numBlocks blockSize ops).1 (Op.run H numBlocks blockSize ops).2
          parent child ↔
        (Op.run H numBlocks blockSize ops).1.ForkLosesNone parent child)) := by
  obtain ⟨lost, hacc, -, hlost⟩ := Op.run_lost hbs ops howed
  refine ⟨(countsExact_iff hacc).trans hlost, fun h parent child => ?_⟩
  rw [hlost.2 h, zero_add] at hacc
  exact fork_keeps_iff hacc parent child

/-- The hypotheses are satisfiable: a sequence forked to a new id. -/
theorem counts_exact_fork_new :
    ForkKeeps (Op.run listHash 2 2 [.allocate 0 2 []]).1 (Op.run listHash 2 2 [.allocate 0 2 []]).2 0 1 :=
  ((counts_exact_iff_forks_lose_none listHash (by decide) _ oneAllocated_owed).2
    oneAllocated_forks 0 1).2 (Or.inr (by decide +kernel))

end DiSpec
