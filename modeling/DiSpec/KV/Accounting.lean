/-
# Block accounting

What the block manager is for: a block is free exactly while nobody refers to
it.  The abstract state is the multiset of references that are out: the
occurrences of each block over all block tables (`tableBlocks`) plus the blocks
the prefix cache has pinned (`pins`).  `Accounted` says that the free list and
the counts record this multiset (`RefCount.Counted`), that no table lists a
block twice and that every table has room for its tokens.

Each operation of `dispec/kv/block_manager.py` gets one specification: the cases
in which it raises, with the manager unchanged, and what it does otherwise, with
`Accounted` kept.  The callers of the manager use these and never unfold it.
-/

import DiSpec.KV.PrefixCache
import Mathlib.Algebra.Order.Group.Multiset
import Mathlib.Data.Finset.Range

namespace DiSpec
namespace BlockManager

/-- The blocks listed by all tables, with multiplicity. -/
def tableBlocks (m : BlockManager) : Multiset ℕ :=
  Dict.total (fun _ t => (t.blockIds : Multiset ℕ)) m.tables

/-- The counts record the references of the tables and of `pins`, and every table has room for
its tokens.  A table may list a block twice. -/
structure Tallied (m : BlockManager) (pins : Multiset ℕ) : Prop where
  counted : RefCount.Counted (Finset.range m.numBlocks) m.freeList m.refCount (m.tableBlocks + pins)
  capacity : ∀ seq t, m.tables.lookup seq = some t → t.numTokens ≤ t.blockIds.length * m.blockSize

/-- The manager records exactly the references of its tables and of `pins`. -/
structure Accounted (m : BlockManager) (pins : Multiset ℕ) : Prop where
  counted : RefCount.Counted (Finset.range m.numBlocks) m.freeList m.refCount (m.tableBlocks + pins)
  table_nodup : ∀ seq t, m.tables.lookup seq = some t → t.blockIds.Nodup
  capacity : ∀ seq t, m.tables.lookup seq = some t → t.numTokens ≤ t.blockIds.length * m.blockSize

theorem Accounted.tallied {m : BlockManager} {pins : Multiset ℕ} (h : m.Accounted pins) :
    m.Tallied pins := ⟨h.counted, h.capacity⟩

/-! ### Rounding -/

theorem blocksNeeded_mul_ge (m : BlockManager) (hbs : 0 < m.blockSize) (n : ℕ) :
    n ≤ m.blocksNeeded n * m.blockSize := by
  have h := Nat.lt_div_mul_add (a := n + m.blockSize - 1) hbs
  unfold blocksNeeded
  omega

/-- Blocks that do not cover all the tokens are no more than those needed. -/
theorem length_le_blocksNeeded (m : BlockManager) (hbs : 0 < m.blockSize) {ids : List ℕ} {n : ℕ}
    (hshort : ids = [] ∨ ids.length * m.blockSize < n) : ids.length ≤ m.blocksNeeded n := by
  rcases hshort with rfl | hlt
  · exact Nat.zero_le _
  · exact (Nat.lt_of_mul_lt_mul_right (hlt.trans_le (m.blocksNeeded_mul_ge hbs n))).le

/-- The blocks needed are the least number that has room for the tokens. -/
theorem blocksNeeded_le_iff (m : BlockManager) (hbs : 0 < m.blockSize) (n k : ℕ) :
    m.blocksNeeded n ≤ k ↔ n ≤ k * m.blockSize := by
  constructor
  · intro h
    exact (m.blocksNeeded_mul_ge hbs n).trans (Nat.mul_le_mul_right _ h)
  · intro h
    rw [blocksNeeded]
    refine Nat.le_of_lt_succ ((Nat.div_lt_iff_lt_mul hbs).2 ?_)
    rw [Nat.succ_mul]
    omega

/-- More tokens need no fewer blocks. -/
theorem blocksNeeded_mono (m : BlockManager) (hbs : 0 < m.blockSize) {n k : ℕ} (h : n ≤ k) :
    m.blocksNeeded n ≤ m.blocksNeeded k :=
  (m.blocksNeeded_le_iff hbs n _).2 (h.trans (m.blocksNeeded_mul_ge hbs k))

/-- One token more needs one block more exactly on a block boundary. -/
theorem blocksNeeded_succ (m : BlockManager) (hbs : 0 < m.blockSize) (n : ℕ) :
    m.blocksNeeded (n + 1) = m.blocksNeeded n + if n % m.blockSize = 0 then 1 else 0 := by
  have hn : n = m.blockSize * (n / m.blockSize) + n % m.blockSize := (Nat.div_add_mod _ _).symm
  have hlt := Nat.mod_lt n hbs
  generalize n / m.blockSize = q at hn
  generalize n % m.blockSize = r at hn hlt
  unfold blocksNeeded
  rw [show n + 1 + m.blockSize - 1 = r + m.blockSize * (q + 1) by rw [hn, Nat.mul_succ]; omega,
    Nat.add_mul_div_left _ _ hbs, Nat.div_eq_of_lt hlt]
  split
  next h0 =>
    subst h0
    rw [show n + m.blockSize - 1 = (m.blockSize - 1) + m.blockSize * q by omega,
      Nat.add_mul_div_left _ _ hbs, Nat.div_eq_of_lt (by omega)]
    omega
  next h0 =>
    rw [show n + m.blockSize - 1 = (r - 1) + m.blockSize * (q + 1) by rw [hn, Nat.mul_succ]; omega,
      Nat.add_mul_div_left _ _ hbs, Nat.div_eq_of_lt (by omega)]
    omega

/-! ### The loops over blocks -/

theorem allocBlock_nil {m : BlockManager} (h : m.freeList = []) :
    m.allocBlock = (.error (.OutOfBlocksError "block pool exhausted"), m) := by
  rw [allocBlock, h]
  rfl

theorem allocBlock_append {m : BlockManager} {fr : List ℕ} {b : ℕ} (h : m.freeList = fr ++ [b]) :
    m.allocBlock = (.ok b, { m with freeList := fr, refCount := m.refCount.insert b 1 }) := by
  rw [allocBlock, h]
  simp

/-- **`[_alloc_block() for _ in range(n)]` with enough free blocks** takes the last
`n` of the free stack, from its end. -/
theorem allocBlocks_spec (m : BlockManager) (n : ℕ) (hn : n ≤ m.freeList.length) :
    ∃ bs fr rc, m.allocBlocks n = (.ok bs, { m with freeList := fr, refCount := rc }) ∧
      bs.length = n ∧ m.freeList = fr ++ bs.reverse ∧
      ∀ U refs, RefCount.Counted U m.freeList m.refCount refs →
        RefCount.Counted U fr rc (↑bs + refs) := by
  induction n generalizing m with
  | zero => exact ⟨[], m.freeList, m.refCount, rfl, rfl, by simp, fun U refs h => by simpa using h⟩
  | succ n ih =>
    rcases List.eq_nil_or_concat m.freeList with h0 | ⟨fr₀, b, hfr⟩
    · rw [h0] at hn
      exact absurd hn (by simp)
    rw [List.concat_eq_append] at hfr
    obtain ⟨bs, fr, rc, heq, hlen, hsplit, hc⟩ :=
      ih { m with freeList := fr₀, refCount := m.refCount.insert b 1 } (by
        rw [hfr, List.length_append] at hn
        exact Nat.le_of_succ_le_succ hn)
    refine ⟨b :: bs, fr, rc, ?_, by simp [hlen], ?_, fun U refs h => ?_⟩
    · rw [allocBlocks, allocBlock_append hfr]
      simp only [heq]
    · rw [hfr, show fr₀ = fr ++ bs.reverse from hsplit, List.reverse_cons, List.append_assoc]
    · have h₁ := hc U (b ::ₘ refs) (RefCount.Counted.take (hfr ▸ h))
      rw [← Multiset.cons_coe, Multiset.cons_add, ← Multiset.add_cons]
      exact h₁

/-- **`for b in blocks: ref_count[b] += 1` over blocks in use.** -/
theorem addRefs_spec (m : BlockManager) (bs : List ℕ) (hbs : ∀ b ∈ bs, b ∈ m.refCount) :
    ∃ rc, m.addRefs bs = (.ok (), { m with refCount := rc }) ∧
      ∀ U refs, RefCount.Counted U m.freeList m.refCount refs →
        RefCount.Counted U m.freeList rc (↑bs + refs) := by
  induction bs generalizing m with
  | nil => exact ⟨m.refCount, rfl, fun U refs h => by simpa using h⟩
  | cons b bs ih =>
    obtain ⟨k, hk⟩ := Option.isSome_iff_exists.1 (AList.lookup_isSome.2 (hbs b (by simp)))
    obtain ⟨rc, heq, hc⟩ := ih { m with refCount := m.refCount.insert b (k + 1) } fun c hc =>
      (AList.mem_insert _).2 (Or.inr (hbs c (List.mem_cons_of_mem _ hc)))
    refine ⟨rc, ?_, fun U refs h => ?_⟩
    · rw [addRefs, addRef, hk]
      exact heq
    · rw [← Multiset.cons_coe, Multiset.cons_add, ← Multiset.add_cons]
      exact hc U (b ::ₘ refs) (h.incRef hk)

/-- `release` of a block with a reference. -/
theorem release_spec (m : BlockManager) {U : Finset ℕ} {b : ℕ} {refs : Multiset ℕ}
    (h : RefCount.Counted U m.freeList m.refCount (b ::ₘ refs)) :
    ∃ fr rc, m.release b = (.ok (), { m with freeList := m.freeList ++ fr, refCount := rc }) ∧
      RefCount.Counted U (m.freeList ++ fr) rc refs := by
  have hb := h.lookup_of_mem (Multiset.mem_cons_self b refs)
  rw [Multiset.count_cons_self] at hb
  by_cases h0 : refs.count b = 0
  · rw [h0] at hb
    refine ⟨[b], m.refCount.erase b, ?_, h.decRef_last hb⟩
    rw [release, hb]
    rfl
  · obtain ⟨k, hk⟩ := Nat.exists_eq_succ_of_ne_zero h0
    rw [hk] at hb
    refine ⟨[], m.refCount.insert b (k + 1), ?_, ?_⟩
    · rw [release, hb]
      simp
    · rw [List.append_nil]
      exact h.decRef hb

/-- **The decrement-and-free loop drops one reference for each block it is given.** -/
theorem releaseAll_spec (m : BlockManager) {U : Finset ℕ} {bs : List ℕ} {refs : Multiset ℕ}
    (h : RefCount.Counted U m.freeList m.refCount (↑bs + refs)) :
    ∃ fr rc, m.releaseAll bs = (.ok (), { m with freeList := m.freeList ++ fr, refCount := rc }) ∧
      RefCount.Counted U (m.freeList ++ fr) rc refs := by
  induction bs generalizing m with
  | nil => exact ⟨[], m.refCount, by simp [releaseAll], by simpa using h⟩
  | cons b bs ih =>
    rw [← Multiset.cons_coe, Multiset.cons_add] at h
    obtain ⟨fr, rc, heq, h₁⟩ := m.release_spec h
    obtain ⟨fr', rc', heq', h₂⟩ := ih { m with freeList := m.freeList ++ fr, refCount := rc } h₁
    refine ⟨fr ++ fr', rc', ?_, ?_⟩
    · rw [releaseAll, heq]
      simp only [heq', List.append_assoc]
    · rw [← List.append_assoc]
      exact h₂

/-! ### One table at a time -/

/-- The blocks listed by the tables other than that of `seq`. -/
def otherBlocks (m : BlockManager) (seq : ℕ) : Multiset ℕ :=
  Dict.total (fun _ t => (t.blockIds : Multiset ℕ)) (m.tables.erase seq)

theorem tableBlocks_eq {m : BlockManager} {seq : ℕ} {t : BlockTable}
    (h : m.tables.lookup seq = some t) : m.tableBlocks = ↑t.blockIds + m.otherBlocks seq :=
  Dict.total_eq _ h

theorem otherBlocks_of_none {m : BlockManager} {seq : ℕ} (h : m.tables.lookup seq = none) :
    m.otherBlocks seq = m.tableBlocks := by
  rw [otherBlocks, Dict.erase_of_notMem (AList.lookup_eq_none.1 h)]
  rfl

theorem mem_tableBlocks {m : BlockManager} {seq : ℕ} {t : BlockTable}
    (h : m.tables.lookup seq = some t) {b : ℕ} (hb : b ∈ t.blockIds) : b ∈ m.tableBlocks := by
  rw [tableBlocks_eq h]
  exact Multiset.mem_add.2 (Or.inl hb)

theorem mem_tableBlocks_iff {m : BlockManager} {b : ℕ} :
    b ∈ m.tableBlocks ↔ ∃ seq t, m.tables.lookup seq = some t ∧ b ∈ t.blockIds := by
  refine ⟨fun hb => ?_, fun ⟨seq, t, ht, hb⟩ => mem_tableBlocks ht hb⟩
  obtain ⟨⟨seq, t⟩, he, hb⟩ := Dict.mem_entries_of_mem_total hb
  exact ⟨seq, t, Dict.mem_entries_iff.1 he, hb⟩

/-- **With no pin the free blocks are those that no table lists.** -/
theorem Accounted.mem_free_iff {m : BlockManager} (h : m.Accounted 0) {b : ℕ} :
    b ∈ m.freeList ↔ b < m.numBlocks ∧ ∀ seq t, m.tables.lookup seq = some t → b ∉ t.blockIds := by
  rw [h.counted.free_iff, add_zero, Finset.mem_range, mem_tableBlocks_iff]
  refine and_congr_right fun _ => ?_
  constructor
  · intro hno seq t ht hb
    exact hno ⟨seq, t, ht, hb⟩
  · rintro hno ⟨seq, t, ht, hb⟩
    exact hno seq t ht hb

/-- `m'` is `m` but for the free list, the counts and the table of `seq`. -/
structure Touches (m m' : BlockManager) (seq : ℕ) : Prop where
  numBlocks : m'.numBlocks = m.numBlocks
  blockSize : m'.blockSize = m.blockSize
  others : ∀ s, s ≠ seq → m'.tables.lookup s = m.tables.lookup s

theorem Touches.refl (m : BlockManager) (seq : ℕ) : Touches m m seq := ⟨rfl, rfl, fun _ _ => rfl⟩

theorem Touches.trans {m₁ m₂ m₃ : BlockManager} {seq : ℕ} (h : Touches m₁ m₂ seq)
    (h' : Touches m₂ m₃ seq) : Touches m₁ m₃ seq :=
  ⟨h'.numBlocks.trans h.numBlocks, h'.blockSize.trans h.blockSize,
    fun s hs => (h'.others s hs).trans (h.others s hs)⟩

/-- `m'` is `m` with the last blocks of the free stack appended to the blocks `bs`
in the table of `seq`. -/
structure Extends (m m' : BlockManager) (seq : ℕ) (bs new : List ℕ) (n : ℕ) : Prop
    extends Touches m m' seq where
  freeList : m.freeList = m'.freeList ++ new.reverse
  table : m'.tables.lookup seq = some ⟨bs ++ new, n⟩

/-- **A table put in keeps the tally** if the counts record its blocks. -/
theorem Tallied.insert {m : BlockManager} {pins : Multiset ℕ} (h : m.Tallied pins) {seq : ℕ}
    {t : BlockTable} {fr : List ℕ} {rc : Dict ℕ ℕ}
    (hc : RefCount.Counted (Finset.range m.numBlocks) fr rc (↑t.blockIds + m.otherBlocks seq + pins))
    (hcap : t.numTokens ≤ t.blockIds.length * m.blockSize) :
    Tallied { m with freeList := fr, refCount := rc, tables := m.tables.insert seq t } pins where
  counted := by
    rw [tableBlocks, Dict.total_insert]
    exact hc
  capacity s t' hs := by
    by_cases hss : s = seq
    · subst hss
      rw [AList.lookup_insert] at hs
      exact Option.some.inj hs ▸ hcap
    · rw [AList.lookup_insert_ne hss] at hs
      exact h.capacity s t' hs

/-- **A table put in keeps the accounting** if besides it repeats no block. -/
theorem Accounted.insert {m : BlockManager} {pins : Multiset ℕ} (h : m.Accounted pins) {seq : ℕ}
    {t : BlockTable} {fr : List ℕ} {rc : Dict ℕ ℕ}
    (hc : RefCount.Counted (Finset.range m.numBlocks) fr rc (↑t.blockIds + m.otherBlocks seq + pins))
    (hn : t.blockIds.Nodup) (hcap : t.numTokens ≤ t.blockIds.length * m.blockSize) :
    Accounted { m with freeList := fr, refCount := rc, tables := m.tables.insert seq t } pins where
  counted := (h.tallied.insert hc hcap).counted
  table_nodup s t' hs := by
    by_cases hss : s = seq
    · subst hss
      rw [AList.lookup_insert] at hs
      exact Option.some.inj hs ▸ hn
    · rw [AList.lookup_insert_ne hss] at hs
      exact h.table_nodup s t' hs
  capacity := (h.tallied.insert hc hcap).capacity

theorem touches_insert (m : BlockManager) (seq : ℕ) (t : BlockTable) (fr : List ℕ) (rc : Dict ℕ ℕ) :
    Touches m { m with freeList := fr, refCount := rc, tables := m.tables.insert seq t } seq :=
  ⟨rfl, rfl, fun _ hs => AList.lookup_insert_ne hs⟩

theorem touches_setTable {m : BlockManager} {seq : ℕ} {t : BlockTable} :
    Touches m (m.setTable seq t) seq := touches_insert m seq t m.freeList m.refCount

/-- New blocks are free blocks, so nobody refers to them. -/
theorem Accounted.fresh {m : BlockManager} {pins : Multiset ℕ} (h : m.Accounted pins)
    {fr new : List ℕ} (hf : m.freeList = fr ++ new.reverse) :
    new.Nodup ∧ ∀ b ∈ new, b < m.numBlocks ∧ b ∉ m.tableBlocks ∧ b ∉ pins := by
  have hn := h.counted.free_nodup
  rw [hf] at hn
  refine ⟨List.nodup_reverse.1 hn.of_append_right, fun b hb => ?_⟩
  have hb' := (h.counted.free_iff b).1 (by rw [hf]; simp [hb])
  rw [Multiset.mem_add, not_or, Finset.mem_range] at hb'
  exact hb'

/-- Appending fresh blocks to a table without repetition keeps it so. -/
theorem Accounted.append_nodup {m : BlockManager} {pins : Multiset ℕ} (h : m.Accounted pins)
    {fr bs new : List ℕ} (hf : m.freeList = fr ++ new.reverse) (hbs : bs.Nodup)
    (hlive : ∀ b ∈ bs, b ∈ m.tableBlocks + pins) : (bs ++ new).Nodup := by
  obtain ⟨hn, hfresh⟩ := h.fresh hf
  rw [List.nodup_append]
  refine ⟨hbs, hn, fun x hx y hy hxy => ?_⟩
  subst hxy
  rcases Multiset.mem_add.1 (hlive x hx) with hx | hx
  · exact (hfresh x hy).2.1 hx
  · exact (hfresh x hy).2.2 hx

/-- **A table extended by fresh blocks** repeats none of them, if it repeated none before. -/
theorem Accounted.extends {m m' : BlockManager} {pins : Multiset ℕ} (h : m.Accounted pins) {seq n : ℕ}
    {bs new : List ℕ} (hext : Extends m m' seq bs new n) (ht : m'.Tallied pins) (hbs : bs.Nodup)
    (hlive : ∀ b ∈ bs, b ∈ m.tableBlocks + pins) : m'.Accounted pins := by
  refine ⟨ht.counted, fun s t hs => ?_, ht.capacity⟩
  rcases eq_or_ne s seq with rfl | hne
  · obtain rfl := Option.some.inj (hext.table.symm.trans hs)
    exact h.append_nodup hext.freeList hbs hlive
  · exact h.table_nodup s t ((hext.others s hne).symm.trans hs)

/-- The number of blocks needed depends on the block size only. -/
theorem blocksNeeded_congr {m m' : BlockManager} (h : m'.blockSize = m.blockSize) (n : ℕ) :
    m'.blocksNeeded n = m.blocksNeeded n := by
  unfold blocksNeeded
  rw [h]

/-- No block is listed by two tables. -/
def TablesDisjoint (m : BlockManager) : Prop :=
  ∀ r r' t t', r ≠ r' → m.tables.lookup r = some t → m.tables.lookup r' = some t' →
    ∀ b ∈ t.blockIds, b ∉ t'.blockIds

/-- Fresh blocks appended to one table keep the tables disjoint. -/
theorem TablesDisjoint.extends {m m' : BlockManager} {pins : Multiset ℕ} (h : m.TablesDisjoint)
    (hacc : m.Accounted pins) {seq n : ℕ} {bs new : List ℕ} (hext : Extends m m' seq bs new n)
    (hbs : bs = [] ∨ ∃ t, m.tables.lookup seq = some t ∧ t.blockIds = bs) : m'.TablesDisjoint := by
  obtain ⟨-, hfresh⟩ := hacc.fresh hext.freeList
  have hnew : ∀ r t', r ≠ seq → m'.tables.lookup r = some t' → ∀ b ∈ bs ++ new, b ∉ t'.blockIds := by
    intro r t' hr ht' b hb hb'
    rw [hext.others r hr] at ht'
    rcases List.mem_append.1 hb with hb | hb
    · rcases hbs with rfl | ⟨t, ht, rfl⟩
      · exact absurd hb List.not_mem_nil
      · exact h seq r t t' (Ne.symm hr) ht ht' b hb hb'
    · exact (hfresh b hb).2.1 (mem_tableBlocks ht' hb')
  intro r r' t t' hne ht ht' b hb hb'
  rcases eq_or_ne r seq with rfl | hr
  · rw [hext.table] at ht
    obtain rfl := Option.some.inj ht
    exact hnew r' t' (Ne.symm hne) ht' b hb hb'
  · rcases eq_or_ne r' seq with rfl | hr'
    · rw [hext.table] at ht'
      obtain rfl := Option.some.inj ht'
      exact hnew r t hr ht b hb' hb
    · rw [hext.others r hr] at ht
      rw [hext.others r' hr'] at ht'
      exact h r r' t t' hne ht ht' b hb hb'

/-- Tables with the blocks of disjoint tables are disjoint. -/
theorem TablesDisjoint.of_blocks {m m' : BlockManager} (h : m.TablesDisjoint)
    (hsub : ∀ r t', m'.tables.lookup r = some t' → ∃ t, m.tables.lookup r = some t ∧
      t'.blockIds = t.blockIds) : m'.TablesDisjoint := by
  intro r r' t t' hne ht ht' b hb hb'
  obtain ⟨u, hu, heq⟩ := hsub r t ht
  obtain ⟨u', hu', heq'⟩ := hsub r' t' ht'
  exact h r r' u u' hne hu hu' b (heq ▸ hb) (heq' ▸ hb')

/-- A step that touches one sequence, and gives it no other blocks, keeps the tables disjoint. -/
theorem TablesDisjoint.touches {m m' : BlockManager} {seq : ℕ} (h : m.TablesDisjoint)
    (htouch : Touches m m' seq)
    (hseq : ∀ t', m'.tables.lookup seq = some t' → ∃ t, m.tables.lookup seq = some t ∧
      t'.blockIds = t.blockIds) : m'.TablesDisjoint := by
  refine h.of_blocks fun r t' ht' => ?_
  rcases eq_or_ne r seq with rfl | hne
  · exact hseq t' ht'
  · exact ⟨t', (htouch.others r hne).symm.trans ht', rfl⟩

/-- So does another token count of a table. -/
theorem TablesDisjoint.setTokens {m : BlockManager} {seq : ℕ} {t : BlockTable} (h : m.TablesDisjoint)
    (ht : m.tables.lookup seq = some t) (n : ℕ) : (m.setTable seq ⟨t.blockIds, n⟩).TablesDisjoint := by
  refine h.touches touches_setTable fun t' ht' => ⟨t, ht, ?_⟩
  have hnew : (m.setTable seq ⟨t.blockIds, n⟩).tables.lookup seq = some ⟨t.blockIds, n⟩ :=
    AList.lookup_insert _
  obtain rfl := Option.some.inj (hnew.symm.trans ht')
  rfl

/-- The blocks of a table are blocks of the pool. -/
theorem Tallied.block_lt {m : BlockManager} {pins : Multiset ℕ} (h : m.Tallied pins) {seq : ℕ}
    {t : BlockTable} (ht : m.tables.lookup seq = some t) : ∀ b ∈ t.blockIds, b < m.numBlocks :=
  fun b hb => Finset.mem_range.1
    (h.counted.bounded b (Multiset.mem_add.2 (Or.inl (mem_tableBlocks ht hb))))

theorem Accounted.block_lt {m : BlockManager} {pins : Multiset ℕ} (h : m.Accounted pins) {seq : ℕ}
    {t : BlockTable} (ht : m.tables.lookup seq = some t) : ∀ b ∈ t.blockIds, b < m.numBlocks :=
  h.tallied.block_lt ht

/-- A table is no longer than the pool. -/
theorem Accounted.length_le {m : BlockManager} {pins : Multiset ℕ} (h : m.Accounted pins) {seq : ℕ}
    {t : BlockTable} (ht : m.tables.lookup seq = some t) : t.blockIds.length ≤ m.numBlocks := by
  have hsub : t.blockIds ⊆ List.range m.numBlocks := fun b hb =>
    List.mem_range.2 (h.block_lt ht b hb)
  simpa using (List.subperm_of_subset (h.table_nodup seq t ht) hsub).length_le

/-- The free blocks and those of a table are no more than the pool. -/
theorem Accounted.free_add_le {m : BlockManager} {pins : Multiset ℕ} (h : m.Accounted pins) {seq : ℕ}
    {t : BlockTable} (ht : m.tables.lookup seq = some t) :
    m.freeList.length + t.blockIds.length ≤ m.numBlocks := by
  have hn : (m.freeList ++ t.blockIds).Nodup := by
    rw [List.nodup_append]
    refine ⟨h.counted.free_nodup, h.table_nodup seq t ht, fun b hb b' hb' hbb => ?_⟩
    subst hbb
    exact ((h.counted.free_iff b).1 hb).2 (Multiset.mem_add.2 (Or.inl (mem_tableBlocks ht hb')))
  have hsub : m.freeList ++ t.blockIds ⊆ List.range m.numBlocks := fun b hb => by
    rw [List.mem_range]
    rcases List.mem_append.1 hb with hb | hb
    · exact Finset.mem_range.1 ((h.counted.free_iff b).1 hb).1
    · exact h.block_lt ht b hb
  have hle := (List.subperm_of_subset hn hsub).length_le
  rwa [List.length_append, List.length_range] at hle

/-- With no table and no pin every block is free. -/
theorem Accounted.free_all {m : BlockManager} (h : m.Accounted 0)
    (hno : ∀ seq, m.tables.lookup seq = none) : m.freeList.length = m.numBlocks := by
  have hnil : m.tables.entries = [] := by
    refine List.eq_nil_iff_forall_not_mem.2 fun e he => ?_
    have := hno e.1
    rw [(Dict.mem_entries_iff (k := e.1) (v := e.2)).1 he] at this
    exact absurd this (by simp)
  have hrefs : m.tableBlocks = 0 := by
    rw [tableBlocks, Dict.total, hnil]
    rfl
  have hperm : m.freeList.Perm (List.range m.numBlocks) := by
    refine (List.perm_ext_iff_of_nodup h.counted.free_nodup List.nodup_range).2 fun b => ?_
    rw [h.counted.free_iff, hrefs]
    simp
  simpa using hperm.length_eq

/-- Assigning `num_tokens` within the capacity keeps the tally. -/
theorem Tallied.setTokens {m : BlockManager} {pins : Multiset ℕ} (h : m.Tallied pins)
    {seq n : ℕ} {t : BlockTable} (ht : m.tables.lookup seq = some t)
    (hn : n ≤ t.blockIds.length * m.blockSize) :
    (m.setTable seq { t with numTokens := n }).Tallied pins := by
  refine h.insert (t := { t with numTokens := n }) ?_ hn
  have hc := h.counted
  rw [tableBlocks_eq ht] at hc
  exact hc

/-- It keeps the accounting as well. -/
theorem Accounted.setTokens {m : BlockManager} {pins : Multiset ℕ} (h : m.Accounted pins)
    {seq n : ℕ} {t : BlockTable} (ht : m.tables.lookup seq = some t)
    (hn : n ≤ t.blockIds.length * m.blockSize) :
    (m.setTable seq { t with numTokens := n }).Accounted pins := by
  refine h.insert (t := { t with numTokens := n }) ?_ (h.table_nodup seq t ht) hn
  have hc := h.counted
  rw [tableBlocks_eq ht] at hc
  exact hc

/-! ### The operations -/

variable {m : BlockManager} {pins : Multiset ℕ}

/-- **`allocate`.**  An id in use raises `ValueError`, too few free blocks raise
`OutOfBlocksError`, and nothing changes; otherwise the sequence gets `reuse`
followed by fresh blocks, `blocks_needed` in all. -/
theorem allocate_tallied (h : m.Tallied pins) (hbs : 0 < m.blockSize) (seq n : ℕ) {reuse : List ℕ}
    (hlive : ∀ b ∈ reuse, b ∈ m.tableBlocks + pins) (hlen : reuse.length ≤ m.blocksNeeded n) :
    (m.hasTable seq = true ∧ ∃ msg, m.allocate seq n reuse = (.error (.ValueError msg), m)) ∨
    (m.tables.lookup seq = none ∧ m.freeList.length < m.blocksNeeded n - reuse.length ∧
      ∃ msg, m.allocate seq n reuse = (.error (.OutOfBlocksError msg), m)) ∨
    (m.tables.lookup seq = none ∧ ∃ new m', m.allocate seq n reuse = (.ok ⟨reuse ++ new, n⟩, m') ∧
      Extends m m' seq reuse new n ∧ new.length = m.blocksNeeded n - reuse.length ∧
      m'.Tallied pins) := by
  by_cases hhas : m.hasTable seq = true
  · exact Or.inl ⟨hhas, _, by rw [allocate, if_pos hhas]⟩
  have hnone : m.tables.lookup seq = none := by
    rw [hasTable, Bool.not_eq_true, Option.isSome_eq_false_iff] at hhas
    exact Option.isNone_iff_eq_none.1 hhas
  refine Or.inr ?_
  by_cases hfree : m.freeList.length < m.blocksNeeded n - reuse.length
  · exact Or.inl ⟨hnone, hfree, _, by rw [allocate, if_neg hhas]; exact if_pos hfree⟩
  obtain ⟨rc₁, hadd, hc₁⟩ := m.addRefs_spec reuse fun b hb => (h.counted.mem_iff b).2 (hlive b hb)
  obtain ⟨new, fr, rc, halloc, hnew, hf, hc₂⟩ :=
    allocBlocks_spec { m with refCount := rc₁ } (m.blocksNeeded n - reuse.length) (not_lt.1 hfree)
  refine Or.inr ⟨hnone, new, _, ?_, ⟨touches_insert m seq ⟨reuse ++ new, n⟩ fr rc, hf,
    AList.lookup_insert _⟩, hnew, ?_⟩
  · rw [allocate, if_neg hhas]
    simp only [numFreeBlocks, if_neg hfree, hadd, halloc]
    rfl
  · refine h.insert ?_ ?_
    · have hc := hc₂ _ _ (hc₁ _ _ h.counted)
      rw [otherBlocks_of_none hnone, ← Multiset.coe_add, add_comm (reuse : Multiset ℕ), add_assoc,
        add_assoc]
      exact hc
    · rw [List.length_append, hnew, Nat.add_sub_cancel' hlen]
      exact m.blocksNeeded_mul_ge hbs n

/-- The same with distinct blocks to adopt. -/
theorem allocate_spec (h : m.Accounted pins) (hbs : 0 < m.blockSize) (seq n : ℕ) {reuse : List ℕ}
    (hr : reuse.Nodup) (hlive : ∀ b ∈ reuse, b ∈ m.tableBlocks + pins)
    (hlen : reuse.length ≤ m.blocksNeeded n) :
    (m.hasTable seq = true ∧ ∃ msg, m.allocate seq n reuse = (.error (.ValueError msg), m)) ∨
    (m.tables.lookup seq = none ∧ m.freeList.length < m.blocksNeeded n - reuse.length ∧
      ∃ msg, m.allocate seq n reuse = (.error (.OutOfBlocksError msg), m)) ∨
    (m.tables.lookup seq = none ∧ ∃ new m', m.allocate seq n reuse = (.ok ⟨reuse ++ new, n⟩, m') ∧
      Extends m m' seq reuse new n ∧ new.length = m.blocksNeeded n - reuse.length ∧
      m'.Accounted pins) :=
  (allocate_tallied h.tallied hbs seq n hlive hlen).imp_right <| Or.imp_right
    fun ⟨hno, new, m', heq, hext, hlen, ht⟩ =>
      ⟨hno, new, m', heq, hext, hlen, h.extends hext ht hr hlive⟩

/-- **`allocate` in any state**, with nothing to adopt. -/
theorem allocate_cases (m : BlockManager) (seq n : ℕ) :
    (∃ msg, m.allocate seq n [] = (.error (.ValueError msg), m)) ∨
    m.freeList.length < m.blocksNeeded n ∧
      (∃ msg, m.allocate seq n [] = (.error (.OutOfBlocksError msg), m)) ∨
    ∃ ids m', m.allocate seq n [] = (.ok ⟨ids, n⟩, m') ∧ Touches m m' seq ∧
      m.freeList.length = m'.freeList.length + m.blocksNeeded n := by
  by_cases hhas : m.hasTable seq = true
  · exact Or.inl ⟨_, by rw [allocate, if_pos hhas]⟩
  refine Or.inr ?_
  by_cases hfree : m.freeList.length < m.blocksNeeded n
  · exact Or.inl ⟨hfree, _, by rw [allocate, if_neg hhas]; exact if_pos hfree⟩
  obtain ⟨new, fr, rc, halloc, hnew, hf, -⟩ := m.allocBlocks_spec (m.blocksNeeded n) (not_lt.1 hfree)
  refine Or.inr ⟨new, _, ?_, touches_insert m seq ⟨new, n⟩ fr rc, ?_⟩
  · rw [allocate, if_neg hhas]
    simp only [numFreeBlocks, List.length_nil, Nat.sub_zero, if_neg hfree, addRefs, halloc,
      List.nil_append]
    rfl
  · rw [hf, List.length_append, List.length_reverse, hnew]

/-- `free` raises nothing but `KeyError`, in any state. -/
theorem free_raises (m : BlockManager) (seq : ℕ) (x : Exc) (h : (m.free seq).1 = .error x) :
    x = .KeyError := by
  have hall : ∀ (bs : List ℕ) (m : BlockManager), (m.releaseAll bs).1 = .error x → x = .KeyError := by
    intro bs
    induction bs with
    | nil =>
      intro m hm
      cases hm
    | cons b bs ih =>
      intro m hm
      rw [releaseAll, release] at hm
      cases hk : m.refCount.lookup b with
      | none =>
        simp only [hk] at hm
        exact (Except.error.inj hm).symm
      | some k =>
        simp only [hk] at hm
        by_cases h0 : k - 1 = 0
        · rw [if_pos h0] at hm
          exact ih _ hm
        · rw [if_neg h0] at hm
          exact ih _ hm
  unfold free at h
  split at h
  · cases h
  · exact hall _ _ h

/-- **`append_token` in any state.**  It raises `OutOfBlocksError` only on a block boundary with
no free block, and then nothing changes. -/
theorem appendToken_cases (m : BlockManager) (seq : ℕ) :
    (m.tables.lookup seq = none ∧ m.appendToken seq = (.error .KeyError, m)) ∨
    ∃ t, m.tables.lookup seq = some t ∧
      (t.numTokens % m.blockSize = 0 ∧ m.freeList = [] ∧
          m.appendToken seq = (.error (.OutOfBlocksError "block pool exhausted"), m) ∨
        ¬(t.numTokens % m.blockSize = 0 ∧ m.freeList = []) ∧
        ∃ ids m', Touches m m' seq ∧
          m.freeList.length = m'.freeList.length + (if t.numTokens % m.blockSize = 0 then 1 else 0) ∧
          (m.appendToken seq = (.error .IndexError, m') ∧
              m'.tables.lookup seq = some ⟨ids, t.numTokens⟩ ∨
            ∃ s, m.appendToken seq = (.ok s, m') ∧
              m'.tables.lookup seq = some ⟨ids, t.numTokens + 1⟩)) := by
  have htake : ∀ (m₁ : BlockManager) (t : BlockTable), ∃ m', Touches m₁ m' seq ∧
      m'.freeList = m₁.freeList ∧
      (m₁.takeSlot seq t = (.error .IndexError, m') ∧ m'.tables.lookup seq = some t ∨
        ∃ s, m₁.takeSlot seq t = (.ok s, m') ∧
          m'.tables.lookup seq = some ⟨t.blockIds, t.numTokens + 1⟩) := by
    intro m₁ t
    unfold takeSlot BlockTable.slot
    cases t.blockIds[t.numTokens / m₁.blockSize]? with
    | none => exact ⟨_, touches_setTable, rfl, Or.inl ⟨rfl, AList.lookup_insert _⟩⟩
    | some b => exact ⟨_, touches_setTable, rfl, Or.inr ⟨_, rfl, AList.lookup_insert _⟩⟩
  cases ht : m.tables.lookup seq with
  | none => exact Or.inl ⟨rfl, by rw [appendToken, ht]⟩
  | some t =>
    refine Or.inr ⟨t, rfl, ?_⟩
    by_cases hb : t.numTokens % m.blockSize = 0
    · rcases List.eq_nil_or_concat m.freeList with hnil | ⟨fr, b, hfr⟩
      · refine Or.inl ⟨hb, hnil, ?_⟩
        rw [appendToken, ht]
        simp only [if_pos hb, allocBlock_nil hnil]
      · rw [List.concat_eq_append] at hfr
        refine Or.inr ⟨fun h => by rw [h.2] at hfr; simp at hfr, ?_⟩
        obtain ⟨m', htouch, hfree, hcase⟩ :=
          htake { m with freeList := fr, refCount := m.refCount.insert b 1 }
            ⟨t.blockIds ++ [b], t.numTokens⟩
        have heq : m.appendToken seq = takeSlot { m with
            freeList := fr, refCount := m.refCount.insert b 1 } seq
              ⟨t.blockIds ++ [b], t.numTokens⟩ := by
          rw [appendToken, ht]
          simp only [if_pos hb, allocBlock_append hfr]
        refine ⟨t.blockIds ++ [b], m', ⟨htouch.numBlocks, htouch.blockSize, htouch.others⟩, ?_, ?_⟩
        · rw [hfree, if_pos hb, hfr, List.length_append]
          rfl
        · rw [heq]
          exact hcase
    · refine Or.inr ⟨fun h => hb h.1, ?_⟩
      obtain ⟨m', htouch, hfree, hcase⟩ := htake m t
      have heq : m.appendToken seq = m.takeSlot seq t := by
        rw [appendToken, ht]
        simp only [if_neg hb]
      refine ⟨t.blockIds, m', htouch, ?_, ?_⟩
      · rw [hfree, if_neg hb, Nat.add_zero]
      · rw [heq]
        exact hcase

/-- The slot of a position the table has room for. -/
theorem slot_spec {t : BlockTable} {bs pos : ℕ} (hbs : 0 < bs) (h : pos < t.blockIds.length * bs) :
    ∃ b, t.blockIds[pos / bs]? = some b ∧ t.slot bs pos = .ok (b, pos % bs) := by
  have hlt : pos / bs < t.blockIds.length := (Nat.div_lt_iff_lt_mul hbs).2 h
  refine ⟨t.blockIds[pos / bs], List.getElem?_eq_getElem hlt, ?_⟩
  rw [BlockTable.slot, List.getElem?_eq_getElem hlt]

/-- **`append_token`.**  On a block boundary with no free block it raises
`OutOfBlocksError` and nothing changes; otherwise it returns the slot of the next
position in the table, extended by one fresh block on a boundary. -/
theorem appendToken_tallied (h : m.Tallied pins) (hbs : 0 < m.blockSize) {seq : ℕ} {t : BlockTable}
    (ht : m.tables.lookup seq = some t) :
    (t.numTokens % m.blockSize = 0 ∧ m.freeList = [] ∧
      m.appendToken seq = (.error (.OutOfBlocksError "block pool exhausted"), m)) ∨
    ∃ new b m', m.appendToken seq = (.ok (b, t.numTokens % m.blockSize), m') ∧
      Extends m m' seq t.blockIds new (t.numTokens + 1) ∧
      new.length = (if t.numTokens % m.blockSize = 0 then 1 else 0) ∧
      (t.blockIds ++ new)[t.numTokens / m.blockSize]? = some b ∧ m'.Tallied pins := by
  have hcap := h.capacity seq t ht
  by_cases h0 : t.numTokens % m.blockSize = 0
  · rcases List.eq_nil_or_concat m.freeList with hnil | ⟨fr, b₀, hfr⟩
    · left
      refine ⟨h0, hnil, ?_⟩
      rw [appendToken, ht]
      simp only [if_pos h0, allocBlock_nil hnil]
    right
    rw [List.concat_eq_append] at hfr
    have hroom : t.numTokens < (t.blockIds ++ [b₀]).length * m.blockSize := by
      rw [List.length_append, List.length_singleton, Nat.add_mul, Nat.one_mul]
      omega
    obtain ⟨b, hb, hslot⟩ := slot_spec (t := ⟨t.blockIds ++ [b₀], t.numTokens⟩) hbs hroom
    refine ⟨[b₀], b, _, ?_, ⟨touches_insert m seq ⟨t.blockIds ++ [b₀], t.numTokens + 1⟩ fr
      (m.refCount.insert b₀ 1), hfr, AList.lookup_insert _⟩, by rw [if_pos h0]; rfl, hb, ?_⟩
    · rw [appendToken, ht]
      simp only [if_pos h0, allocBlock_append hfr, takeSlot, hslot]
      rfl
    · refine h.insert ?_ hroom
      have hc := RefCount.Counted.take (hfr ▸ h.counted)
      rw [tableBlocks_eq ht] at hc
      rw [← Multiset.coe_add, Multiset.coe_singleton, add_comm (t.blockIds : Multiset ℕ),
        Multiset.singleton_add, Multiset.cons_add, Multiset.cons_add]
      exact hc
  · right
    have hroom : t.numTokens < t.blockIds.length * m.blockSize := by
      refine lt_of_le_of_ne hcap fun heq => h0 ?_
      rw [heq]
      exact Nat.mul_mod_left _ _
    obtain ⟨b, hb, hslot⟩ := slot_spec hbs hroom
    refine ⟨[], b, _, ?_, ⟨touches_insert m seq ⟨t.blockIds, t.numTokens + 1⟩ m.freeList
      m.refCount, by simp, by rw [List.append_nil]; exact AList.lookup_insert _⟩,
      by rw [if_neg h0]; rfl, by rw [List.append_nil]; exact hb, ?_⟩
    · rw [appendToken, ht]
      simp only [if_neg h0, takeSlot, hslot]
      rfl
    · refine h.insert ?_ hroom
      have hc := h.counted
      rw [tableBlocks_eq ht] at hc
      exact hc

/-- The same for a table without repetition. -/
theorem appendToken_spec (h : m.Accounted pins) (hbs : 0 < m.blockSize) {seq : ℕ} {t : BlockTable}
    (ht : m.tables.lookup seq = some t) :
    (t.numTokens % m.blockSize = 0 ∧ m.freeList = [] ∧
      m.appendToken seq = (.error (.OutOfBlocksError "block pool exhausted"), m)) ∨
    ∃ new b m', m.appendToken seq = (.ok (b, t.numTokens % m.blockSize), m') ∧
      Extends m m' seq t.blockIds new (t.numTokens + 1) ∧
      new.length = (if t.numTokens % m.blockSize = 0 then 1 else 0) ∧
      (t.blockIds ++ new)[t.numTokens / m.blockSize]? = some b ∧ m'.Accounted pins :=
  (appendToken_tallied h.tallied hbs ht).imp_right
    fun ⟨new, b, m', heq, hext, hlen, hb, ht'⟩ => ⟨new, b, m', heq, hext, hlen, hb,
      h.extends hext ht' (h.table_nodup seq t ht) fun _ hb =>
        Multiset.mem_add.2 (Or.inl (mem_tableBlocks ht hb))⟩

/-- The blocks `reserve` takes for `k` future tokens of the table `t`. -/
def reserveExtra (m : BlockManager) (t : BlockTable) (k : ℤ) : ℕ :=
  if (t.blockIds.length * m.blockSize - t.numTokens : ℤ) < k then
    m.blocksNeeded (k - (t.blockIds.length * m.blockSize - t.numTokens)).toNat
  else 0

/-- The blocks that `reserve` appends make room for `k` more tokens. -/
theorem room_of_extra {blockSize numTokens : ℕ} {ids new : List ℕ} {k : ℤ}
    (hge : (k - (ids.length * blockSize - numTokens)).toNat ≤ new.length * blockSize) :
    (numTokens : ℤ) + k ≤ ((ids ++ new).length * blockSize : ℕ) := by
  have : ((k - (ids.length * blockSize - numTokens)).toNat : ℤ) ≤ (new.length * blockSize : ℕ) := by
    exact_mod_cast hge
  rw [List.length_append, Nat.add_mul]
  push_cast at this ⊢
  omega

/-- **`reserve`.**  Too few free blocks raise `OutOfBlocksError` and nothing
changes; otherwise fresh blocks are appended, and the table has room for `k` more
tokens. -/
theorem reserve_spec (h : m.Accounted pins) (hbs : 0 < m.blockSize) {seq : ℕ} {t : BlockTable}
    (ht : m.tables.lookup seq = some t) (k : ℤ) :
    (m.freeList.length < m.reserveExtra t k ∧
      ∃ msg, m.reserve seq k = (.error (.OutOfBlocksError msg), m)) ∨
    ∃ new m', m.reserve seq k = (.ok (), m') ∧ Extends m m' seq t.blockIds new t.numTokens ∧
      new.length = m.reserveExtra t k ∧
      (t.numTokens + k ≤ (t.blockIds ++ new).length * m.blockSize) ∧ m'.Accounted pins := by
  have hcap := h.capacity seq t ht
  by_cases hlt : (t.blockIds.length * m.blockSize - t.numTokens : ℤ) < k
  · have hextra : m.reserveExtra t k =
        m.blocksNeeded (k - (t.blockIds.length * m.blockSize - t.numTokens)).toNat := if_pos hlt
    by_cases hfree : m.freeList.length < m.reserveExtra t k
    · left
      refine ⟨hfree, ?_⟩
      rw [hextra] at hfree
      rw [reserve, ht]
      simp only [if_pos hlt, numFreeBlocks]
      exact ⟨_, if_pos hfree⟩
    right
    obtain ⟨new, fr, rc, halloc, hnew, hf, hc⟩ := m.allocBlocks_spec _ (not_lt.1 hfree)
    have hge := m.blocksNeeded_mul_ge hbs
      (k - (t.blockIds.length * m.blockSize - t.numTokens)).toNat
    rw [← hextra, ← hnew] at hge
    have hroom := room_of_extra hge
    refine ⟨new, _, ?_, ⟨touches_insert m seq ⟨t.blockIds ++ new, t.numTokens⟩ fr rc, hf,
      AList.lookup_insert _⟩, hnew, by exact_mod_cast hroom, ?_⟩
    · rw [hextra] at halloc hfree
      rw [reserve, ht]
      simp only [if_pos hlt, numFreeBlocks, if_neg hfree, halloc]
      rfl
    · refine h.insert ?_ (h.append_nodup hf (h.table_nodup seq t ht) fun b hb =>
        Multiset.mem_add.2 (Or.inl (mem_tableBlocks ht hb))) ?_
      · have := hc _ _ h.counted
        rw [tableBlocks_eq ht] at this
        rw [← Multiset.coe_add, add_comm (t.blockIds : Multiset ℕ), add_assoc, add_assoc,
          ← add_assoc (t.blockIds : Multiset ℕ)]
        exact this
      · exact hcap.trans (Nat.mul_le_mul_right _ (by simp))
  · right
    refine ⟨[], m, ?_, ⟨Touches.refl m seq, by simp, by rw [ht, List.append_nil]⟩,
      by rw [reserveExtra, if_neg hlt]; rfl, ?_, h⟩
    · rw [reserve, ht]
      simp only [if_neg hlt]
    · rw [List.append_nil]
      omega

/-- **`fork` to an id without a table** shares the parent's blocks. -/
theorem fork_spec (h : m.Accounted pins) {parent child : ℕ} {p : BlockTable}
    (hp : m.tables.lookup parent = some p) (hc : m.tables.lookup child = none) :
    ∃ m', m.fork parent child = (.ok p, m') ∧ Touches m m' child ∧ m'.freeList = m.freeList ∧
      m'.tables.lookup child = some p ∧ m'.Accounted pins := by
  obtain ⟨rc, hadd, hcount⟩ := m.addRefs_spec p.blockIds fun b hb =>
    (h.counted.mem_iff b).2 (Multiset.mem_add.2 (Or.inl (mem_tableBlocks hp hb)))
  refine ⟨_, ?_, touches_insert m child p m.freeList rc, rfl, AList.lookup_insert _, ?_⟩
  · rw [fork, hp]
    simp only [hadd]
    rfl
  · refine h.insert ?_ (h.table_nodup parent p hp) (h.capacity parent p hp)
    rw [otherBlocks_of_none hc, add_assoc]
    exact hcount _ _ h.counted

/-- **`truncate`** of any table to any length keeps the counts. -/
theorem truncate_counted
    (hc : RefCount.Counted (Finset.range m.numBlocks) m.freeList m.refCount (m.tableBlocks + pins))
    {seq : ℕ} {t : BlockTable} (ht : m.tables.lookup seq = some t) (n : ℕ) :
    ∃ m', m.truncate seq n = (.ok (), m') ∧ Touches m m' seq ∧ m.freeList <+: m'.freeList ∧
      m'.tables.lookup seq = some ⟨t.blockIds.take (m.blocksNeeded n), n⟩ ∧
      RefCount.Counted (Finset.range m'.numBlocks) m'.freeList m'.refCount (m'.tableBlocks + pins) := by
  rw [tableBlocks_eq ht, ← List.take_append_drop (m.blocksNeeded n) t.blockIds, ← Multiset.coe_add,
    add_comm (↑(t.blockIds.take (m.blocksNeeded n)) : Multiset ℕ), add_assoc, add_assoc] at hc
  obtain ⟨fr, rc, hrel, hc'⟩ := m.releaseAll_spec hc
  refine ⟨_, ?_, touches_insert m seq ⟨t.blockIds.take (m.blocksNeeded n), n⟩ (m.freeList ++ fr) rc,
    List.prefix_append _ _, AList.lookup_insert _, ?_⟩
  · rw [truncate, ht]
    simp only [hrel]
    rfl
  · rw [tableBlocks, Dict.total_insert, add_assoc]
    exact hc'

/-- **`truncate` to at most the current length** keeps the blocks of the first `n`
tokens. -/
theorem truncate_spec (h : m.Accounted pins) (hbs : 0 < m.blockSize) {seq n : ℕ} {t : BlockTable}
    (ht : m.tables.lookup seq = some t) (hn : n ≤ t.numTokens) :
    ∃ m', m.truncate seq n = (.ok (), m') ∧ Touches m m' seq ∧ m.freeList <+: m'.freeList ∧
      m'.tables.lookup seq = some ⟨t.blockIds.take (m.blocksNeeded n), n⟩ ∧ m'.Accounted pins := by
  obtain ⟨m', heq, htouch, hfree, htab, hc⟩ := truncate_counted h.counted ht n
  have hle : m.blocksNeeded n ≤ t.blockIds.length :=
    (m.blocksNeeded_le_iff hbs n _).2 (hn.trans (h.capacity seq t ht))
  refine ⟨m', heq, htouch, hfree, htab, hc, fun s t' hs => ?_, fun s t' hs => ?_⟩
  · rcases eq_or_ne s seq with rfl | hne
    · obtain rfl := Option.some.inj (htab.symm.trans hs)
      exact (h.table_nodup s t ht).sublist (List.take_sublist _ _)
    · exact h.table_nodup s t' ((htouch.others s hne).symm.trans hs)
  · rw [htouch.blockSize]
    rcases eq_or_ne s seq with rfl | hne
    · obtain rfl := Option.some.inj (htab.symm.trans hs)
      show n ≤ (t.blockIds.take _).length * _
      rw [List.length_take, min_eq_left hle]
      exact m.blocksNeeded_mul_ge hbs n
    · exact h.capacity s t' ((htouch.others s hne).symm.trans hs)

/-- **`free`** drops the table and its references; an unknown id changes nothing. -/
theorem free_tallied (h : m.Tallied pins) (seq : ℕ) :
    ∃ m', m.free seq = (.ok (), m') ∧ Touches m m' seq ∧ m.freeList <+: m'.freeList ∧
      m'.tables.lookup seq = none ∧ m'.Tallied pins := by
  cases ht : m.tables.lookup seq with
  | none =>
    refine ⟨m, ?_, Touches.refl m seq, List.prefix_rfl, ht, h⟩
    rw [free, ht]
  | some t =>
    have hc := h.counted
    rw [tableBlocks_eq ht, add_assoc] at hc
    obtain ⟨fr, rc, hrel, hc'⟩ :=
      releaseAll_spec { m with tables := m.tables.erase seq } (U := Finset.range m.numBlocks) hc
    have hothers : ∀ s, s ≠ seq → (m.tables.erase seq).lookup s = m.tables.lookup s :=
      fun s hs => AList.lookup_erase_ne hs
    refine ⟨{ m with tables := m.tables.erase seq, freeList := m.freeList ++ fr, refCount := rc },
      ?_, ⟨rfl, rfl, hothers⟩, List.prefix_append _ _, AList.lookup_erase _ _, hc', fun s t' hs => ?_⟩
    · rw [free, ht]
      exact hrel
    · rcases eq_or_ne s seq with rfl | hne
      · rw [AList.lookup_erase] at hs
        cases hs
      · exact h.capacity s t' ((hothers s hne).symm.trans hs)

/-- No table that is left repeats a block. -/
theorem free_spec (h : m.Accounted pins) (seq : ℕ) :
    ∃ m', m.free seq = (.ok (), m') ∧ Touches m m' seq ∧ m.freeList <+: m'.freeList ∧
      m'.tables.lookup seq = none ∧ m'.Accounted pins := by
  obtain ⟨m', heq, htouch, hfree, hnone, ht⟩ := free_tallied h.tallied seq
  refine ⟨m', heq, htouch, hfree, hnone, ht.counted, fun s t hs => ?_, ht.capacity⟩
  rcases eq_or_ne s seq with rfl | hne
  · rw [hnone] at hs
    cases hs
  · exact h.table_nodup s t ((htouch.others s hne).symm.trans hs)

/-- **`add_ref`** of a block in use records one more pin. -/
theorem addRef_spec (h : m.Tallied pins) {b : ℕ} (hb : b ∈ m.tableBlocks + pins) :
    ∃ m', m.addRef b = (.ok (), m') ∧ m'.numBlocks = m.numBlocks ∧ m'.blockSize = m.blockSize ∧
      m'.tables = m.tables ∧ m'.freeList = m.freeList ∧ m'.Tallied (b ::ₘ pins) := by
  have hk := h.counted.lookup_of_mem hb
  refine ⟨{ m with refCount := m.refCount.insert b ((m.tableBlocks + pins).count b + 1) }, ?_,
    rfl, rfl, rfl, rfl, ⟨?_, h.capacity⟩⟩
  · rw [addRef, hk]
  · have := h.counted.incRef hk
    rw [Multiset.add_cons]
    exact this

/-- Other counts for the same tables. -/
theorem Accounted.of_tables {m' : BlockManager} {pins' : Multiset ℕ} (h : m.Accounted pins)
    (htab : m'.tables = m.tables) (ht : m'.Tallied pins') : m'.Accounted pins' :=
  ⟨ht.counted, htab ▸ h.table_nodup, ht.capacity⟩

/-- **`release`** of a pinned block drops one pin. -/
theorem release_pin_spec {b : ℕ} (h : m.Accounted (b ::ₘ pins)) :
    ∃ m', m.release b = (.ok (), m') ∧ m'.numBlocks = m.numBlocks ∧ m'.blockSize = m.blockSize ∧
      m'.tables = m.tables ∧ m'.Accounted pins := by
  have hc := h.counted
  rw [Multiset.add_cons] at hc
  obtain ⟨fr, rc, hrel, hc'⟩ := m.release_spec hc
  exact ⟨_, hrel, rfl, rfl, rfl, ⟨hc', h.table_nodup, h.capacity⟩⟩

/-- A new manager refers to nothing. -/
theorem init_accounted (numBlocks blockSize : ℕ) : (init numBlocks blockSize).Accounted 0 where
  counted := by
    have hc := RefCount.Counted.init (List.nodup_range (n := numBlocks))
    have he : (List.range numBlocks).toFinset = Finset.range numBlocks := by ext; simp
    rw [he] at hc
    exact hc
  table_nodup seq t ht := by simp [init] at ht
  capacity seq t ht := by simp [init] at ht

end BlockManager
end DiSpec
