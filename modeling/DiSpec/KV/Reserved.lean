/-
# What a reservation is worth

`reserve` measures the room of a table by the number of its blocks; `append_token`
asks only whether the length is a multiple of the block size, and then takes a block
whatever is attached already.  So a reservation holds for the tokens up to the next
block boundary (`reserve_guarantee`): on the boundary the sequence takes a block
from the pool although one is reserved, or raises when the pool is empty.

Nothing here asks for the accounting.  The manager may be in any state, and other
sequences may do anything between the calls (`Meanwhile`); all that is used is that an
operation writes no table but its own (`Op.exec_spares`).
-/

import DiSpec.KV.History

namespace DiSpec
namespace BlockManager

/-- `m'` is `m` but for the free list and the counts. -/
structure SameTables (m m' : BlockManager) : Prop where
  numBlocks : m'.numBlocks = m.numBlocks
  blockSize : m'.blockSize = m.blockSize
  tables : m'.tables = m.tables

theorem SameTables.refl (m : BlockManager) : SameTables m m := ⟨rfl, rfl, rfl⟩

theorem SameTables.trans {m₁ m₂ m₃ : BlockManager} (h : SameTables m₁ m₂) (h' : SameTables m₂ m₃) :
    SameTables m₁ m₃ :=
  ⟨h'.numBlocks.trans h.numBlocks, h'.blockSize.trans h.blockSize, h'.tables.trans h.tables⟩

theorem SameTables.touches {m m' : BlockManager} (h : SameTables m m') (seq : ℕ) : Touches m m' seq :=
  ⟨h.numBlocks, h.blockSize, fun s _ => by rw [h.tables]⟩

theorem allocBlock_tables (m : BlockManager) : SameTables m m.allocBlock.2 := by
  unfold allocBlock
  split
  · exact .refl m
  · exact ⟨rfl, rfl, rfl⟩

theorem allocBlocks_tables (m : BlockManager) (n : ℕ) : SameTables m (m.allocBlocks n).2 := by
  induction n generalizing m with
  | zero => exact .refl m
  | succ n ih =>
    have hone := m.allocBlock_tables
    rw [allocBlocks]
    rcases hm : m.allocBlock with ⟨x | b, m₁⟩
    · rwa [hm] at hone
    · rw [hm] at hone
      have hrest := hone.trans (ih m₁)
      simp only
      rcases hm' : m₁.allocBlocks n with ⟨x | bs, m₂⟩
      · rwa [hm'] at hrest
      · rwa [hm'] at hrest

theorem addRef_tables (m : BlockManager) (b : ℕ) : SameTables m (m.addRef b).2 := by
  unfold addRef
  split
  · exact .refl m
  · exact ⟨rfl, rfl, rfl⟩

theorem addRefs_tables (m : BlockManager) (bs : List ℕ) : SameTables m (m.addRefs bs).2 := by
  induction bs generalizing m with
  | nil => exact .refl m
  | cons b bs ih =>
    have hone := m.addRef_tables b
    rw [addRefs]
    rcases hm : m.addRef b with ⟨x | ⟨⟩, m₁⟩
    · rwa [hm] at hone
    · rw [hm] at hone
      exact hone.trans (ih m₁)

theorem release_tables (m : BlockManager) (b : ℕ) : SameTables m (m.release b).2 := by
  unfold release
  split
  · exact .refl m
  · split
    · exact ⟨rfl, rfl, rfl⟩
    · exact ⟨rfl, rfl, rfl⟩

theorem releaseAll_tables (m : BlockManager) (bs : List ℕ) : SameTables m (m.releaseAll bs).2 := by
  induction bs generalizing m with
  | nil => exact .refl m
  | cons b bs ih =>
    have hone := m.release_tables b
    rw [releaseAll]
    rcases hm : m.release b with ⟨x | ⟨⟩, m₁⟩
    · rwa [hm] at hone
    · rw [hm] at hone
      exact hone.trans (ih m₁)

/-! ### The operations in any state -/

theorem allocate_touches (m : BlockManager) (seq n : ℕ) (reuse : List ℕ) :
    Touches m (m.allocate seq n reuse).2 seq := by
  unfold allocate
  split
  · exact .refl m seq
  simp only
  split
  · exact .refl m seq
  have hrefs := m.addRefs_tables reuse
  rcases hm₁ : m.addRefs reuse with ⟨x | ⟨⟩, m₁⟩
  · rw [hm₁] at hrefs
    exact hrefs.touches seq
  rw [hm₁] at hrefs
  have halloc := hrefs.trans (m₁.allocBlocks_tables (m.blocksNeeded n - reuse.length))
  simp only
  rcases hm : m₁.allocBlocks (m.blocksNeeded n - reuse.length) with ⟨x | bs, m₂⟩
  · rw [hm] at halloc
    exact halloc.touches seq
  · rw [hm] at halloc
    exact (halloc.touches seq).trans touches_setTable

theorem appendToken_touches (m : BlockManager) (seq : ℕ) : Touches m (m.appendToken seq).2 seq := by
  rcases m.appendToken_cases seq with ⟨-, heq⟩ | ⟨t, -, ⟨-, -, heq⟩ | ⟨-, ids, m', htouch, -, hcase⟩⟩
  · rw [heq]
    exact .refl m seq
  · rw [heq]
    exact .refl m seq
  · rcases hcase with ⟨heq, -⟩ | ⟨s, heq, -⟩
    · rwa [heq]
    · rwa [heq]

/-- **`reserve` in any state.**  If it returns, the table has room for the tokens. -/
theorem reserve_any (m : BlockManager) (seq : ℕ) (k : ℤ) :
    Touches m (m.reserve seq k).2 seq ∧ ∀ t, m.tables.lookup seq = some t → 0 < m.blockSize →
      (m.reserve seq k).1 = .ok () → ∃ new,
        (m.reserve seq k).2.tables.lookup seq = some ⟨t.blockIds ++ new, t.numTokens⟩ ∧
        t.numTokens + k ≤ (t.blockIds ++ new).length * m.blockSize := by
  cases ht : m.tables.lookup seq with
  | none =>
    refine ⟨?_, by simp⟩
    rw [reserve, ht]
    exact .refl m seq
  | some t =>
    rw [reserve, ht]
    by_cases hlt : (t.blockIds.length * m.blockSize - t.numTokens : ℤ) < k
    · simp only [if_pos hlt]
      set extra := m.blocksNeeded (k - (t.blockIds.length * m.blockSize - t.numTokens)).toNat with hextra
      by_cases hfree : m.numFreeBlocks < extra
      · simp only [if_pos hfree]
        exact ⟨.refl m seq, by simp⟩
      obtain ⟨new, fr, rc, halloc, hnew, -, -⟩ := m.allocBlocks_spec extra (not_lt.1 hfree)
      simp only [if_neg hfree, halloc]
      refine ⟨touches_insert m seq ⟨t.blockIds ++ new, t.numTokens⟩ fr rc, fun t' ht' hbs _ => ?_⟩
      obtain rfl := Option.some.inj ht'
      have hge := m.blocksNeeded_mul_ge hbs (k - (t.blockIds.length * m.blockSize - t.numTokens)).toNat
      rw [← hextra, ← hnew] at hge
      have hroom := room_of_extra hge
      exact ⟨new, AList.lookup_insert _, by exact_mod_cast hroom⟩
    · simp only [if_neg hlt]
      refine ⟨.refl m seq, fun t' ht' _ _ => ?_⟩
      obtain rfl := Option.some.inj ht'
      refine ⟨[], by rw [List.append_nil]; exact ht, ?_⟩
      rw [List.append_nil]
      omega

theorem truncate_touches (m : BlockManager) (seq n : ℕ) : Touches m (m.truncate seq n).2 seq := by
  unfold truncate
  split
  · exact .refl m seq
  next t _ =>
    have hrel := m.releaseAll_tables (t.blockIds.drop (m.blocksNeeded n))
    simp only
    rcases hm : m.releaseAll (t.blockIds.drop (m.blocksNeeded n)) with ⟨x | ⟨⟩, m₁⟩
    · rw [hm] at hrel
      exact hrel.touches seq
    · rw [hm] at hrel
      exact (hrel.touches seq).trans touches_setTable

theorem free_touches (m : BlockManager) (seq : ℕ) : Touches m (m.free seq).2 seq := by
  unfold free
  split
  · exact .refl m seq
  next t _ =>
    have herase : Touches m { m with tables := m.tables.erase seq } seq :=
      ⟨rfl, rfl, fun s hs => AList.lookup_erase_ne hs⟩
    exact herase.trans ((releaseAll_tables { m with tables := m.tables.erase seq } t.blockIds).touches seq)

theorem fork_touches (m : BlockManager) (parent child : ℕ) : Touches m (m.fork parent child).2 child := by
  unfold fork
  split
  · exact .refl m child
  next p _ =>
    have hrefs := m.addRefs_tables p.blockIds
    rcases hm : m.addRefs p.blockIds with ⟨x | ⟨⟩, m₁⟩
    · rw [hm] at hrefs
      exact hrefs.touches child
    · rw [hm] at hrefs
      exact (hrefs.touches child).trans touches_setTable

/-- **`append_token` within the blocks of the table** takes none from the pool, off a block
boundary. -/
theorem appendToken_within {m : BlockManager} (hbs : 0 < m.blockSize) {seq : ℕ} {t : BlockTable}
    (ht : m.tables.lookup seq = some t) (hoff : t.numTokens % m.blockSize ≠ 0)
    (hroom : t.numTokens < t.blockIds.length * m.blockSize) :
    ∃ s m', m.appendToken seq = (.ok s, m') ∧ m'.freeList = m.freeList ∧ m'.blockSize = m.blockSize ∧
      m'.tables.lookup seq = some ⟨t.blockIds, t.numTokens + 1⟩ := by
  obtain ⟨b, -, hslot⟩ := slot_spec hbs hroom
  refine ⟨(b, t.numTokens % m.blockSize), m.setTable seq ⟨t.blockIds, t.numTokens + 1⟩, ?_, rfl, rfl,
    AList.lookup_insert _⟩
  rw [appendToken, ht]
  simp only [if_neg hoff, takeSlot, hslot]

end BlockManager

namespace PrefixCache

open BlockManager

variable {κ : Type} [DecidableEq κ]

theorem insertLoop_tables (c : PrefixCache κ) (m : BlockManager) (kbs : List (κ × ℕ)) :
    SameTables m (c.insertLoop m kbs).2.2 := by
  induction kbs generalizing c m with
  | nil => exact .refl m
  | cons kb kbs ih =>
    obtain ⟨key, blk⟩ := kb
    rw [insertLoop]
    cases c.nodes.lookup key with
    | none =>
      have hone := m.addRef_tables blk
      simp only
      rcases hm : m.addRef blk with ⟨x | ⟨⟩, m₁⟩
      · rwa [hm] at hone
      · rw [hm] at hone
        exact hone.trans (ih _ m₁)
    | some node => exact ih _ m

theorem evictLoop_tables (c : PrefixCache κ) (m : BlockManager) (victims : List (κ × CacheNode)) :
    SameTables m (c.evictLoop m victims).2.2 := by
  induction victims generalizing c m with
  | nil => exact .refl m
  | cons v victims ih =>
    obtain ⟨key, node⟩ := v
    have hone := m.release_tables node.block
    rw [evictLoop]
    rcases hm : m.release node.block with ⟨x | ⟨⟩, m₁⟩
    · rwa [hm] at hone
    · rw [hm] at hone
      exact hone.trans (ih _ m₁)

end PrefixCache

namespace Op

open BlockManager

variable {κ : Type} [DecidableEq κ]

/-- The operation is one of other sequences than `seq`, or of the prefix cache. -/
def Spares (seq : ℕ) : Op → Prop
  | .allocate s _ _ | .appendToken s | .reserve s _ | .truncate s _ | .free s | .fork _ s => s ≠ seq
  | .insert _ _ | .match _ | .evict _ => True

/-- **An operation writes no table but its own**, in any state and whether it raises or not. -/
theorem exec_spares (H : RollingHash κ) (m : BlockManager) (c : PrefixCache κ) {op : Op} {seq : ℕ}
    (h : op.Spares seq) : (op.exec H m c).2.1.tables.lookup seq = m.tables.lookup seq ∧
      (op.exec H m c).2.1.blockSize = m.blockSize := by
  have hkeep : ∀ {m' : BlockManager} {s : ℕ}, Touches m m' s → s ≠ seq →
      m'.tables.lookup seq = m.tables.lookup seq ∧ m'.blockSize = m.blockSize := fun ht hne =>
    ⟨ht.others seq hne.symm, ht.blockSize⟩
  have hsame : ∀ {m' : BlockManager}, SameTables m m' →
      m'.tables.lookup seq = m.tables.lookup seq ∧ m'.blockSize = m.blockSize := fun ht =>
    ⟨by rw [ht.tables], ht.blockSize⟩
  cases op with
  | allocate s n reuse => exact hkeep (m.allocate_touches s n reuse) h
  | appendToken s => exact hkeep (m.appendToken_touches s) h
  | reserve s k => exact hkeep (m.reserve_any s k).1 h
  | truncate s n => exact hkeep (m.truncate_touches s n) h
  | free s => exact hkeep (m.free_touches s) h
  | fork parent s => exact hkeep (m.fork_touches parent s) h
  | insert toks s =>
    rw [exec]
    cases m.blockTable s with
    | error x => exact ⟨rfl, rfl⟩
    | ok t => exact hsame (PrefixCache.insertLoop_tables _ m _)
  | «match» toks => exact ⟨rfl, rfl⟩
  | evict k =>
    have hloop := c.evictLoop_tables m (sliceTo c.byLastUsed k)
    rw [exec, PrefixCache.evict]
    rcases hm : c.evictLoop m (sliceTo c.byLastUsed k) with ⟨x | ⟨⟩, c', m'⟩
    · rw [hm] at hloop
      exact hsame hloop
    · rw [hm] at hloop
      exact hsame hloop

end Op

open BlockManager

section

variable {κ : Type} [DecidableEq κ] {H : RollingHash κ} {seq : ℕ}

/-- Other sequences run any operations, raising or not. -/
inductive Meanwhile (H : RollingHash κ) (seq : ℕ) (m : BlockManager) (c : PrefixCache κ) :
    BlockManager → PrefixCache κ → Prop
  | refl : Meanwhile H seq m c m c
  | step {m' c'} (op : Op) : Meanwhile H seq m c m' c' → op.Spares seq →
      Meanwhile H seq m c (op.exec H m' c').2.1 (op.exec H m' c').2.2

theorem Meanwhile.spares {m m' : BlockManager} {c c' : PrefixCache κ} (h : Meanwhile H seq m c m' c') :
    m'.tables.lookup seq = m.tables.lookup seq ∧ m'.blockSize = m.blockSize := by
  induction h with
  | refl => exact ⟨rfl, rfl⟩
  | step op _ hop ih =>
    obtain ⟨htab, hbs⟩ := op.exec_spares H _ _ hop
    exact ⟨htab.trans ih.1, hbs.trans ih.2⟩

/-- The next `k` calls `append_token(seq)` all return and take no block from the pool, whatever
other sequences do before each. -/
def Guaranteed (H : RollingHash κ) (seq : ℕ) : (k : ℕ) → BlockManager → PrefixCache κ → Prop
  | 0, _, _ => True
  | k + 1, m, c => ∀ m₁ c₁, Meanwhile H seq m c m₁ c₁ → ∃ s m₂, m₁.appendToken seq = (.ok s, m₂) ∧
      m₂.freeList = m₁.freeList ∧ Guaranteed H seq k m₂ c₁

/-- **With room for `k` tokens, exactly the appends off the block boundaries** take no block. -/
theorem guaranteed_iff {m : BlockManager} (c : PrefixCache κ) (hbs : 0 < m.blockSize) {t : BlockTable}
    (ht : m.tables.lookup seq = some t) {k : ℕ} (hroom : t.numTokens + k ≤ t.blockIds.length * m.blockSize) :
    Guaranteed H seq k m c ↔ ∀ i < k, (t.numTokens + i) % m.blockSize ≠ 0 := by
  induction k generalizing m c t with
  | zero => exact iff_of_true trivial fun i hi => absurd hi (Nat.not_lt_zero i)
  | succ k ih =>
    -- the first append, and the room that is left for the others
    have hnext : ∀ m₂ : BlockManager, m₂.blockSize = m.blockSize →
        m₂.tables.lookup seq = some ⟨t.blockIds, t.numTokens + 1⟩ → ∀ c₁,
        (Guaranteed H seq k m₂ c₁ ↔ ∀ i < k, (t.numTokens + (i + 1)) % m.blockSize ≠ 0) := by
      intro m₂ hbs₂ ht₂ c₁
      rw [ih c₁ (hbs₂ ▸ hbs) ht₂ (by rw [hbs₂]; dsimp only; omega), hbs₂]
      refine forall₂_congr fun i _ => ?_
      rw [show t.numTokens + 1 + i = t.numTokens + (i + 1) by omega]
    constructor
    · intro h
      obtain ⟨s, m₂, heq, hfree, hrest⟩ := h m c .refl
      have hoff : t.numTokens % m.blockSize ≠ 0 := by
        intro hzero
        rcases m.appendToken_cases seq with
          ⟨hnone, -⟩ | ⟨t', ht', ⟨-, -, herr⟩ | ⟨-, ids, m', -, hlen, hcase⟩⟩
        · rw [ht] at hnone
          cases hnone
        · cases heq.symm.trans herr
        · obtain rfl := Option.some.inj (ht.symm.trans ht')
          have hm' : m' = m₂ := by
            rcases hcase with ⟨herr, -⟩ | ⟨s', hok, -⟩
            · cases heq.symm.trans herr
            · exact ((Prod.mk.inj (heq.symm.trans hok)).2).symm
          rw [if_pos hzero, hm', hfree] at hlen
          omega
      obtain ⟨s', m', heq', -, hbs', ht'⟩ := appendToken_within hbs ht hoff (by omega)
      obtain rfl := (Prod.mk.inj (heq.symm.trans heq')).2
      rintro (_ | i) hi
      · exact hoff
      · exact (hnext m₂ hbs' ht' c).1 hrest i (by omega)
    · intro h m₁ c₁ hmean
      obtain ⟨htab, hbs₁⟩ := hmean.spares
      obtain ⟨s, m₂, heq, hfree, hbs₂, ht₂⟩ := appendToken_within (m := m₁) (hbs₁ ▸ hbs) (htab.trans ht)
        (by rw [hbs₁]; exact h 0 (Nat.succ_pos k)) (by rw [hbs₁]; omega)
      exact ⟨s, m₂, heq, hfree, (hnext m₂ (hbs₂.trans hbs₁) ht₂ c₁).2 fun i hi => h (i + 1) (by omega)⟩

end

/-- **What `reserve` guarantees.**  In every state: if `reserve(seq, k)` returns, the next `k`
appends all return and take no further block, whatever other sequences do in between, if
and only if none of them falls on a block boundary; and an append takes a block only from a
full table if and only if the sequence is off the boundary, its table is full, or there
is no block to take. -/
theorem reserve_guarantee {κ : Type} [DecidableEq κ] (H : RollingHash κ) (m : BlockManager)
    (c : PrefixCache κ) (hbs : 1 ≤ m.blockSize) (seq : ℕ) (t : BlockTable)
    (ht : m.tables.lookup seq = some t) :
    (∀ (k : ℕ) (m' : BlockManager), m.reserve seq k = (.ok (), m') →
      (Guaranteed H seq k m' c ↔ ∀ i < k, (t.numTokens + i) % m.blockSize ≠ 0)) ∧
    (((m.appendToken seq).2.numFreeBlocks < m.numFreeBlocks →
        t.blockIds.length * m.blockSize = t.numTokens) ↔
      (t.numTokens % m.blockSize ≠ 0 ∨ t.blockIds.length * m.blockSize = t.numTokens ∨
        m.freeList = [])) := by
  refine ⟨fun k m' hres => ?_, ?_⟩
  · obtain ⟨htouch, hroom⟩ := m.reserve_any seq k
    rw [hres] at htouch hroom
    obtain ⟨new, hnew, hle⟩ := hroom t ht hbs rfl
    have hbs' : m'.blockSize = m.blockSize := htouch.blockSize
    rw [guaranteed_iff c (hbs' ▸ hbs) hnew (by rw [hbs']; exact_mod_cast hle), hbs']
  · rcases m.appendToken_cases seq with
      ⟨hnone, -⟩ | ⟨t', ht', ⟨-, hnil, heq⟩ | ⟨hno, ids, m', -, hlen, hcase⟩⟩
    · rw [ht] at hnone
      cases hnone
    · rw [heq]
      exact iff_of_true (fun h => absurd h (lt_irrefl _)) (Or.inr (Or.inr hnil))
    · obtain rfl := Option.some.inj (ht.symm.trans ht')
      have hfree : (m.appendToken seq).2.numFreeBlocks = m'.freeList.length := by
        rcases hcase with ⟨heq, -⟩ | ⟨s, heq, -⟩
        · rw [heq]
          rfl
        · rw [heq]
          rfl
      rw [hfree, numFreeBlocks, hlen]
      by_cases hzero : t.numTokens % m.blockSize = 0
      · have hsome : m.freeList ≠ [] := fun h => hno ⟨hzero, h⟩
        simp [hsome, hzero]
      · simp [hzero]

/-- The hypotheses are satisfiable: one token in a block of four, two more reserved, and
another sequence that takes the last free block before they are appended. -/
theorem reserve_guarantee_within :
    let m := ((Op.allocate 1 1 []).exec listHash (.init 2 4) (.init 4)).2.1
    m.reserve 1 2 = (.ok (), m) ∧ Guaranteed listHash 1 2 m (.init 4) ∧
      ∃ s m₂, ((Op.allocate 2 4 []).exec listHash m (.init 4)).2.1.appendToken 1 = (.ok s, m₂) ∧
        m₂.freeList = [] := by
  intro m
  have hres : m.reserve 1 2 = (.ok (), m) := by rfl
  have h := ((reserve_guarantee listHash m (.init 4) (by decide) 1 ⟨[1], 1⟩ rfl).1 2 m hres).2 (by decide)
  obtain ⟨s, m₂, heq, hfree, -⟩ := h _ _ (.step (.allocate 2 4 []) .refl (by decide : 2 ≠ 1))
  exact ⟨hres, h, s, m₂, heq, hfree.trans (by decide +kernel)⟩

/-- **A reservation that does not hold.**  A full block of two tokens, and two more tokens
reserved in a second one.  The next append takes a third block although the table has room,
and raises in a pool of two. -/
theorem reserve_on_boundary :
    let m := ((Op.allocate 1 2 []).exec listHash (.init 3 2) (.init 2)).2.1
    let m₁ := (m.reserve 1 2).2
    let p := ((Op.allocate 1 2 []).exec listHash (.init 2 2) (.init 2)).2.1
    let p₁ := (p.reserve 1 2).2
    (Reachable listHash 3 2 m (.init 2) ∧ (m.reserve 1 2).1 = .ok () ∧
        m₁.tables.lookup 1 = some ⟨[2, 1], 2⟩ ∧
        (m₁.appendToken 1).2.tables.lookup 1 = some ⟨[2, 1, 0], 3⟩ ∧
        (m₁.appendToken 1).2.numFreeBlocks < m₁.numFreeBlocks) ∧
      Reachable listHash 2 2 p (.init 2) ∧ (p.reserve 1 2).1 = .ok () ∧
        (p₁.appendToken 1).1 = .error (.OutOfBlocksError "block pool exhausted") ∧
        ¬Guaranteed listHash 1 2 p₁ (.init 2) := by
  intro m m₁ p p₁
  have h₁ : (Op.allocate 1 2 []).Admissible (.init 3 2) := ⟨by decide, by decide, by decide⟩
  have h₂ : (Op.allocate 1 2 []).Admissible (.init 2 2) := ⟨by decide, by decide, by decide⟩
  have hraise : (p₁.appendToken 1).1 = .error (.OutOfBlocksError "block pool exhausted") := by
    decide +kernel
  refine ⟨⟨.step _ .init h₁, by decide +kernel, by decide +kernel, by decide +kernel, by decide +kernel⟩,
    .step _ .init h₂, by decide +kernel, hraise, fun h => ?_⟩
  obtain ⟨s, m₂, hok, -⟩ := h p₁ (.init 2) .refl
  rw [hok] at hraise
  cases hraise

end DiSpec
