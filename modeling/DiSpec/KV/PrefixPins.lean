/-
# What the prefix cache holds

Of the prefix cache the block manager sees only the references of its nodes:
`PrefixCache.pins` is the multiset of blocks the nodes hold.  `match` touches
stamps and leaves it alone, `insert` adds the blocks of the keys that were not
there, `evict` takes the victims' blocks out, and each of them keeps the
manager's accounting.
-/

import DiSpec.KV.Accounting

namespace DiSpec
namespace PrefixCache

open BlockManager

variable {κ : Type} [DecidableEq κ]

/-- The blocks held by the nodes, with multiplicity. -/
def pins (c : PrefixCache κ) : Multiset ℕ := Dict.total (fun _ n => {n.block}) c.nodes

theorem mem_pins {c : PrefixCache κ} {key : κ} {node : CacheNode}
    (h : c.nodes.lookup key = some node) : node.block ∈ c.pins := by
  rw [pins, Dict.total_eq _ h]
  exact Multiset.mem_add.2 (Or.inl (Multiset.mem_singleton_self _))

/-- A block is pinned by a node. -/
theorem of_mem_pins {c : PrefixCache κ} {b : ℕ} (h : b ∈ c.pins) :
    ∃ key, (c.nodes.lookup key).map CacheNode.block = some b := by
  obtain ⟨e, he, hb⟩ := Dict.mem_entries_of_mem_total h
  have hl : c.nodes.lookup e.1 = some e.2 := Dict.mem_entries_iff.1 he
  exact ⟨e.1, by rw [hl, Option.map_some, ← Multiset.mem_singleton.1 hb]⟩

/-- The nodes of `c'` are those of `c` with the same blocks under the same keys. -/
def SameBlocks (c c' : PrefixCache κ) : Prop :=
  ∀ key, (c'.nodes.lookup key).map CacheNode.block = (c.nodes.lookup key).map CacheNode.block

/-- Touching a node changes neither keys nor blocks. -/
theorem sameBlocks_touch (c : PrefixCache κ) {key : κ} {node : CacheNode}
    (h : c.nodes.lookup key = some node) (stamp : ℕ) :
    SameBlocks c { c with nodes := c.nodes.replace key { node with lastUsed := stamp } } := by
  intro k
  by_cases hk : k = key
  · subst hk
    rw [Dict.lookup_replace (Dict.mem_of_lookup h), h]
    rfl
  · rw [Dict.lookup_replace_ne hk]

theorem pins_touch (c : PrefixCache κ) {key : κ} {node : CacheNode}
    (h : c.nodes.lookup key = some node) (stamp : ℕ) :
    pins { c with nodes := c.nodes.replace key { node with lastUsed := stamp } } = c.pins :=
  Dict.total_replace (fun _ (n : CacheNode) => ({n.block} : Multiset ℕ)) h rfl

/-- **The loop of `match`** returns the blocks of a run of leading keys, each cached,
and changes neither keys nor blocks. -/
theorem matchLoop_spec (c : PrefixCache κ) (keys : List κ) :
    (c.matchLoop keys).2.pins = c.pins ∧ SameBlocks c (c.matchLoop keys).2 ∧
      (c.matchLoop keys).2.bs = c.bs ∧ (c.matchLoop keys).1.length ≤ keys.length ∧
      ∀ (i b : ℕ), (c.matchLoop keys).1[i]? = some b →
        ∃ key, keys[i]? = some key ∧ (c.nodes.lookup key).map CacheNode.block = some b := by
  induction keys generalizing c with
  | nil => exact ⟨rfl, fun _ => rfl, rfl, le_rfl, fun i b h => absurd h (by simp [matchLoop])⟩
  | cons key keys ih =>
    cases hl : c.nodes.lookup key with
    | none =>
      rw [matchLoop, hl]
      exact ⟨rfl, fun _ => rfl, rfl, Nat.zero_le _, fun i b h => absurd h (by simp)⟩
    | some node =>
      obtain ⟨hp, hs, hbs, hlen, hi⟩ :=
        ih { c with nodes := c.nodes.replace key { node with lastUsed := c.clock } }
      have htouch := sameBlocks_touch c hl c.clock
      rw [matchLoop, hl]
      refine ⟨hp.trans (pins_touch c hl c.clock), fun k => (hs k).trans (htouch k), hbs,
        Nat.succ_le_succ hlen, fun i b h => ?_⟩
      cases i with
      | zero =>
        rw [List.getElem?_cons_zero] at h
        exact ⟨key, rfl, by rw [hl]; exact h⟩
      | succ i =>
        rw [List.getElem?_cons_succ] at h
        obtain ⟨key', hk', hb⟩ := hi i b h
        exact ⟨key', by rw [List.getElem?_cons_succ]; exact hk', (htouch key').symm.trans hb⟩

/-- **The loop of `insert`** over blocks in use returns; a key keeps the block it
had, and a new key gets a block it is paired with. -/
theorem insertLoop_tallied (c : PrefixCache κ) (m : BlockManager) (kbs : List (κ × ℕ))
    (h : m.Tallied c.pins) (hlive : ∀ kb ∈ kbs, kb.2 ∈ m.tableBlocks + c.pins) :
    ∃ c' m', c.insertLoop m kbs = (.ok (), c', m') ∧ m'.Tallied c'.pins ∧
      m'.numBlocks = m.numBlocks ∧ m'.blockSize = m.blockSize ∧ m'.tables = m.tables ∧
      m'.freeList = m.freeList ∧ c'.bs = c.bs ∧ c.pins ≤ c'.pins ∧
      (∀ key b, (c.nodes.lookup key).map CacheNode.block = some b →
        (c'.nodes.lookup key).map CacheNode.block = some b) ∧
      ∀ key b, (c'.nodes.lookup key).map CacheNode.block = some b →
        (c.nodes.lookup key).map CacheNode.block = some b ∨
          c.nodes.lookup key = none ∧ (key, b) ∈ kbs := by
  induction kbs generalizing c m with
  | nil => exact ⟨c, m, rfl, h, rfl, rfl, rfl, rfl, rfl, le_rfl, fun _ _ h => h, fun _ _ h => Or.inl h⟩
  | cons kb kbs ih =>
    obtain ⟨key, blk⟩ := kb
    cases hl : c.nodes.lookup key with
    | none =>
      obtain ⟨m₁, hadd, hnb, hbs, htab, hfree, hacc⟩ := addRef_spec h (hlive (key, blk) (by simp))
      have hpins : pins { c with nodes := c.nodes.insert key ⟨blk, c.clock⟩,
                                  misses := c.misses + 1 } = blk ::ₘ c.pins := by
        rw [pins, Dict.total_insert_of_notMem _ (AList.lookup_eq_none.1 hl)]
        rfl
      obtain ⟨c', m', heq, hacc', hnb', hbs', htab', hfree', hcbs, hle, hold, hnew⟩ :=
        ih { c with nodes := c.nodes.insert key ⟨blk, c.clock⟩, misses := c.misses + 1 } m₁
          (hpins ▸ hacc) (fun kb hkb => by
            have := hlive kb (List.mem_cons_of_mem _ hkb)
            rw [hpins, tableBlocks, htab, Multiset.add_cons]
            exact Multiset.mem_cons_of_mem this)
      refine ⟨c', m', ?_, hacc', hnb'.trans hnb, hbs'.trans hbs, htab'.trans htab,
        hfree'.trans hfree, hcbs, ?_, fun k b hb => hold k b ?_, fun k b hb => ?_⟩
      · rw [insertLoop, hl]
        simp only [hadd]
        exact heq
      · exact (Multiset.le_cons_self _ blk).trans (hpins ▸ hle)
      · have hk : k ≠ key := by
          rintro rfl
          rw [hl] at hb
          exact absurd hb (by simp)
        rw [AList.lookup_insert_ne hk]
        exact hb
      · rcases hnew k b hb with hb | ⟨hk, hmem⟩
        · by_cases hk : k = key
          · subst hk
            rw [AList.lookup_insert] at hb
            obtain rfl := Option.some.inj hb
            exact Or.inr ⟨hl, List.mem_cons_self⟩
          · rw [AList.lookup_insert_ne hk] at hb
            exact Or.inl hb
        · rw [AList.lookup_insert_eq_none] at hk
          exact Or.inr ⟨hk.2, List.mem_cons_of_mem _ hmem⟩
    | some node =>
      have hpins := pins_touch c hl c.clock
      have htouch := sameBlocks_touch c hl c.clock
      obtain ⟨c', m', heq, hacc', hnb', hbs', htab', hfree', hcbs, hle, hold, hnew⟩ :=
        ih { c with nodes := c.nodes.replace key { node with lastUsed := c.clock } } m
          (hpins ▸ h) (fun kb hkb => hpins ▸ hlive kb (List.mem_cons_of_mem _ hkb))
      refine ⟨c', m', ?_, hacc', hnb', hbs', htab', hfree', hcbs, hpins ▸ hle,
        fun k b hb => hold k b ((htouch k).trans hb), fun k b hb => ?_⟩
      · rw [insertLoop, hl]
        exact heq
      · rcases hnew k b hb with hb | ⟨hk, hmem⟩
        · exact Or.inl ((htouch k).symm.trans hb)
        · refine Or.inr ⟨?_, List.mem_cons_of_mem _ hmem⟩
          have := htouch k
          rw [hk] at this
          exact Option.map_eq_none_iff.1 this.symm

/-- The same where no table repeats a block. -/
theorem insertLoop_spec (c : PrefixCache κ) (m : BlockManager) (kbs : List (κ × ℕ))
    (h : m.Accounted c.pins) (hlive : ∀ kb ∈ kbs, kb.2 ∈ m.tableBlocks + c.pins) :
    ∃ c' m', c.insertLoop m kbs = (.ok (), c', m') ∧ m'.Accounted c'.pins ∧
      m'.numBlocks = m.numBlocks ∧ m'.blockSize = m.blockSize ∧ m'.tables = m.tables ∧
      m'.freeList = m.freeList ∧ c'.bs = c.bs ∧ c.pins ≤ c'.pins ∧
      (∀ key b, (c.nodes.lookup key).map CacheNode.block = some b →
        (c'.nodes.lookup key).map CacheNode.block = some b) ∧
      ∀ key b, (c'.nodes.lookup key).map CacheNode.block = some b →
        (c.nodes.lookup key).map CacheNode.block = some b ∨
          c.nodes.lookup key = none ∧ (key, b) ∈ kbs := by
  obtain ⟨c', m', heq, ht, hnb, hbs, htab, hrest⟩ := insertLoop_tallied c m kbs h.tallied hlive
  exact ⟨c', m', heq, h.of_tables htab ht, hnb, hbs, htab, hrest⟩

/-- **The loop of `evict`** over cached nodes returns and takes their blocks out. -/
theorem evictLoop_spec (c : PrefixCache κ) (m : BlockManager) (victims : List (κ × CacheNode))
    (h : m.Accounted c.pins) (hv : ∀ v ∈ victims, c.nodes.lookup v.1 = some v.2)
    (hn : (victims.map Prod.fst).Nodup) :
    ∃ c' m', c.evictLoop m victims = (.ok (), c', m') ∧ m'.Accounted c'.pins ∧
      m'.numBlocks = m.numBlocks ∧ m'.blockSize = m.blockSize ∧ m'.tables = m.tables ∧
      c'.bs = c.bs ∧ ∀ key node, c'.nodes.lookup key = some node → c.nodes.lookup key = some node := by
  induction victims generalizing c m with
  | nil => exact ⟨c, m, rfl, h, rfl, rfl, rfl, rfl, fun _ _ h => h⟩
  | cons v victims ih =>
    obtain ⟨key, node⟩ := v
    rw [List.map_cons, List.nodup_cons] at hn
    have hl : c.nodes.lookup key = some node := hv (key, node) (by simp)
    have hpins : c.pins = node.block ::ₘ pins { c with nodes := c.nodes.erase key } := by
      rw [pins, Dict.total_eq _ hl]
      rfl
    obtain ⟨m₁, hrel, hnb, hbs, htab, hacc⟩ := release_pin_spec (hpins ▸ h)
    have hne : ∀ v ∈ victims, v.1 ≠ key := fun v hmem heq =>
      hn.1 (List.mem_map.2 ⟨v, hmem, heq⟩)
    obtain ⟨c', m', heq, hacc', hnb', hbs', htab', hcbs, hsub⟩ :=
      ih { c with nodes := c.nodes.erase key } m₁ hacc (fun v hmem => by
        show (c.nodes.erase key).lookup v.1 = some v.2
        rw [AList.lookup_erase_ne (hne v hmem)]
        exact hv v (List.mem_cons_of_mem _ hmem)) hn.2
    refine ⟨c', m', ?_, hacc', hnb'.trans hnb, hbs'.trans hbs, htab'.trans htab, hcbs,
      fun k n hk => ?_⟩
    · rw [evictLoop]
      simp only [hrel]
      exact heq
    · have hk' : (c.nodes.erase key).lookup k = some n := hsub k n hk
      by_cases hkk : k = key
      · rw [hkk, AList.lookup_erase] at hk'
        exact absurd hk' (by simp)
      · rwa [AList.lookup_erase_ne hkk] at hk'

/-- A slice to an index is a prefix. -/
theorem sliceTo_initial {α : Type} (xs : List α) (k : ℤ) : sliceTo xs k <+: xs := by
  unfold sliceTo
  split <;> exact List.take_prefix _ _

omit [DecidableEq κ] in
/-- Sorting by stamp moves the entries only. -/
theorem byLastUsed_perm (c : PrefixCache κ) : c.byLastUsed.Perm c.nodes.items := List.perm_insertionSort _ _

theorem mem_byLastUsed {c : PrefixCache κ} {e : κ × CacheNode} :
    e ∈ c.byLastUsed ↔ c.nodes.lookup e.1 = some e.2 :=
  c.byLastUsed_perm.mem_iff.trans Dict.mem_items_iff

omit [DecidableEq κ] in
theorem nodup_byLastUsed (c : PrefixCache κ) : (c.byLastUsed.map Prod.fst).Nodup :=
  (c.byLastUsed_perm.map Prod.fst).nodup_iff.2 (Dict.nodup_items c.nodes)

/-- The victims of `evict` are entries of the cache under distinct keys. -/
theorem victims_spec (c : PrefixCache κ) (k : ℤ) :
    (∀ v ∈ sliceTo c.byLastUsed k, c.nodes.lookup v.1 = some v.2) ∧
      ((sliceTo c.byLastUsed k).map Prod.fst).Nodup := by
  constructor
  · intro v hv
    exact mem_byLastUsed.1 ((sliceTo_initial _ k).mem hv)
  · exact c.nodup_byLastUsed.sublist ((sliceTo_initial _ k).sublist.map _)

end PrefixCache
end DiSpec
