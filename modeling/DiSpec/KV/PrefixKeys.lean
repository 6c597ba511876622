/-
# What the keys of the prefix cache stand for

The key of block `k` of a prompt is the rolling hash of its first `k + 1` blocks
of tokens (`rollingHash`); `_block_hashes` lists these keys.  If distinct token
prefixes have distinct hashes (`PrefixInjective`), a key determines the tokens it
was computed from, so what `match` finds and what `insert` registers can be read
as facts about token prefixes.
-/

import DiSpec.KV.History

namespace DiSpec

/-- The rolling hash of the first `k` blocks of `bs` tokens. -/
def rollingHash {κ : Type} (H : RollingHash κ) (bs : ℕ) : ℕ → List ℕ → κ
  | 0, _ => H.seed
  | k + 1, toks => H.hash (rollingHash H bs k toks) ((toks.drop (k * bs)).take bs)

/-- Distinct token prefixes of whole blocks have distinct rolling hashes. -/
def RollingHash.PrefixInjective {κ : Type} (H : RollingHash κ) (bs : ℕ) : Prop :=
  ∀ (k k' : ℕ) (toks toks' : List ℕ), (k + 1) * bs ≤ toks.length → (k' + 1) * bs ≤ toks'.length →
    rollingHash H bs (k + 1) toks = rollingHash H bs (k' + 1) toks' →
      toks.take ((k + 1) * bs) = toks'.take ((k' + 1) * bs)

/-- Equal keys of whole prefixes are keys of the same block index. -/
theorem RollingHash.PrefixInjective.index {κ : Type} {H : RollingHash κ} {bs : ℕ}
    (h : H.PrefixInjective bs) (hbs : 0 < bs) {k k' : ℕ} {toks toks' : List ℕ}
    (hk : (k + 1) * bs ≤ toks.length) (hk' : (k' + 1) * bs ≤ toks'.length)
    (heq : rollingHash H bs (k + 1) toks = rollingHash H bs (k' + 1) toks') : k = k' := by
  have hlen := congrArg List.length (h k k' toks toks' hk hk' heq)
  rw [List.length_take, List.length_take, min_eq_left hk, min_eq_left hk'] at hlen
  exact Nat.succ.inj (Nat.eq_of_mul_eq_mul_right hbs hlen)

/-- The tokens themselves are a hash without collisions. -/
theorem listHash_prefixInjective (bs : ℕ) : listHash.PrefixInjective bs := by
  have htake : ∀ k toks, rollingHash listHash bs k toks = toks.take (k * bs) := by
    intro k toks
    induction k with
    | zero => simp [rollingHash, listHash]
    | succ k ih =>
      rw [rollingHash, ih, Nat.succ_mul, List.take_add]
      rfl
  intro k k' toks toks' _ _ h
  rwa [htake, htake] at h

namespace PrefixCache

variable {κ : Type}

/-- The loop of `_block_hashes` from block `k` on. -/
theorem hashChain_getElem? (H : RollingHash κ) (bs : ℕ) (toks : List ℕ) (n k i : ℕ) (hi : i < n) :
    (hashChain H bs (rollingHash H bs k toks) n (toks.drop (k * bs)))[i]? =
      some (rollingHash H bs (k + i + 1) toks) := by
  induction n generalizing k i with
  | zero => omega
  | succ n ih =>
    rw [hashChain]
    cases i with
    | zero => rfl
    | succ i =>
      rw [List.getElem?_cons_succ, List.drop_drop,
        show k * bs + bs = (k + 1) * bs from (Nat.succ_mul k bs).symm,
        show k + (i + 1) + 1 = (k + 1) + i + 1 by omega]
      exact ih (k + 1) i (by omega)

theorem hashChain_length (H : RollingHash κ) (bs : ℕ) (h : κ) (n : ℕ) (toks : List ℕ) :
    (hashChain H bs h n toks).length = n := by
  induction n generalizing h toks with
  | zero => rfl
  | succ n ih => rw [hashChain, List.length_cons, ih]

/-- **The keys of a prompt are the rolling hashes of its whole blocks.** -/
theorem blockHashes_getElem? (H : RollingHash κ) (bs : ℕ) (toks : List ℕ) {i : ℕ}
    (hi : i < toks.length / bs) :
    (blockHashes H bs toks)[i]? = some (rollingHash H bs (i + 1) toks) := by
  have h := hashChain_getElem? H bs toks (toks.length / bs) 0 i hi
  rwa [Nat.zero_mul, List.drop_zero, Nat.zero_add] at h

theorem blockHashes_length (H : RollingHash κ) (bs : ℕ) (toks : List ℕ) :
    (blockHashes H bs toks).length = toks.length / bs := hashChain_length _ _ _ _ _

/-- A key in the list is the key of some whole block. -/
theorem of_blockHashes_getElem? {H : RollingHash κ} {bs : ℕ} {toks : List ℕ} {i : ℕ} {key : κ}
    (h : (blockHashes H bs toks)[i]? = some key) :
    i < toks.length / bs ∧ key = rollingHash H bs (i + 1) toks := by
  have hi : i < toks.length / bs := by
    rw [← blockHashes_length H bs toks]
    exact (List.getElem?_eq_some_iff.1 h).1
  rw [blockHashes_getElem? H bs toks hi] at h
  exact ⟨hi, (Option.some.inj h).symm⟩

variable [DecidableEq κ]

/-- A block held once is held under one key. -/
theorem key_unique {c : PrefixCache κ} (hn : c.pins.Nodup) {key key' : κ} {node node' : CacheNode}
    (h : c.nodes.lookup key = some node) (h' : c.nodes.lookup key' = some node')
    (hb : node.block = node'.block) : key = key' := by
  by_contra hne
  rw [pins, Dict.total_eq _ h, Multiset.singleton_add, Multiset.nodup_cons] at hn
  refine hn.1 ?_
  have hl : (c.nodes.erase key).lookup key' = some node' := by
    rw [AList.lookup_erase_ne (Ne.symm hne)]
    exact h'
  rw [Dict.total_eq _ hl, hb]
  exact Multiset.mem_add.2 (Or.inl (Multiset.mem_singleton_self _))

/-- **`match`** returns the blocks cached under the leading keys of the prompt, and
changes stamps and counters only. -/
theorem match_spec (H : RollingHash κ) (c : PrefixCache κ) (toks : List ℕ) :
    (c.match H toks).2.pins = c.pins ∧ SameBlocks c (c.match H toks).2 ∧
      (c.match H toks).2.bs = c.bs ∧ (c.match H toks).1.length ≤ toks.length / c.bs ∧
      ∀ (i b : ℕ), (c.match H toks).1[i]? = some b →
        (c.nodes.lookup (rollingHash H c.bs (i + 1) toks)).map CacheNode.block = some b := by
  obtain ⟨hp, hs, hbs, hlen, hi⟩ :=
    matchLoop_spec { c with clock := c.clock + 1 } (blockHashes H c.bs toks)
  rw [blockHashes_length] at hlen
  refine ⟨hp, hs, hbs, hlen, fun i b hb => ?_⟩
  obtain ⟨key, hkey, hblk⟩ := hi i b hb
  obtain ⟨-, rfl⟩ := of_blockHashes_getElem? hkey
  exact hblk

/-- The loop of `insert` pins no block twice, if new keys bring distinct blocks not yet held. -/
theorem insertLoop_nodup (c : PrefixCache κ) (m : BlockManager) (kbs : List (κ × ℕ))
    (hn : c.pins.Nodup)
    (hkbs : kbs.Pairwise fun kb kb' =>
      c.nodes.lookup kb.1 = none → c.nodes.lookup kb'.1 = none → kb.2 ≠ kb'.2)
    (hnew : ∀ kb ∈ kbs, c.nodes.lookup kb.1 = none → kb.2 ∉ c.pins) :
    (c.insertLoop m kbs).2.1.pins.Nodup := by
  induction kbs generalizing c m with
  | nil => exact hn
  | cons kb kbs ih =>
    obtain ⟨key, blk⟩ := kb
    obtain ⟨hhead, htail⟩ := List.pairwise_cons.1 hkbs
    cases hl : c.nodes.lookup key with
    | none =>
      rw [insertLoop, hl]
      rcases hadd : m.addRef blk with ⟨_ | _, m₁⟩
      · exact hn
      have hpins : pins { c with nodes := c.nodes.insert key ⟨blk, c.clock⟩,
                                  misses := c.misses + 1 } = blk ::ₘ c.pins := by
        rw [pins, Dict.total_insert_of_notMem _ (AList.lookup_eq_none.1 hl)]
        rfl
      -- a key that is still new was new before
      have hold : ∀ k, (c.nodes.insert key ⟨blk, c.clock⟩).lookup k = none → c.nodes.lookup k = none :=
        fun k hk => (AList.lookup_insert_eq_none.1 hk).2
      refine ih _ m₁ ?_ (htail.imp fun h hk hk' => h (hold _ hk) (hold _ hk')) fun kb hkb hk => ?_
      · rw [hpins]
        exact Multiset.nodup_cons.2 ⟨hnew (key, blk) List.mem_cons_self hl, hn⟩
      · rw [hpins, Multiset.mem_cons, not_or]
        exact ⟨Ne.symm (hhead kb hkb hl (hold _ hk)), hnew kb (List.mem_cons_of_mem _ hkb) (hold _ hk)⟩
    | some node =>
      have hpins := pins_touch c hl c.clock
      have hold : ∀ k, (c.nodes.replace key { node with lastUsed := c.clock }).lookup k = none →
          c.nodes.lookup k = none := by
        intro k hk
        have htouch := sameBlocks_touch c hl c.clock k
        rw [hk] at htouch
        exact Option.map_eq_none_iff.1 htouch.symm
      rw [insertLoop, hl]
      refine ih _ m (hpins ▸ hn) (htail.imp fun h hk hk' => h (hold _ hk) (hold _ hk')) fun kb hkb hk => ?_
      rw [hpins]
      exact hnew kb (List.mem_cons_of_mem _ hkb) (hold _ hk)

end PrefixCache

end DiSpec
