/-
# What eviction leaves behind

The keys of a prompt form a chain: a block can be found by `match` only if every block before
it is cached as well.  `PrefixClosed` says that the cache holds no block whose predecessors
are gone, and `prefixClosed_iff_retrievable` that this is the same as every cached block being
returned by `match` for the prompts it is cached for.

`match` and `insert` keep it.  They stamp the leading keys of one prompt with one tick, so a
prefix is never older than what continues it, the entries of one tick lie on one prompt, and of
two entries on one prompt the shorter was put in first (`Layered`).  `evict` sorts by the stamp
alone, and its sort is stable: among the entries of one tick the *shortest* prefix goes first.
So it keeps the cache closed exactly when it takes whole ticks (`WholeTicks`), and
`evict_closed_iff_wholeTicks` says this over whole histories.
-/

import DiSpec.KV.PrefixHits
import DiSpec.Lib.Cut

namespace DiSpec

section Keys

variable {κ : Type} {H : RollingHash κ} {bs : ℕ}

/-- Key `k` is of a shorter prefix of the tokens that `k'` is the key of. -/
def RollingHash.Above (H : RollingHash κ) (bs : ℕ) (k k' : κ) : Prop :=
  ∃ toks i j, i < j ∧ (j + 1) * bs ≤ toks.length ∧ k = rollingHash H bs (i + 1) toks ∧
    k' = rollingHash H bs (j + 1) toks

/-- A rolling hash reads no token after its blocks. -/
theorem rollingHash_congr {n : ℕ} {toks toks' : List ℕ} (h : toks.take (n * bs) = toks'.take (n * bs))
    {k : ℕ} (hk : k ≤ n) : rollingHash H bs k toks = rollingHash H bs k toks' := by
  induction k with
  | zero => rfl
  | succ k ih =>
    have hle : (k + 1) * bs ≤ n * bs := Nat.mul_le_mul_right bs hk
    have htake : ∀ ts : List ℕ,
        (ts.drop (k * bs)).take bs = ((ts.take (n * bs)).take ((k + 1) * bs)).drop (k * bs) := by
      intro ts
      rw [List.take_take, min_eq_left hle, List.drop_take, Nat.succ_mul, Nat.add_sub_cancel_left]
    rw [rollingHash, rollingHash, ih (by omega), htake toks, htake toks', h]

/-- **What lies above a key** of a prompt is a key of the same prompt, at a smaller index. -/
theorem RollingHash.Above.of_key (hinj : H.PrefixInjective bs) (hbs : 0 < bs) {k : κ} {toks : List ℕ}
    {i : ℕ} (hi : (i + 1) * bs ≤ toks.length) (h : H.Above bs k (rollingHash H bs (i + 1) toks)) :
    ∃ j < i, k = rollingHash H bs (j + 1) toks := by
  obtain ⟨toks', a, b, hab, hb, rfl, heq⟩ := h
  obtain rfl := hinj.index hbs hi hb heq
  exact ⟨a, hab, rollingHash_congr (hinj i i toks toks' hi hb heq).symm (by omega)⟩

end Keys

/-- The manager has at least the references that `pins` stands for. -/
def BlockManager.Holds (m : BlockManager) (pins : Multiset ℕ) : Prop :=
  ∀ b, pins.count b ≤ (m.refCount.lookup b).getD 0

/-- A manager that accounts for the pins holds them. -/
theorem BlockManager.Accounted.holds {m : BlockManager} {pins : Multiset ℕ} (h : m.Accounted pins) :
    m.Holds pins := by
  intro b
  rw [h.counted.lookup]
  split
  next => rw [Option.getD_some, Multiset.count_add]; omega
  next hb =>
    rw [Multiset.count_eq_zero.2 fun hp => hb (Multiset.mem_add.2 (Or.inr hp))]
    exact Nat.zero_le _

/-- Releasing a held block leaves the other references held. -/
theorem BlockManager.Holds.release {m : BlockManager} {pins : Multiset ℕ} {b : ℕ}
    (h : m.Holds (b ::ₘ pins)) : ∃ m', m.release b = (.ok (), m') ∧ m'.Holds pins := by
  have hb := h b
  rw [Multiset.count_cons_self] at hb
  cases hk : m.refCount.lookup b with
  | none => rw [hk] at hb; exact absurd hb (by simp)
  | some k =>
    rw [hk, Option.getD_some] at hb
    have hother : ∀ b', b' ≠ b → pins.count b' ≤ (m.refCount.lookup b').getD 0 := fun b' hne => by
      have := h b'
      rwa [Multiset.count_cons_of_ne hne] at this
    by_cases h0 : k - 1 = 0
    · refine ⟨{ m with refCount := m.refCount.erase b, freeList := m.freeList ++ [b] },
        by rw [BlockManager.release, hk]; exact if_pos h0, fun b' => ?_⟩
      rcases eq_or_ne b' b with rfl | hne
      · have : pins.count b' = 0 := by omega
        rw [this]
        exact Nat.zero_le _
      · rw [AList.lookup_erase_ne hne]
        exact hother b' hne
    · refine ⟨{ m with refCount := m.refCount.insert b (k - 1) },
        by rw [BlockManager.release, hk]; exact if_neg h0, fun b' => ?_⟩
      rcases eq_or_ne b' b with rfl | hne
      · rw [AList.lookup_insert, Option.getD_some]
        omega
      · rw [AList.lookup_insert_ne hne]
        exact hother b' hne

namespace PrefixCache

variable {κ : Type} [DecidableEq κ] {H : RollingHash κ} {c : PrefixCache κ}

/-- With a block of a prompt every block before it is cached. -/
def PrefixClosed (H : RollingHash κ) (c : PrefixCache κ) : Prop :=
  ∀ toks i, (i + 1) * c.bs ≤ toks.length → rollingHash H c.bs (i + 1) toks ∈ c.nodes →
    ∀ j ≤ i, rollingHash H c.bs (j + 1) toks ∈ c.nodes

/-- Every cached block is returned by `match` for the prompts whose block it is. -/
def Retrievable (H : RollingHash κ) (c : PrefixCache κ) : Prop :=
  ∀ toks i node, (i + 1) * c.bs ≤ toks.length →
    c.nodes.lookup (rollingHash H c.bs (i + 1) toks) = some node →
      (c.match H toks).1[i]? = some node.block

/-- How many entries `evict numBlocks` asks for. -/
def victimCount (c : PrefixCache κ) (numBlocks : ℤ) : ℕ :=
  if 0 ≤ numBlocks then min numBlocks.toNat c.nodes.items.length
  else c.nodes.items.length - numBlocks.natAbs

/-- `evict numBlocks` asks for as many entries as were last used before some tick. -/
def WholeTicks (c : PrefixCache κ) (numBlocks : ℤ) : Prop :=
  ∃ s, c.victimCount numBlocks = c.nodes.items.countP fun e => e.2.lastUsed < s

omit [DecidableEq κ] in
/-- The closure, one pair of keys at a time. -/
theorem prefixClosed_iff :
    c.PrefixClosed H ↔ ∀ k k', H.Above c.bs k k' → k' ∈ c.nodes → k ∈ c.nodes := by
  constructor
  · rintro h k k' ⟨toks, i, j, hij, hj, rfl, rfl⟩ hk'
    exact h toks j hj hk' i hij.le
  · intro h toks i hi hk j hj
    rcases eq_or_lt_of_le hj with rfl | hlt
    · exact hk
    · exact h _ _ ⟨toks, j, i, hlt, hi, rfl, rfl⟩ hk

/-! ### Reaching a block -/

/-- The loop of `match` gets as far as the keys are cached. -/
theorem matchLoop_length (c : PrefixCache κ) (keys : List κ) (n : ℕ)
    (h : ∀ j < n, ∃ key, keys[j]? = some key ∧ key ∈ c.nodes) : n ≤ (c.matchLoop keys).1.length := by
  induction n generalizing c keys with
  | zero => exact Nat.zero_le _
  | succ n ih =>
    obtain ⟨key, hkey, hmem⟩ := h 0 (Nat.succ_pos n)
    cases keys with
    | nil => cases hkey
    | cons key' keys =>
      obtain rfl := Option.some.inj hkey
      obtain ⟨node, hl⟩ := Option.isSome_iff_exists.1 (AList.lookup_isSome.2 hmem)
      rw [matchLoop, hl]
      refine Nat.succ_le_succ (ih _ keys fun j hj => ?_)
      obtain ⟨k, hk, hin⟩ := h (j + 1) (Nat.succ_lt_succ hj)
      refine ⟨k, by rwa [List.getElem?_cons_succ] at hk, ?_⟩
      exact (AList.mem_replace).2 hin

/-- **Closed means retrievable.** -/
theorem prefixClosed_iff_retrievable (hbs : 0 < c.bs) : c.PrefixClosed H ↔ c.Retrievable H := by
  have hget : ∀ toks i, (i + 1) * c.bs ≤ toks.length →
      (blockHashes H c.bs toks)[i]? = some (rollingHash H c.bs (i + 1) toks) := fun toks i hi =>
    blockHashes_getElem? H c.bs toks ((Nat.le_div_iff_mul_le hbs).2 hi)
  constructor
  · intro h toks i node hi hnode
    have hlen : i + 1 ≤ (c.match H toks).1.length := by
      refine matchLoop_length { c with clock := c.clock + 1 } _ (i + 1) fun j hj => ?_
      have hle : (j + 1) * c.bs ≤ toks.length := (Nat.mul_le_mul_right _ (by omega)).trans hi
      exact ⟨_, hget toks j hle, h toks i hi (Dict.mem_of_lookup hnode) j (by omega)⟩
    obtain ⟨-, -, -, -, hblk⟩ := match_spec H c toks
    have hb := hblk i _ (List.getElem?_eq_getElem (by omega))
    rw [hnode, Option.map_some] at hb
    rw [List.getElem?_eq_getElem (by omega), ← Option.some.inj hb]
  · intro h toks i hi hk j hj
    obtain ⟨node, hl⟩ := Option.isSome_iff_exists.1 (AList.lookup_isSome.2 hk)
    have hlt := (List.getElem?_eq_some_iff.1 (h toks i node hi hl)).1
    obtain ⟨-, -, -, -, hblk⟩ := match_spec H c toks
    have hb := hblk j _ (List.getElem?_eq_getElem (by omega))
    obtain ⟨node', hl', -⟩ := Option.map_eq_some_iff.1 hb
    exact Dict.mem_of_lookup hl'

/-! ### Stamps and order -/

/-- The cache is closed, no stamp is ahead of the clock, a prefix is stamped no earlier than
what continues it, entries of one stamp lie on one prompt, and of two entries on one prompt the
shorter was put in first. -/
structure Layered (H : RollingHash κ) (c : PrefixCache κ) : Prop where
  closed : ∀ k k', H.Above c.bs k k' → k' ∈ c.nodes → k ∈ c.nodes
  stamp_le : ∀ k n, c.nodes.lookup k = some n → n.lastUsed ≤ c.clock
  monotone : ∀ k k' n n', H.Above c.bs k k' → c.nodes.lookup k = some n →
    c.nodes.lookup k' = some n' → n'.lastUsed ≤ n.lastUsed
  comparable : ∀ k k' n n', c.nodes.lookup k = some n → c.nodes.lookup k' = some n' →
    n.lastUsed = n'.lastUsed → k = k' ∨ H.Above c.bs k k' ∨ H.Above c.bs k' k
  older : c.nodes.keys.Pairwise fun newer older => ¬ H.Above c.bs newer older

/-- Between two turns of the loop of `match` or `insert`: the first `i` keys of the prompt carry
the tick of the call, and no other entry does. -/
structure Touching (H : RollingHash κ) (c : PrefixCache κ) (toks : List ℕ) (i : ℕ) : Prop
    extends Layered H c where
  touched : ∀ j < i, ∃ n, c.nodes.lookup (rollingHash H c.bs (j + 1) toks) = some n ∧
    n.lastUsed = c.clock
  only : ∀ k n, c.nodes.lookup k = some n → n.lastUsed = c.clock →
    ∃ j < i, k = rollingHash H c.bs (j + 1) toks

/-- A new cache. -/
theorem layered_init (bs : ℕ) : Layered H (init bs : PrefixCache κ) where
  closed _ k' _ hk' := absurd hk' (AList.notMem_empty k')
  stamp_le k n h := by simp [init] at h
  monotone k k' n n' _ h := by simp [init] at h
  comparable k k' n n' h := by simp [init] at h
  older := List.Pairwise.nil

/-- **A call begins** with no entry at its tick. -/
theorem Layered.touching (h : Layered H c) (toks : List ℕ) :
    Touching H { c with clock := c.clock + 1 } toks 0 where
  closed := h.closed
  stamp_le k n hl := (h.stamp_le k n hl).trans (Nat.le_succ _)
  monotone := h.monotone
  comparable := h.comparable
  older := h.older
  touched j hj := absurd hj (Nat.not_lt_zero j)
  only k n hl heq := by
    have hle : n.lastUsed ≤ c.clock := h.stamp_le k n hl
    have heq' : n.lastUsed = c.clock + 1 := heq
    omega

/-- **One turn**: the next key of the prompt gets the tick of the call. -/
theorem Touching.put {toks : List ℕ} {i : ℕ} (h : Touching H c toks i) (hinj : H.PrefixInjective c.bs)
    (hbs : 0 < c.bs) (hi : (i + 1) * c.bs ≤ toks.length) {nodes : Dict κ CacheNode} {blk misses : ℕ}
    (hself : nodes.lookup (rollingHash H c.bs (i + 1) toks) = some ⟨blk, c.clock⟩)
    (hother : ∀ k, k ≠ rollingHash H c.bs (i + 1) toks → nodes.lookup k = c.nodes.lookup k)
    (holder : nodes.keys.Pairwise fun newer older => ¬ H.Above c.bs newer older) :
    Touching H { c with nodes := nodes, misses := misses } toks (i + 1) := by
  have hmem : ∀ k, k ∈ nodes ↔ k = rollingHash H c.bs (i + 1) toks ∨ k ∈ c.nodes := by
    intro k
    rcases eq_or_ne k (rollingHash H c.bs (i + 1) toks) with rfl | hne
    · exact iff_of_true (Dict.mem_of_lookup hself) (Or.inl rfl)
    · rw [← AList.lookup_isSome, hother k hne, AList.lookup_isSome]
      exact ⟨Or.inr, fun hk => hk.resolve_left hne⟩
  -- what lies above the new key was touched before it
  have habove : ∀ k, H.Above c.bs k (rollingHash H c.bs (i + 1) toks) →
      ∃ n, c.nodes.lookup k = some n ∧ n.lastUsed = c.clock := by
    intro k hk
    obtain ⟨j, hj, rfl⟩ := hk.of_key hinj hbs hi
    exact h.touched j hj
  have hbelow : ∀ j < i, H.Above c.bs (rollingHash H c.bs (j + 1) toks)
      (rollingHash H c.bs (i + 1) toks) := fun j hj => ⟨toks, j, i, hj, hi, rfl, rfl⟩
  refine ⟨⟨fun k k' hkk' hk' => ?_, fun k n hl => ?_, fun k k' n n' hkk' hl hl' => ?_,
    fun k k' n n' hl hl' heq => ?_, holder⟩, fun j hj => ?_, fun k n hl heq => ?_⟩
  · refine (hmem k).2 ?_
    rcases (hmem k').1 hk' with rfl | hold
    · obtain ⟨n, hl, -⟩ := habove k hkk'
      exact Or.inr (Dict.mem_of_lookup hl)
    · exact Or.inr (h.closed k k' hkk' hold)
  · rcases eq_or_ne k (rollingHash H c.bs (i + 1) toks) with rfl | hne
    · obtain rfl := Option.some.inj (hself.symm.trans hl)
      exact le_rfl
    · exact h.stamp_le k n ((hother k hne).symm.trans hl)
  · have hle' : n'.lastUsed ≤ c.clock := by
      rcases eq_or_ne k' (rollingHash H c.bs (i + 1) toks) with rfl | hne'
      · obtain rfl := Option.some.inj (hself.symm.trans hl')
        exact le_rfl
      · exact h.stamp_le k' n' ((hother k' hne').symm.trans hl')
    rcases eq_or_ne k (rollingHash H c.bs (i + 1) toks) with rfl | hne
    · obtain rfl := Option.some.inj (hself.symm.trans hl)
      exact hle'
    · have hold : c.nodes.lookup k = some n := (hother k hne).symm.trans hl
      rcases eq_or_ne k' (rollingHash H c.bs (i + 1) toks) with rfl | hne'
      · obtain ⟨n₀, hl₀, hclock⟩ := habove k hkk'
        obtain rfl := Option.some.inj (hl₀.symm.trans hold)
        exact hle'.trans_eq hclock.symm
      · exact h.monotone k k' n n' hkk' hold ((hother k' hne').symm.trans hl')
  · rcases eq_or_ne k (rollingHash H c.bs (i + 1) toks) with rfl | hne
    · obtain rfl := Option.some.inj (hself.symm.trans hl)
      rcases eq_or_ne k' (rollingHash H c.bs (i + 1) toks) with rfl | hne'
      · exact Or.inl rfl
      · obtain ⟨j, hj, rfl⟩ := h.only k' n' ((hother k' hne').symm.trans hl') heq.symm
        exact Or.inr (Or.inr (hbelow j hj))
    · have hold : c.nodes.lookup k = some n := (hother k hne).symm.trans hl
      rcases eq_or_ne k' (rollingHash H c.bs (i + 1) toks) with rfl | hne'
      · obtain rfl := Option.some.inj (hself.symm.trans hl')
        obtain ⟨j, hj, rfl⟩ := h.only k n hold heq
        exact Or.inr (Or.inl (hbelow j hj))
      · exact h.comparable k k' n n' hold ((hother k' hne').symm.trans hl') heq
  · rcases eq_or_ne (rollingHash H c.bs (j + 1) toks) (rollingHash H c.bs (i + 1) toks) with heq | hne
    · exact ⟨_, (congrArg nodes.lookup heq).trans hself, rfl⟩
    · have hji : j < i := lt_of_le_of_ne (Nat.le_of_lt_succ hj) fun hji => hne (by rw [hji])
      obtain ⟨n, hl, hclock⟩ := h.touched j hji
      exact ⟨n, (hother _ hne).trans hl, hclock⟩
  · rcases eq_or_ne k (rollingHash H c.bs (i + 1) toks) with rfl | hne
    · exact ⟨i, Nat.lt_succ_self i, rfl⟩
    · obtain ⟨j, hj, hk⟩ := h.only k n ((hother k hne).symm.trans hl) heq
      exact ⟨j, Nat.lt_succ_of_lt hj, hk⟩

/-- **The loop of `match`** touches the leading keys it finds. -/
theorem Touching.matchLoop {toks : List ℕ} {i : ℕ} (h : Touching H c toks i)
    (hinj : H.PrefixInjective c.bs) (hbs : 0 < c.bs) (keys : List κ)
    (hkeys : ∀ a key, keys[a]? = some key → (i + a + 1) * c.bs ≤ toks.length ∧
      key = rollingHash H c.bs (i + a + 1) toks) :
    ∃ n, Touching H (c.matchLoop keys).2 toks n := by
  induction keys generalizing c i with
  | nil => exact ⟨i, h⟩
  | cons key keys ih =>
    obtain ⟨hi, rfl⟩ := hkeys 0 key rfl
    rw [PrefixCache.matchLoop]
    cases hl : c.nodes.lookup (rollingHash H c.bs (i + 0 + 1) toks) with
    | none => exact ⟨i, h⟩
    | some node =>
      refine ih (i := i + 1) (h.put hinj hbs hi (Dict.lookup_replace (Dict.mem_of_lookup hl) _)
        (fun k hk => Dict.lookup_replace_ne hk _) ?_) hinj hbs fun a key hkey => ?_
      · rw [AList.keys_replace]
        exact h.older
      · have := hkeys (a + 1) key hkey
        rwa [← Nat.add_assoc, Nat.add_right_comm i a 1] at this

/-- **The loop of `insert`** touches the leading keys up to where it stops. -/
theorem Touching.insertLoop {toks : List ℕ} {i : ℕ} (h : Touching H c toks i)
    (hinj : H.PrefixInjective c.bs) (hbs : 0 < c.bs) (m : BlockManager) (kbs : List (κ × ℕ))
    (hkeys : ∀ a kb, kbs[a]? = some kb → (i + a + 1) * c.bs ≤ toks.length ∧
      kb.1 = rollingHash H c.bs (i + a + 1) toks) :
    ∃ n, Touching H (c.insertLoop m kbs).2.1 toks n := by
  induction kbs generalizing c m i with
  | nil => exact ⟨i, h⟩
  | cons kb kbs ih =>
    obtain ⟨key, blk⟩ := kb
    obtain ⟨hi, hkey⟩ := hkeys 0 (key, blk) rfl
    obtain rfl : key = rollingHash H c.bs (i + 0 + 1) toks := hkey
    have hrest : ∀ a kb, kbs[a]? = some kb → (i + 1 + a + 1) * c.bs ≤ toks.length ∧
        kb.1 = rollingHash H c.bs (i + 1 + a + 1) toks := by
      intro a kb hkb
      have := hkeys (a + 1) kb hkb
      rwa [← Nat.add_assoc, Nat.add_right_comm i a 1] at this
    rw [PrefixCache.insertLoop]
    cases hl : c.nodes.lookup (rollingHash H c.bs (i + 0 + 1) toks) with
    | none =>
      simp only
      rcases m.addRef blk with ⟨x | ⟨⟩, m₁⟩
      · exact ⟨i, h⟩
      refine ih (i := i + 1) (h.put hinj hbs hi (AList.lookup_insert _)
        (fun k hk => AList.lookup_insert_ne hk) ?_) hinj hbs m₁ hrest
      -- a cached key below the new one would have kept the new one cached
      have hnot := AList.lookup_eq_none.1 hl
      rw [AList.keys_insert, List.erase_of_not_mem (AList.mem_keys.not.1 hnot), List.pairwise_cons]
      exact ⟨fun k hk habove => hnot (h.closed _ k habove (AList.mem_keys.2 hk)), h.older⟩
    | some node =>
      refine ih (i := i + 1) (h.put hinj hbs hi (Dict.lookup_replace (Dict.mem_of_lookup hl) _)
        (fun k hk => Dict.lookup_replace_ne hk _) ?_) hinj hbs m hrest
      rw [AList.keys_replace]
      exact h.older

omit [DecidableEq κ] in
/-- The keys of a prompt, with the whole blocks they are of. -/
theorem key_of_blockHashes (hbs : 0 < c.bs) {toks : List ℕ} {a : ℕ} {key : κ}
    (h : (blockHashes H c.bs toks)[a]? = some key) :
    (0 + a + 1) * c.bs ≤ toks.length ∧ key = rollingHash H c.bs (0 + a + 1) toks := by
  obtain ⟨hlt, rfl⟩ := of_blockHashes_getElem? h
  rw [Nat.zero_add]
  exact ⟨(Nat.le_div_iff_mul_le hbs).1 hlt, rfl⟩

/-- **`match`.** -/
theorem Layered.match (h : Layered H c) (hinj : H.PrefixInjective c.bs) (hbs : 0 < c.bs)
    (toks : List ℕ) : Layered H (c.match H toks).2 := by
  obtain ⟨n, ht⟩ := (h.touching toks).matchLoop hinj hbs (blockHashes H c.bs toks)
    fun a key hkey => key_of_blockHashes hbs hkey
  exact ⟨ht.closed, ht.stamp_le, ht.monotone, ht.comparable, ht.older⟩

/-- **`insert`**, raising or not. -/
theorem Layered.insert (h : Layered H c) (hinj : H.PrefixInjective c.bs) (hbs : 0 < c.bs)
    (m : BlockManager) (toks ids : List ℕ) : Layered H (c.insert H m toks ids).2.1 := by
  obtain ⟨n, ht⟩ := (h.touching toks).insertLoop hinj hbs m ((blockHashes H c.bs toks).zip ids)
    fun a kb hkb => key_of_blockHashes hbs (List.getElem?_zip_eq_some.1 hkb).1
  exact ht.toLayered

/-! ### Eviction -/

omit [DecidableEq κ] in
theorem sliceTo_victimCount (c : PrefixCache κ) (k : ℤ) :
    sliceTo c.byLastUsed k = c.byLastUsed.take (c.victimCount k) := by
  have hlen : c.byLastUsed.length = c.nodes.items.length := List.length_insertionSort _ _
  unfold sliceTo victimCount
  split
  next => rw [← hlen, List.take_eq_take_iff, min_assoc, min_self]
  next => rw [hlen]

/-- **The loop of `evict` over held blocks** forgets exactly the victims. -/
theorem evictLoop_holds (c : PrefixCache κ) (m : BlockManager) (victims : List (κ × CacheNode))
    (hm : m.Holds c.pins) (hv : ∀ v ∈ victims, c.nodes.lookup v.1 = some v.2)
    (hn : (victims.map Prod.fst).Nodup) :
    (c.evictLoop m victims).2.1.bs = c.bs ∧ (c.evictLoop m victims).2.1.clock = c.clock ∧
      (c.evictLoop m victims).2.1.nodes.keys.Sublist c.nodes.keys ∧
      ∀ key, (c.evictLoop m victims).2.1.nodes.lookup key =
        if key ∈ victims.map Prod.fst then none else c.nodes.lookup key := by
  induction victims generalizing c m with
  | nil => exact ⟨rfl, rfl, List.Sublist.refl _, fun _ => rfl⟩
  | cons v victims ih =>
    obtain ⟨key, node⟩ := v
    rw [List.map_cons, List.nodup_cons] at hn
    have hl : c.nodes.lookup key = some node := hv (key, node) List.mem_cons_self
    have hpins : c.pins = node.block ::ₘ pins { c with nodes := c.nodes.erase key } := by
      rw [pins, Dict.total_eq _ hl]
      rfl
    obtain ⟨m₁, hrel, hm₁⟩ := (hpins ▸ hm : m.Holds (node.block ::ₘ _)).release
    have hne : ∀ v ∈ victims, v.1 ≠ key := fun v hmem heq => hn.1 (List.mem_map.2 ⟨v, hmem, heq⟩)
    obtain ⟨hbs, hclock, hkeys, hlook⟩ :=
      ih { c with nodes := c.nodes.erase key } m₁ hm₁ (fun v hmem => by
        show (c.nodes.erase key).lookup v.1 = some v.2
        rw [AList.lookup_erase_ne (hne v hmem)]
        exact hv v (List.mem_cons_of_mem _ hmem)) hn.2
    rw [evictLoop]
    simp only [hrel]
    refine ⟨hbs, hclock, hkeys.trans ?_, fun k => ?_⟩
    · show (c.nodes.erase key).keys.Sublist c.nodes.keys
      rw [AList.keys_erase]
      exact List.erase_sublist
    · rw [hlook k, List.map_cons]
      rcases eq_or_ne k key with rfl | hk
      · rw [if_pos List.mem_cons_self]
        show (if _ then _ else (c.nodes.erase k).lookup k) = _
        rw [AList.lookup_erase, ite_self]
      · show (if _ then _ else (c.nodes.erase key).lookup k) = _
        rw [AList.lookup_erase_ne hk]
        simp only [List.mem_cons, hk, false_or]

/-- **`evict` over held blocks** leaves the entries after the first `victimCount`. -/
theorem evict_holds (c : PrefixCache κ) {m : BlockManager} (hm : m.Holds c.pins) (k : ℤ) :
    (c.evict m k).2.1.bs = c.bs ∧ (c.evict m k).2.1.clock = c.clock ∧
      (c.evict m k).2.1.nodes.keys.Sublist c.nodes.keys ∧
      ∀ key node, (c.evict m k).2.1.nodes.lookup key = some node ↔
        (key, node) ∈ c.byLastUsed.drop (c.victimCount k) := by
  have hev : (c.evict m k).2.1 = (c.evictLoop m (sliceTo c.byLastUsed k)).2.1 := by
    rw [PrefixCache.evict]
    split <;> simp only [*]
  obtain ⟨hv, hn⟩ := c.victims_spec k
  obtain ⟨hbs, hclock, hkeys, hlook⟩ := c.evictLoop_holds m _ hm hv hn
  rw [hev]
  refine ⟨hbs, hclock, hkeys, fun key node => ?_⟩
  rw [hlook key, sliceTo_victimCount]
  have hfst := c.nodup_byLastUsed
  rw [← List.take_append_drop (c.victimCount k) c.byLastUsed, List.map_append,
    List.nodup_append] at hfst
  constructor
  · intro h
    split at h
    next => cases h
    next hnot =>
      have hin : (key, node) ∈ c.byLastUsed := mem_byLastUsed.2 h
      rw [← List.take_append_drop (c.victimCount k) c.byLastUsed, List.mem_append] at hin
      exact hin.resolve_left fun ht => hnot (List.mem_map.2 ⟨_, ht, rfl⟩)
  · intro h
    rw [if_neg fun ht => hfst.2.2 key ht key (List.mem_map.2 ⟨_, h, rfl⟩) rfl]
    exact mem_byLastUsed.1 (List.mem_of_mem_drop h)

omit [DecidableEq κ] in
/-- The victims come in the order of their stamps. -/
theorem byLastUsed_sorted (c : PrefixCache κ) :
    c.byLastUsed.Pairwise fun a b => a.2.lastUsed ≤ b.2.lastUsed :=
  have : IsTrans (κ × CacheNode) fun a b => a.2.lastUsed ≤ b.2.lastUsed := ⟨fun _ _ _ => le_trans⟩
  have : Std.Total (α := κ × CacheNode) fun a b => a.2.lastUsed ≤ b.2.lastUsed :=
    ⟨fun _ _ => le_total _ _⟩
  List.pairwise_insertionSort _ _

omit [DecidableEq κ] in
/-- Of two entries of one tick the one put in first is the first to go. -/
theorem older_of_pair {e e' : κ × CacheNode} (hst : e.2.lastUsed = e'.2.lastUsed)
    (h : [e, e'].Sublist c.byLastUsed) : [e'.1, e.1].Sublist c.nodes.keys := by
  have hn : c.nodes.items.Nodup := (Dict.nodup_items c.nodes).of_map _
  have hitems : [e, e'].Sublist c.nodes.items :=
    Cut.pair_of_insertionSort (f := fun e : κ × CacheNode => e.2.lastUsed) hn hst h
  have hkeys := hitems.map Prod.fst
  rw [Dict.map_fst_items] at hkeys
  exact List.reverse_sublist.1 (by simpa using hkeys)

/-- **An eviction keeps the cache closed iff it takes whole ticks.** -/
theorem Layered.evict_closed_iff (h : Layered H c) {m : BlockManager} (hm : m.Holds c.pins) (k : ℤ) :
    (c.evict m k).2.1.PrefixClosed H ↔ c.WholeTicks k := by
  obtain ⟨hbs, -, -, hleft⟩ := c.evict_holds hm k
  have hcut := List.take_append_drop (c.victimCount k) c.byLastUsed
  have hapart : ∀ e ∈ c.byLastUsed.take (c.victimCount k),
      ∀ e' ∈ c.byLastUsed.drop (c.victimCount k), e.1 ≠ e'.1 := by
    have hfst := c.nodup_byLastUsed
    rw [← hcut, List.map_append, List.nodup_append] at hfst
    exact fun e he e' he' => hfst.2.2 _ (List.mem_map_of_mem he) _ (List.mem_map_of_mem he')
  have hcount : ∀ s, (c.byLastUsed.countP fun e => e.2.lastUsed < s) =
      c.nodes.items.countP fun e => e.2.lastUsed < s := fun s => c.byLastUsed_perm.countP_eq _
  rw [prefixClosed_iff, hbs]
  constructor
  · intro hclosed
    have hle : c.victimCount k ≤ c.byLastUsed.length := by
      rw [c.byLastUsed_perm.length_eq]
      unfold victimCount
      split <;> omega
    rcases Cut.cut_cases (f := fun e : κ × CacheNode => e.2.lastUsed) c.byLastUsed_sorted hle with
      ⟨s, hs⟩ | ⟨e, he, e', he', hst⟩
    · exact ⟨s, hs.trans (hcount s)⟩
    -- two entries of one tick on different sides of the cut
    exfalso
    have hl := mem_byLastUsed.1 (List.mem_of_mem_take he)
    have hl' := mem_byLastUsed.1 (List.mem_of_mem_drop he')
    rcases h.comparable _ _ _ _ hl hl' hst with heq | habove | hbelow
    · exact hapart e he e' he' heq
    · obtain ⟨n, hn⟩ := Option.isSome_iff_exists.1
        (AList.lookup_isSome.2 (hclosed _ _ habove (Dict.mem_of_lookup ((hleft e'.1 e'.2).2 he'))))
      exact hapart e he _ ((hleft e.1 n).1 hn) rfl
    · have hpair : [e, e'].Sublist c.byLastUsed := by
        rw [← hcut]
        exact (List.singleton_sublist.2 he).append (List.singleton_sublist.2 he')
      have hold := h.older.sublist (older_of_pair hst hpair)
      exact (List.pairwise_cons.1 hold).1 e.1 List.mem_cons_self hbelow
  · rintro ⟨s, hs⟩ a b hab hb
    have htake : c.byLastUsed.take (c.victimCount k) =
        c.byLastUsed.filter fun e => e.2.lastUsed < s := by
      rw [hs, ← hcount s]
      exact Cut.take_countP (f := fun e : κ × CacheNode => e.2.lastUsed) c.byLastUsed_sorted s
    have hgone : ∀ e ∈ c.byLastUsed, e ∈ c.byLastUsed.take (c.victimCount k) ↔ e.2.lastUsed < s := by
      intro e he
      rw [htake, List.mem_filter, decide_eq_true_eq]
      exact and_iff_right he
    obtain ⟨n', hn'⟩ := Option.isSome_iff_exists.1 (AList.lookup_isSome.2 hb)
    have hdrop := (hleft b n').1 hn'
    have hin' := List.mem_of_mem_drop hdrop
    have hge : s ≤ n'.lastUsed := by
      by_contra hlt
      exact hapart _ ((hgone _ hin').2 (not_le.1 hlt)) _ hdrop rfl
    have hl' := mem_byLastUsed.1 hin'
    obtain ⟨n, hl⟩ := Option.isSome_iff_exists.1
      (AList.lookup_isSome.2 (h.closed a b hab (Dict.mem_of_lookup hl')))
    have hmono := h.monotone a b n n' hab hl hl'
    have hin : (a, n) ∈ c.byLastUsed := mem_byLastUsed.2 hl
    have hside := hin
    rw [← hcut, List.mem_append] at hside
    refine Dict.mem_of_lookup ((hleft a n).2 (hside.resolve_left fun ht => ?_))
    have hlt : n.lastUsed < s := (hgone _ hin).1 ht
    omega

/-- **`evict` of whole ticks.** -/
theorem Layered.evict (h : Layered H c) {m : BlockManager} (hm : m.Holds c.pins) {k : ℤ}
    (hk : c.WholeTicks k) : Layered H (c.evict m k).2.1 := by
  obtain ⟨hbs, hclock, hkeys, hleft⟩ := c.evict_holds hm k
  have hold : ∀ key node, (c.evict m k).2.1.nodes.lookup key = some node →
      c.nodes.lookup key = some node := fun key node hl =>
    Dict.mem_items_iff.1 ((List.perm_insertionSort _ _).mem_iff.1
      (List.mem_of_mem_drop ((hleft key node).1 hl)))
  refine ⟨prefixClosed_iff.1 ((h.evict_closed_iff hm k).2 hk), fun a n hl => ?_, ?_, ?_, ?_⟩
  · rw [hclock]
    exact h.stamp_le a n (hold a n hl)
  · rw [hbs]
    exact fun a b n n' hab hl hl' => h.monotone a b n n' hab (hold a n hl) (hold b n' hl')
  · rw [hbs]
    exact fun a b n n' hl hl' => h.comparable a b n n' (hold a n hl) (hold b n' hl')
  · rw [hbs]
    exact h.older.sublist hkeys

end PrefixCache

namespace CacheOp

variable {κ : Type} [DecidableEq κ] {H : RollingHash κ} {bs : ℕ}

/-- Whenever the history evicts, the manager holds the blocks the cache has pinned. -/
def PinsHeld (H : RollingHash κ) (bs : ℕ) (ops : List CacheOp) : Prop :=
  ∀ ops₁ m k, ops₁ ++ [.evict m k] <+: ops → m.Holds (run H bs ops₁).pins

/-- Every eviction of the history takes whole ticks. -/
def EvictsWholeTicks (H : RollingHash κ) (bs : ℕ) (ops : List CacheOp) : Prop :=
  ∀ ops₁ m k, ops₁ ++ [.evict m k] <+: ops → (run H bs ops₁).WholeTicks k

/-- The cache is closed at every moment of the history. -/
def StaysClosed (H : RollingHash κ) (bs : ℕ) (ops : List CacheOp) : Prop :=
  ∀ ops₁, ops₁ <+: ops → (run H bs ops₁).PrefixClosed H

theorem run_append (ops : List CacheOp) (op : CacheOp) :
    run H bs (ops ++ [op]) = op.exec H (run H bs ops) := by
  rw [run, List.foldl_append]
  rfl

/-- **Every history that evicts whole ticks** keeps the layers. -/
theorem run_layered (hbs : 1 ≤ bs) (hinj : H.PrefixInjective bs) (ops : List CacheOp)
    (hheld : PinsHeld H bs ops) (hwhole : EvictsWholeTicks H bs ops) :
    PrefixCache.Layered H (run H bs ops) := by
  induction ops using List.reverseRecOn with
  | nil => exact PrefixCache.layered_init bs
  | append_singleton ops op ih =>
    have hl := ih (fun ops₁ m k hp => hheld ops₁ m k (hp.trans (List.prefix_append _ _)))
      (fun ops₁ m k hp => hwhole ops₁ m k (hp.trans (List.prefix_append _ _)))
    have hsize : (run H bs ops).bs = bs := (run_registered H bs ops).2
    rw [run_append]
    cases op with
    | insert m toks ids => exact hl.insert (hsize.symm ▸ hinj) (hsize.symm ▸ hbs) m toks ids
    | «match» toks => exact hl.match (hsize.symm ▸ hinj) (hsize.symm ▸ hbs) toks
    | evict m k =>
      exact hl.evict (hheld ops m k List.prefix_rfl) (hwhole ops m k List.prefix_rfl)

/-- **A history that keeps the cache closed** has evicted whole ticks. -/
theorem StaysClosed.evictsWholeTicks (hbs : 1 ≤ bs) (hinj : H.PrefixInjective bs) {ops : List CacheOp}
    (hheld : PinsHeld H bs ops) (h : StaysClosed H bs ops) : EvictsWholeTicks H bs ops := by
  induction ops using List.reverseRecOn with
  | nil =>
    intro ops₁ m k hp
    exact absurd (List.prefix_nil.1 hp) (by simp)
  | append_singleton ops op ih =>
    have hheld' : PinsHeld H bs ops := fun ops₁ m k hp =>
      hheld ops₁ m k (hp.trans (List.prefix_append _ _))
    have hwhole := ih hheld' fun ops₁ hp => h ops₁ (hp.trans (List.prefix_append _ _))
    intro ops₁ m k hp
    rcases List.prefix_concat_iff.1 hp with heq | hp
    · obtain ⟨rfl, hop⟩ := List.append_inj' heq rfl
      obtain rfl := List.singleton_inj.1 hop
      have hclosed := h _ List.prefix_rfl
      rw [run_append] at hclosed
      exact ((run_layered hbs hinj _ hheld' hwhole).evict_closed_iff
        (hheld _ m k List.prefix_rfl) k).1 hclosed
    · exact hwhole ops₁ m k hp

end CacheOp

/-- The cache as promised: no history of `insert`, `match` and `evict` leaves a block cached
without the blocks before it. -/
def EvictionKeepsClosed : Prop :=
  ∀ (κ : Type) [DecidableEq κ] (H : RollingHash κ) (bs : ℕ), 1 ≤ bs → H.PrefixInjective bs →
    ∀ ops : List CacheOp, CacheOp.PinsHeld H bs ops → CacheOp.StaysClosed H bs ops

/-- A pool that holds a prompt of two blocks, registered. -/
def twoBlocks : Except Exc Unit × BlockManager × PrefixCache (List ℕ) :=
  let s := (Op.allocate 0 4 []).exec listHash (.init 4 2) (.init 2)
  (Op.insert [5, 6, 7, 8] 0).exec listHash s.2.1 s.2.2

/-- The history that led to it, and an eviction of `k`. -/
def twoBlocksOps (k : ℤ) : List CacheOp :=
  [.insert ((BlockManager.init 4 2).allocate 0 4 []).2 [5, 6, 7, 8] [3, 2], .evict twoBlocks.2.1 k]

/-- It evicts once, in the state of the registered prompt. -/
theorem twoBlocksOps_evict {k k' : ℤ} {ops₁ : List CacheOp} {m : BlockManager}
    (hp : ops₁ ++ [.evict m k'] <+: twoBlocksOps k) :
    CacheOp.run listHash 2 ops₁ = twoBlocks.2.2 ∧ m = twoBlocks.2.1 ∧ k' = k := by
  rcases List.prefix_concat_iff.1 (show _ <+: [_] ++ [_] from hp) with heq | hp
  · obtain ⟨rfl, hop⟩ := List.append_inj' heq rfl
    obtain ⟨rfl, rfl⟩ := CacheOp.evict.inj (List.singleton_inj.1 hop)
    exact ⟨rfl, rfl, rfl⟩
  · rcases List.prefix_concat_iff.1 (show _ <+: [] ++ [_] from hp) with heq | hp
    · obtain ⟨-, hop⟩ := List.append_inj' heq rfl
      cases List.singleton_inj.1 hop
    · exact absurd (List.prefix_nil.1 hp) (by simp)

theorem twoBlocksOps_held (k : ℤ) : CacheOp.PinsHeld listHash 2 (twoBlocksOps k) := by
  intro ops₁ m k' hp
  obtain ⟨hrun, rfl, -⟩ := twoBlocksOps_evict hp
  have hadm : (Op.allocate 0 4 []).Admissible (.init 4 2) := ⟨by decide, by decide, by decide⟩
  have hr : Reachable listHash 4 2 twoBlocks.2.1 twoBlocks.2.2 :=
    .step (.insert [5, 6, 7, 8] 0) (.step _ .init hadm) trivial
  rw [hrun]
  exact (hr.accounted (by decide)).1.holds

/-- **An eviction of one block orphans the second.**  A prompt of two blocks is registered and
one block evicted: the first block goes, and the second stays pinned. -/
theorem evict_orphans_second_block : ¬ EvictionKeepsClosed := by
  intro h
  have hc := h (List ℕ) listHash 2 (by decide) (listHash_prefixInjective 2) (twoBlocksOps 1)
    (twoBlocksOps_held 1) _ List.prefix_rfl [5, 6, 7, 8] 1 (by decide) (by decide +kernel) 0 (by decide)
  exact absurd hc (by decide +kernel)

/-- **The cache stays closed in exactly the histories whose evictions take whole ticks**, and
closed means that `match` reaches every cached block. -/
theorem evict_closed_iff_wholeTicks {κ : Type} [DecidableEq κ] (H : RollingHash κ) {bs : ℕ}
    (hbs : 1 ≤ bs) (hinj : H.PrefixInjective bs) (ops : List CacheOp)
    (hheld : CacheOp.PinsHeld H bs ops) :
    (CacheOp.StaysClosed H bs ops ↔ CacheOp.EvictsWholeTicks H bs ops) ∧
      ∀ ops₁, ops₁ <+: ops →
        ((CacheOp.run H bs ops₁).PrefixClosed H ↔ (CacheOp.run H bs ops₁).Retrievable H) := by
  refine ⟨⟨fun h => h.evictsWholeTicks hbs hinj hheld, fun h ops₁ hp => ?_⟩, fun ops₁ _ => ?_⟩
  · exact PrefixCache.prefixClosed_iff.2 (CacheOp.run_layered hbs hinj ops₁
      (fun ops₂ m k hp₂ => hheld ops₂ m k (hp₂.trans hp))
      fun ops₂ m k hp₂ => h ops₂ m k (hp₂.trans hp)).closed
  · exact PrefixCache.prefixClosed_iff_retrievable ((CacheOp.run_registered H bs ops₁).2.symm ▸ hbs)

/-- The hypotheses are satisfiable, and the condition with them: both blocks of a prompt are
evicted at once. -/
theorem evict_closed_both_blocks : CacheOp.StaysClosed listHash 2 (twoBlocksOps 2) := by
  refine (evict_closed_iff_wholeTicks listHash (by decide) (listHash_prefixInjective 2)
    (twoBlocksOps 2) (twoBlocksOps_held 2)).1.2 fun ops₁ m k hp => ?_
  obtain ⟨hrun, -, rfl⟩ := twoBlocksOps_evict hp
  rw [hrun]
  exact ⟨2, by decide +kernel⟩

end DiSpec
