/-
# What a hit of the prefix cache is for

`match` never looks at tokens: it returns the blocks cached under the keys of the
prompt.  `CacheOp.run_registered` follows any history of `insert`, `match` and `evict`,
the block manager being whatever it is at each of them: a node stands under the key of
a whole block of some prompt that was inserted with the node's block at that index.

From this a hit is for the same tokens as far as the hash tells prefixes apart
(`prefix_hit_sound`): what is asked is that no prefix of an inserted prompt has the key of
a different prefix of the matched one.  A hash into finitely many values cannot give
this for all prompts (`prefix_hit_collides`), and Python's has 64 bits.
-/

import DiSpec.KV.PrefixKeys
import Mathlib.Data.Fintype.Pigeonhole

namespace DiSpec
namespace PrefixCache

variable {κ : Type} [DecidableEq κ]

/-- **The loop of `insert` in any state**, raising or not: a node was there with its block, or
is one of those given. -/
theorem insertLoop_any (c : PrefixCache κ) (m : BlockManager) (kbs : List (κ × ℕ)) :
    (c.insertLoop m kbs).2.1.bs = c.bs ∧
      ∀ key b, ((c.insertLoop m kbs).2.1.nodes.lookup key).map CacheNode.block = some b →
        (c.nodes.lookup key).map CacheNode.block = some b ∨ (key, b) ∈ kbs := by
  induction kbs generalizing c m with
  | nil => exact ⟨rfl, fun _ _ h => Or.inl h⟩
  | cons kb kbs ih =>
    obtain ⟨key, blk⟩ := kb
    rw [insertLoop]
    cases hl : c.nodes.lookup key with
    | none =>
      simp only
      rcases m.addRef blk with ⟨x | ⟨⟩, m₁⟩
      · exact ⟨rfl, fun _ _ h => Or.inl h⟩
      obtain ⟨hbs, hnode⟩ :=
        ih { c with nodes := c.nodes.insert key ⟨blk, c.clock⟩, misses := c.misses + 1 } m₁
      refine ⟨hbs, fun k b hb => ?_⟩
      rcases hnode k b hb with hold | hnew
      · rcases eq_or_ne k key with rfl | hne
        · rw [AList.lookup_insert] at hold
          obtain rfl := Option.some.inj hold
          exact Or.inr List.mem_cons_self
        · rw [AList.lookup_insert_ne hne] at hold
          exact Or.inl hold
      · exact Or.inr (List.mem_cons_of_mem _ hnew)
    | some node =>
      have htouch := sameBlocks_touch c hl c.clock
      obtain ⟨hbs, hnode⟩ := ih { c with nodes := c.nodes.replace key { node with lastUsed := c.clock } } m
      refine ⟨hbs, fun k b hb => ?_⟩
      rcases hnode k b hb with hold | hnew
      · exact Or.inl ((htouch k).symm.trans hold)
      · exact Or.inr (List.mem_cons_of_mem _ hnew)

/-- **The loop of `evict` in any state** forgets nodes and touches no other. -/
theorem evictLoop_any (c : PrefixCache κ) (m : BlockManager) (victims : List (κ × CacheNode)) :
    (c.evictLoop m victims).2.1.bs = c.bs ∧ ∀ key node,
      (c.evictLoop m victims).2.1.nodes.lookup key = some node → c.nodes.lookup key = some node := by
  induction victims generalizing c m with
  | nil => exact ⟨rfl, fun _ _ h => h⟩
  | cons v victims ih =>
    obtain ⟨key, node⟩ := v
    have herase : ∀ k n, (c.nodes.erase key).lookup k = some n → c.nodes.lookup k = some n := by
      intro k n hk
      rcases eq_or_ne k key with rfl | hne
      · rw [AList.lookup_erase] at hk
        cases hk
      · rwa [AList.lookup_erase_ne hne] at hk
    rw [evictLoop]
    rcases m.release node.block with ⟨x | ⟨⟩, m₁⟩
    · exact ⟨rfl, herase⟩
    · obtain ⟨hbs, hnode⟩ := ih { c with nodes := c.nodes.erase key } m₁
      exact ⟨hbs, fun k n hk => herase k n (hnode k n hk)⟩

end PrefixCache

/-- The operations of `PrefixCache`, each with the block manager it works on. -/
inductive CacheOp
  | insert (m : BlockManager) (tokenIds blockIds : List ℕ)
  | «match» (tokenIds : List ℕ)
  | evict (m : BlockManager) (numBlocks : ℤ)

namespace CacheOp

variable {κ : Type} [DecidableEq κ]

/-- The cache after one operation, raising or not. -/
def exec (H : RollingHash κ) (c : PrefixCache κ) : CacheOp → PrefixCache κ
  | .insert m toks ids => (c.insert H m toks ids).2.1
  | .match toks => (c.match H toks).2
  | .evict m k => (c.evict m k).2.1

/-- The cache after a history of operations on a new one. -/
def run (H : RollingHash κ) (bs : ℕ) (ops : List CacheOp) : PrefixCache κ := ops.foldl (exec H) (.init bs)

/-- A node stands under the key of block `j` of some inserted prompt and holds the block that
was given at index `j`. -/
def Registered (H : RollingHash κ) (ops : List CacheOp) (c : PrefixCache κ) : Prop :=
  ∀ key b, (c.nodes.lookup key).map CacheNode.block = some b →
    ∃ m toks ids j, CacheOp.insert m toks ids ∈ ops ∧ j < toks.length / c.bs ∧
      key = rollingHash H c.bs (j + 1) toks ∧ ids[j]? = some b

/-- **One operation** registers what it is given. -/
theorem exec_registered (H : RollingHash κ) {ops : List CacheOp} {c : PrefixCache κ}
    (h : Registered H ops c) (op : CacheOp) :
    Registered H (ops ++ [op]) (op.exec H c) ∧ (op.exec H c).bs = c.bs := by
  have hold : ∀ {c' : PrefixCache κ} {key : κ} {b : ℕ}, c'.bs = c.bs →
      (c.nodes.lookup key).map CacheNode.block = some b →
      ∃ m toks ids j, CacheOp.insert m toks ids ∈ ops ++ [op] ∧ j < toks.length / c'.bs ∧
        key = rollingHash H c'.bs (j + 1) toks ∧ ids[j]? = some b := by
    rintro c' key b hbs hb
    obtain ⟨m, toks, ids, j, hin, hrest⟩ := h key b hb
    exact ⟨m, toks, ids, j, List.mem_append_left _ hin, hbs ▸ hrest⟩
  cases op with
  | insert m toks ids =>
    obtain ⟨hbs, hnode⟩ := PrefixCache.insertLoop_any { c with clock := c.clock + 1 } m
      ((PrefixCache.blockHashes H c.bs toks).zip ids)
    refine ⟨fun key b hb => ?_, hbs⟩
    rcases hnode key b hb with hb | hin
    · exact hold hbs hb
    · obtain ⟨j, hj⟩ := List.mem_iff_getElem?.1 hin
      obtain ⟨hkey, hblk⟩ := List.getElem?_zip_eq_some.1 hj
      obtain ⟨hlt, rfl⟩ := PrefixCache.of_blockHashes_getElem? hkey
      refine ⟨m, toks, ids, j, List.mem_append_right _ (List.mem_singleton_self _), ?_, ?_, hblk⟩
      · rw [exec, PrefixCache.insert, hbs]
        exact hlt
      · rw [exec, PrefixCache.insert, hbs]
  | «match» toks =>
    obtain ⟨-, hsame, hbs, -⟩ := PrefixCache.match_spec H c toks
    exact ⟨fun key b hb => hold hbs ((hsame key).symm.trans hb), hbs⟩
  | evict m k =>
    have hev : (c.evict m k).2.1 = (c.evictLoop m (sliceTo c.byLastUsed k)).2.1 := by
      rw [PrefixCache.evict]
      split <;> simp only [*]
    obtain ⟨hbs, hnode⟩ := c.evictLoop_any m (sliceTo c.byLastUsed k)
    rw [exec, hev]
    refine ⟨fun key b hb => ?_, hbs⟩
    obtain ⟨node, hl, hblk⟩ := Option.map_eq_some_iff.1 hb
    exact hold hbs (by rw [hnode key node hl, Option.map_some, hblk])

/-- **Every history.** -/
theorem run_registered (H : RollingHash κ) (bs : ℕ) (ops : List CacheOp) :
    Registered H ops (run H bs ops) ∧ (run H bs ops).bs = bs := by
  induction ops using List.reverseRecOn with
  | nil => exact ⟨fun key b hb => absurd hb (by simp [run, PrefixCache.init]), rfl⟩
  | append_singleton ops op ih =>
    rw [run, List.foldl_append]
    obtain ⟨hreg, hbs⟩ := exec_registered H ih.1 op
    exact ⟨hreg, hbs.trans ih.2⟩

end CacheOp

open CacheOp

/-- **A hit is for the same tokens, short of a collision.**  After any history, if no prefix of
an inserted prompt has the key of a different prefix of the matched prompt, then the block
that `match` returns at index `i` was inserted at that index for a prompt with the same
first `i + 1` blocks of tokens. -/
theorem prefix_hit_sound {κ : Type} [DecidableEq κ] (H : RollingHash κ) {bs : ℕ} (hbs : 1 ≤ bs)
    (ops : List CacheOp) (toks : List ℕ)
    (hsep : ∀ m toks' ids, CacheOp.insert m toks' ids ∈ ops → ∀ i j,
      (i + 1) * bs ≤ toks.length → (j + 1) * bs ≤ toks'.length →
      rollingHash H bs (i + 1) toks = rollingHash H bs (j + 1) toks' →
        toks.take ((i + 1) * bs) = toks'.take ((j + 1) * bs)) :
    ∀ i b, ((run H bs ops).match H toks).1[i]? = some b →
      (i + 1) * bs ≤ toks.length ∧ ∃ m toks' ids, CacheOp.insert m toks' ids ∈ ops ∧ ids[i]? = some b ∧
        (i + 1) * bs ≤ toks'.length ∧ toks'.take ((i + 1) * bs) = toks.take ((i + 1) * bs) := by
  intro i b hb
  obtain ⟨hreg, hsize⟩ := run_registered H bs ops
  obtain ⟨-, -, -, hlen, hhit⟩ := PrefixCache.match_spec H (run H bs ops) toks
  rw [hsize] at hlen hhit
  have hi : i < toks.length / bs := (List.getElem?_eq_some_iff.1 hb).1.trans_le hlen
  have hle : (i + 1) * bs ≤ toks.length := (Nat.le_div_iff_mul_le hbs).1 hi
  obtain ⟨m, toks', ids, j, hin, hj, hkey, hblk⟩ := hreg _ b (hhit i b hb)
  rw [hsize] at hj hkey
  have hle' : (j + 1) * bs ≤ toks'.length := (Nat.le_div_iff_mul_le hbs).1 hj
  have htake := hsep m toks' ids hin i j hle hle' hkey
  -- equal prefixes are of equal length
  have hij : i = j := by
    have hlens := congrArg List.length htake
    rw [List.length_take, List.length_take, min_eq_left hle, min_eq_left hle'] at hlens
    exact Nat.succ.inj (Nat.eq_of_mul_eq_mul_right hbs hlens)
  subst hij
  exact ⟨hle, m, toks', ids, hin, hblk, hle', htake.symm⟩

/-- A manager with one block, in use. -/
def oneBlock : BlockManager := ((BlockManager.init 1 1).allocate 0 1 []).2

/-- **No hash into finitely many values tells all prefixes apart**: for every such hash there is a
history after which `match` returns a block that was inserted for other tokens only. -/
theorem prefix_hit_collides {κ : Type} [DecidableEq κ] [Finite κ] (H : RollingHash κ) {bs : ℕ}
    (hbs : 1 ≤ bs) : ∃ ops toks b, ((run H bs ops).match H toks).1[0]? = some b ∧
      ∀ m toks' ids, CacheOp.insert m toks' ids ∈ ops → toks'.take bs ≠ toks.take bs := by
  obtain ⟨x, y, hxy, hkey⟩ :=
    Finite.exists_ne_map_eq_of_infinite fun t : ℕ => H.hash H.seed (List.replicate bs t)
  have hdiv : bs / bs = 1 := Nat.div_self hbs
  have hkeys : ∀ t, PrefixCache.blockHashes H bs (List.replicate bs t) =
      [H.hash H.seed (List.replicate bs t)] := by
    intro t
    rw [PrefixCache.blockHashes, List.length_replicate, hdiv, PrefixCache.hashChain, PrefixCache.hashChain,
      List.take_of_length_le (by simp)]
  have hadd : oneBlock.addRef 0 = (.ok (), { oneBlock with refCount := oneBlock.refCount.insert 0 2 }) := by
    rfl
  refine ⟨[.insert oneBlock (List.replicate bs x) [0]], List.replicate bs y, 0, ?_, ?_⟩
  · have hins : (run H bs [.insert oneBlock (List.replicate bs x) [0]]).nodes.lookup
        (H.hash H.seed (List.replicate bs y)) = some ⟨0, 1⟩ := by
      show ((PrefixCache.init bs).insert H oneBlock (List.replicate bs x) [0]).2.1.nodes.lookup _ = _
      rw [PrefixCache.insert, show (PrefixCache.init bs : PrefixCache κ).bs = bs from rfl, hkeys]
      simp only [List.zip_cons_cons, List.zip_nil_left, PrefixCache.insertLoop, PrefixCache.init,
        AList.lookup_empty, hadd, hkey, AList.lookup_insert]
    have hsize : (run H bs [.insert oneBlock (List.replicate bs x) [0]]).bs = bs := (run_registered H bs _).2
    rw [PrefixCache.match, hsize, hkeys, PrefixCache.matchLoop, hins]
    rfl
  · intro m toks' ids hin
    obtain ⟨-, rfl, -⟩ := CacheOp.insert.inj (List.mem_singleton.1 hin)
    rw [List.take_of_length_le (by simp), List.take_of_length_le (by simp)]
    exact fun h => hxy (List.replicate_right_injective (by omega) h)

/-- A polynomial hash of 64 bits. -/
def wordHash : RollingHash (BitVec 64) := ⟨0, fun h chunk => chunk.foldl (fun a t => a * 31 + .ofNat 64 t) h⟩

/-- The hypotheses are satisfiable, with 64-bit keys: two prompts that share their first block. -/
theorem prefix_hit_sound_shared :
    let m := ((BlockManager.init 4 2).allocate 0 5 []).2
    ((run wordHash 2 [.insert m [5, 6, 7, 8, 9] [3, 2, 1]]).match wordHash [5, 6, 1, 2]).1 = [3] ∧
      ∃ m' toks ids, CacheOp.insert m' toks ids ∈ [CacheOp.insert m [5, 6, 7, 8, 9] [3, 2, 1]] ∧
        ids[0]? = some 3 ∧ 2 ≤ toks.length ∧ toks.take 2 = [5, 6] := by
  intro m
  have hhit :
      ((run wordHash 2 [.insert m [5, 6, 7, 8, 9] [3, 2, 1]]).match wordHash [5, 6, 1, 2]).1 = [3] := by
    decide +kernel
  have h := prefix_hit_sound wordHash (by decide : 1 ≤ 2) [.insert m [5, 6, 7, 8, 9] [3, 2, 1]] [5, 6, 1, 2]
    (fun m' toks ids hin i j hi hj heq => by
      obtain ⟨-, rfl, -⟩ := CacheOp.insert.inj (List.mem_singleton.1 hin)
      have hi : i < 2 := by simp only [List.length_cons, List.length_nil] at hi; omega
      have hj : j < 2 := by simp only [List.length_cons, List.length_nil] at hj; omega
      have hall : ∀ i < 2, ∀ j < 2, rollingHash wordHash 2 (i + 1) [5, 6, 1, 2] =
          rollingHash wordHash 2 (j + 1) [5, 6, 7, 8, 9] →
          [5, 6, 1, 2].take ((i + 1) * 2) = [5, 6, 7, 8, 9].take ((j + 1) * 2) := by decide +kernel
      exact hall i hi j hj heq) 0 3 (by rw [hhit]; rfl)
  exact ⟨hhit, h.2⟩

/-- **A hit for other tokens.**  A polynomial hash of 64 bits gives the blocks `[0, 31]` and
`[1, 0]` one key; after the first is inserted, `match` returns its block for the second. -/
theorem prefix_hit_collision :
    let m := ((BlockManager.init 4 2).allocate 0 2 []).2
    let ops := [CacheOp.insert m [0, 31] [3]]
    ((run wordHash 2 ops).match wordHash [1, 0]).1 = [3] ∧
      ¬∃ m' toks ids, CacheOp.insert m' toks ids ∈ ops ∧ ids[0]? = some 3 ∧ toks.take 2 = [1, 0] := by
  intro m ops
  refine ⟨by decide +kernel, ?_⟩
  rintro ⟨m', toks, ids, hin, -, htake⟩
  obtain ⟨-, rfl, -⟩ := CacheOp.insert.inj (List.mem_singleton.1 hin)
  exact absurd htake (by decide)

end DiSpec
