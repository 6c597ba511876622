/-
# Blocks that outlive their sequences

An engine with a prefix cache lets physical blocks outlive the sequences that
wrote them and hands them to later ones.  `Sound` is what makes that safe: the
manager's counts are the tables and the pins, no block is pinned twice, and every
pinned block holds the KV of the token prefix its key was computed from
(`coherent`).  Whatever happens within a frame keeps it (`Sound.frame`).

The two places where `generate` meets the cache come next: the blocks it adopts
hold the leading KV of the prompt and leave a token to prefill (`adopt_spec`), and
the blocks it registers hold what their keys stand for (`register_spec`).
-/

import DiSpec.Engine.Generation
import DiSpec.KV.PrefixKeys

namespace DiSpec
namespace LLMEngine

variable {κ X D R G : Type}

/-- The blocks pinned by the prefix cache, with multiplicity. -/
def pins (e : LLMEngine κ D) : Multiset ℕ :=
  match e.prefixCache with
  | none => 0
  | some c => c.pins

theorem pins_of_cache {e : LLMEngine κ D} {c : PrefixCache κ} (hc : e.prefixCache = some c) :
    e.pins = c.pins := by
  rw [pins, hc]

/-- `while reuse and …: reuse.pop()` keeps a leading part that ends before token `n`. -/
theorem popReuse_spec (bs n fuel : ℕ) (reuse : List ℕ) (hf : reuse.length ≤ fuel) :
    popReuse bs n fuel reuse <+: reuse ∧
      (popReuse bs n fuel reuse = [] ∨ (popReuse bs n fuel reuse).length * bs < n) := by
  induction fuel generalizing reuse with
  | zero => exact ⟨List.prefix_rfl, Or.inl (List.length_eq_zero_iff.1 (Nat.le_zero.1 hf))⟩
  | succ fuel ih =>
    rw [popReuse]
    split
    next h =>
      obtain ⟨hp, hr⟩ := ih reuse.dropLast (by rw [List.length_dropLast]; omega)
      exact ⟨hp.trans (List.dropLast_prefix _), hr⟩
    next h =>
      rw [not_and_or, not_not, not_le] at h
      exact ⟨List.prefix_rfl, h⟩

theorem mem_held [DecidableEq κ] {e : LLMEngine κ D} {b : ℕ} (h : b ∈ e.held) : b ∈ e.pins := by
  unfold held at h
  unfold pins
  cases hc : e.prefixCache with
  | none => simp [hc] at h
  | some c =>
    rw [hc] at h
    obtain ⟨n, hn, rfl⟩ := List.mem_map.1 h
    exact PrefixCache.mem_pins (Dict.mem_items_iff.1 hn)

/-- A pinned block stands under some key of the cache. -/
theorem exists_of_mem_pins [DecidableEq κ] {e : LLMEngine κ D} {b : ℕ} (hb : b ∈ e.pins) :
    ∃ c, e.prefixCache = some c ∧ ∃ key, (c.nodes.lookup key).map CacheNode.block = some b := by
  unfold pins at hb
  cases hc : e.prefixCache with
  | none =>
    rw [hc] at hb
    exact absurd hb (Multiset.notMem_zero b)
  | some c =>
    rw [hc] at hb
    exact ⟨c, rfl, PrefixCache.of_mem_pins hb⟩

variable [Zero D] [Add X]

/-- Block `b` holds the KV of block `k` of the token string. -/
def BlockHolds (T : Transformer X D R) (c : PagedKVCache D) (b : ℕ) (tok : ℕ → ℕ) (k : ℕ) : Prop :=
  ∀ i < T.numLayers, ∀ p, p / c.blockSize = k →
    c.pool i (b * c.blockSize + p % c.blockSize) = T.kvAt noBase tok i p

variable [DecidableEq κ]

/-- **The state between calls**: exact counts, blocks pinned once, and every pinned block
with the KV of the prefix its key stands for.  No recorded call wrote a slot of a
block that was held or adopted at the time. -/
structure Sound (T : Transformer X D R) (H : RollingHash κ) (e : LLMEngine κ D) : Prop where
  blockSize_pos : 0 < e.blockSize
  accounted : e.cache.manager.Accounted e.pins
  pins_nodup : e.pins.Nodup
  cacheSize : ∀ c, e.prefixCache = some c → c.bs = e.blockSize
  coherent : ∀ c, e.prefixCache = some c → ∀ key b,
    (c.nodes.lookup key).map CacheNode.block = some b → ∃ toks k,
      (k + 1) * e.blockSize ≤ toks.length ∧ key = rollingHash H e.blockSize (k + 1) toks ∧
        BlockHolds T e.cache b (str toks) k
  clean : ∀ f ∈ e.calls, ∀ sl ∈ f.writeSlots,
    sl / e.blockSize ∉ f.held ∧ sl / e.blockSize ∉ f.adopted

variable {T : Transformer X D R} {H : RollingHash κ} {e : LLMEngine κ D} {seqId : ℕ}

/-- The block under the key of a prefix holds the KV of that prefix. -/
theorem Sound.block (h : Sound T H e) (hH : H.PrefixInjective e.blockSize) {c : PrefixCache κ}
    (hc : e.prefixCache = some c) {toks : List ℕ} {k b : ℕ}
    (hk : (k + 1) * e.blockSize ≤ toks.length)
    (hb : (c.nodes.lookup (rollingHash H e.blockSize (k + 1) toks)).map CacheNode.block = some b) :
    BlockHolds T e.cache b (str toks) k := by
  obtain ⟨toks', k', hk', hkey, hholds⟩ := h.coherent c hc _ b hb
  obtain rfl := hH.index h.blockSize_pos hk hk' hkey
  have htake := hH k k toks toks' hk hk' hkey
  intro i hi p hp
  rw [hholds i hi p hp]
  refine T.kvAt_congr noBase i fun j hj => ?_
  have hj : j < (k + 1) * e.blockSize := by
    have hp : p / e.blockSize = k := hp
    have := Nat.lt_div_mul_add (a := p) h.blockSize_pos
    rw [hp] at this
    rw [Nat.succ_mul]
    omega
  have hget := congrArg (·.getD j 0) htake
  unfold str
  simpa only [List.getD_eq_getElem?_getD, List.getElem?_take_of_lt hj] using hget.symm

/-- Another manager with the same references is as sound. -/
theorem Sound.setManager (h : Sound T H e) {m : BlockManager} (hacc : m.Accounted e.pins)
    (hbs : m.blockSize = e.blockSize) : Sound T H (e.setManager m) := by
  have hbs' : (e.setManager m).blockSize = e.blockSize := hbs
  refine ⟨hbs' ▸ h.blockSize_pos, hacc, h.pins_nodup, fun c hc => hbs'.symm ▸ h.cacheSize c hc,
    fun c hc key b hb => ?_, hbs'.symm ▸ h.clean⟩
  obtain ⟨toks, k, hk, hkey, hholds⟩ := h.coherent c hc key b hb
  refine ⟨toks, k, hbs'.symm ▸ hk, hbs'.symm ▸ hkey, fun i hi p hp => ?_⟩
  rw [show (e.setManager m).cache.blockSize = e.cache.blockSize from hbs] at hp ⊢
  exact hholds i hi p hp

/-- **What happens within a frame is sound**: pinned blocks keep their content. -/
theorem Sound.frame (h : Sound T H e) {e' : LLMEngine κ D} {reuse : List ℕ}
    (hf : Frame e e' seqId e.pins reuse) (hr : ∀ b ∈ reuse, b ∈ e.pins)
    (hacc : e'.cache.manager.Accounted e.pins) : Sound T H e' := by
  have hbs : e'.blockSize = e.blockSize := hf.blockSize
  have hpins : e'.pins = e.pins := by unfold pins; rw [hf.prefixCache]
  refine ⟨hbs ▸ h.blockSize_pos, hpins.symm ▸ hacc, hpins.symm ▸ h.pins_nodup, fun c hc => ?_,
    fun c hc key b hb => ?_, fun f hmem sl hsl => ?_⟩
  · rw [hbs]
    exact h.cacheSize c (hf.prefixCache ▸ hc)
  · have hc := hf.prefixCache ▸ hc
    obtain ⟨toks, k, hk, hkey, hholds⟩ := h.coherent c hc key b hb
    refine ⟨toks, k, hbs.symm ▸ hk, hbs.symm ▸ hkey, fun i hi p hp => ?_⟩
    rw [show e'.cache.blockSize = e.cache.blockSize from hbs] at hp ⊢
    have hpin : b ∈ e.pins := by
      obtain ⟨node, hnode, rfl⟩ := Option.map_eq_some_iff.1 hb
      unfold pins
      rw [hc]
      exact PrefixCache.mem_pins hnode
    rw [hf.pool i _ ?_]
    · exact hholds i hi p hp
    · show (b * e.blockSize + p % e.blockSize) / e.blockSize ∈ e.pins
      rwa [Nat.mul_comm, Nat.mul_add_div h.blockSize_pos,
        Nat.div_eq_of_lt (Nat.mod_lt _ h.blockSize_pos), Nat.add_zero]
  · obtain ⟨new, hnew, hall⟩ := hf.calls
    rw [hbs]
    rw [hnew] at hmem
    rcases List.mem_append.1 hmem with hmem | hmem
    · exact h.clean f hmem sl hsl
    · obtain ⟨hheld, hadopt, hwrite⟩ := hall f hmem
      refine ⟨fun hin => hwrite sl hsl (mem_held (hheld ▸ hin)), fun hin => ?_⟩
      exact hwrite sl hsl (hr _ (hadopt ▸ hin))

/-- **`adopt`** returns blocks that hold the leading KV of the prompt and leave at least
one token of it. -/
theorem adopt_spec (h : Sound T H e)
    (hH : ∀ c, e.prefixCache = some c → H.PrefixInjective e.blockSize) (promptIds : List ℕ) :
    ∃ reuse e₁, e.adopt H promptIds = (reuse, e₁) ∧ Sound T H e₁ ∧ e₁.cache = e.cache ∧
      e₁.calls = e.calls ∧ e₁.lastPrefillTokens = e.lastPrefillTokens ∧ e₁.pins = e.pins ∧
      (e.prefixCache = none → reuse = [] ∧ e₁.prefixCache = none) ∧
      reuse.Nodup ∧ (∀ b ∈ reuse, b ∈ e.pins) ∧
      (reuse = [] ∨ reuse.length * e.blockSize < promptIds.length) ∧
      (∀ i b, reuse[i]? = some b → BlockHolds T e.cache b (str promptIds) i) ∧
      ∀ c, e₁.prefixCache = some c → ∀ i < reuse.length,
        c.nodes.lookup (rollingHash H e.blockSize (i + 1) promptIds) ≠ none := by
  unfold adopt
  cases hc : e.prefixCache with
  | none => exact ⟨[], e, rfl, h, rfl, rfl, rfl, rfl, fun _ => ⟨rfl, hc⟩, List.nodup_nil, by simp,
      Or.inl rfl, by simp, by simp⟩
  | some c =>
    obtain ⟨hp, hs, hcbs, hlen, hi⟩ := PrefixCache.match_spec H c promptIds
    have hbs := h.cacheSize c hc
    have hH := hH c hc
    rw [hbs] at hlen hi
    obtain ⟨hpre, hpop⟩ := popReuse_spec e.blockSize promptIds.length (c.match H promptIds).1.length
      (c.match H promptIds).1 le_rfl
    set all := (c.match H promptIds).1 with hall
    set c₁ := (c.match H promptIds).2 with hc₁
    set reuse := popReuse e.blockSize promptIds.length all.length all with hreuse
    have hpins : e.pins = c.pins := pins_of_cache hc
    have hget : ∀ (i b : ℕ), reuse[i]? = some b → all[i]? = some b := fun i b hb => by
      obtain ⟨l, hl⟩ := hpre
      refine (congrArg (fun l : List ℕ => l[i]?) hl.symm).trans ?_
      exact (List.getElem?_append_left (List.getElem?_eq_some_iff.1 hb).1).trans hb
    have hwhole : ∀ (i b : ℕ), all[i]? = some b → (i + 1) * e.blockSize ≤ promptIds.length := by
      intro i b hb
      have hlt : i < all.length := (List.getElem?_eq_some_iff.1 hb).1
      exact (Nat.mul_le_mul_right _ (show i + 1 ≤ promptIds.length / e.blockSize by omega)).trans
        (Nat.div_mul_le_self _ _)
    have hnode : ∀ (i b : ℕ), all[i]? = some b → ∃ node,
        c.nodes.lookup (rollingHash H e.blockSize (i + 1) promptIds) = some node ∧ node.block = b :=
      fun i b hb => Option.map_eq_some_iff.1 (hi i b hb)
    have hnodup : all.Nodup := by
      refine List.nodup_iff_injective_get.2 fun i j hij => ?_
      have hbi := List.getElem?_eq_getElem i.2
      have hbj := List.getElem?_eq_getElem j.2
      obtain ⟨node, hn, hb⟩ := hnode i _ hbi
      obtain ⟨node', hn', hb'⟩ := hnode j _ hbj
      have hkey := PrefixCache.key_unique (hpins ▸ h.pins_nodup) hn hn' (by rw [hb, hb']; exact hij)
      exact Fin.ext (hH.index h.blockSize_pos (hwhole i _ hbi) (hwhole j _ hbj) hkey)
    have hsound : Sound T H { e with prefixCache := some c₁ } := by
      have hpins₁ : pins { e with prefixCache := some c₁ } = e.pins := hp.trans hpins.symm
      refine ⟨h.blockSize_pos, hpins₁.symm ▸ h.accounted, hpins₁.symm ▸ h.pins_nodup,
        fun c' hc' => ?_, fun c' hc' key b hb => ?_, h.clean⟩
      · obtain rfl := Option.some.inj hc'
        exact hcbs.trans hbs
      · obtain rfl := Option.some.inj hc'
        exact h.coherent c hc key b ((hs key).symm.trans hb)
    refine ⟨reuse, _, rfl, hsound, rfl, rfl, rfl, hp.trans hpins.symm, fun hno => (by cases hno),
      hnodup.sublist hpre.sublist, fun b hb => ?_, hpop, fun i b hb => ?_, fun c' hc' i hlt => ?_⟩
    · obtain ⟨i, hib⟩ := List.getElem?_of_mem (hpre.mem hb)
      obtain ⟨node, hn, rfl⟩ := hnode i b hib
      rw [hpins]
      exact PrefixCache.mem_pins hn
    · exact h.block hH hc (hwhole i b (hget i b hb)) (hi i b (hget i b hb))
    · obtain rfl := Option.some.inj hc'
      obtain ⟨node, hn, -⟩ := hnode i _ (hget i _ (List.getElem?_eq_getElem hlt))
      intro (hnone : c₁.nodes.lookup _ = none)
      have := hs (rollingHash H e.blockSize (i + 1) promptIds)
      rw [hnone, hn] at this
      exact absurd this (by simp)

/-- **`register`** pins blocks of the prompt only, each with the KV its key stands for. -/
theorem register_spec (promptIds : List ℕ) (h : Sound T H e) {t : BlockTable}
    (ht : e.cache.manager.tables.lookup seqId = some t)
    (hholds : T.Holds e.cache t.blockIds noBase (str promptIds) promptIds.length)
    (hnew : ∀ (i b : ℕ), t.blockIds[i]? = some b → (∀ c, e.prefixCache = some c →
      c.nodes.lookup (rollingHash H e.blockSize (i + 1) promptIds) = none) → b ∉ e.pins) :
    ∃ e', e.register H promptIds t.blockIds = (.ok (), e') ∧ Sound T H e' ∧
      e'.cache.pool = e.cache.pool ∧ e'.cache.manager.numBlocks = e.cache.manager.numBlocks ∧
      e'.blockSize = e.blockSize ∧ e'.cache.manager.tables = e.cache.manager.tables ∧
      e'.cache.manager.freeList = e.cache.manager.freeList ∧ e'.calls = e.calls ∧
      e'.lastPrefillTokens = e.lastPrefillTokens ∧
      (e.prefixCache = none → e'.prefixCache = none) ∧ e.pins ≤ e'.pins ∧
      ∀ b ∈ e'.pins, b ∈ e.pins ∨
        ∃ i : ℕ, i < promptIds.length / e.blockSize ∧ t.blockIds[i]? = some b := by
  unfold register
  cases hc : e.prefixCache with
  | none => exact ⟨e, rfl, h, rfl, rfl, rfl, rfl, rfl, rfl, rfl, fun _ => hc, le_rfl,
      fun b hb => Or.inl hb⟩
  | some c =>
    have hbs := h.cacheSize c hc
    have hpins : e.pins = c.pins := pins_of_cache hc
    set kbs := (PrefixCache.blockHashes H c.bs promptIds).zip t.blockIds with hkbs
    have hzip : ∀ kb ∈ kbs, ∃ i : ℕ, i < promptIds.length / e.blockSize ∧
        kb.1 = rollingHash H e.blockSize (i + 1) promptIds ∧ t.blockIds[i]? = some kb.2 := by
      intro kb hkb
      obtain ⟨i, hi⟩ := List.getElem?_of_mem hkb
      obtain ⟨h₁, h₂⟩ := List.getElem?_zip_eq_some.1 hi
      obtain ⟨hlt, hkey⟩ := PrefixCache.of_blockHashes_getElem? h₁
      rw [hbs] at hlt hkey
      exact ⟨i, hlt, hkey, h₂⟩
    obtain ⟨c', m', heq, hacc, hnb, hbs', htab, hfree, hcbs, hmore, -, hfresh⟩ :=
      PrefixCache.insertLoop_spec { c with clock := c.clock + 1 } e.cache.manager kbs
        (hpins ▸ h.accounted) fun kb hkb => Multiset.mem_add.2 (Or.inl
          (BlockManager.mem_tableBlocks ht (List.of_mem_zip hkb).2))
    have hnodup : c'.pins.Nodup := by
      have := PrefixCache.insertLoop_nodup { c with clock := c.clock + 1 } e.cache.manager kbs
        (hpins ▸ h.pins_nodup) ?_ fun kb hkb hk => ?_
      · rwa [heq] at this
      · have hsub : (kbs.map Prod.snd).Sublist t.blockIds := by
          rw [hkbs, List.zip_eq_zip_take_min, List.map_snd_zip (by simp)]
          exact List.take_sublist _ _
        exact (List.pairwise_map.1 ((h.accounted.table_nodup seqId t ht).sublist hsub)).imp
          fun hne _ _ => hne
      · obtain ⟨i, -, hkey, hb⟩ := hzip kb hkb
        rw [hkey] at hk
        refine hpins ▸ hnew i kb.2 hb fun c₁ hc₁ => ?_
        obtain rfl := Option.some.inj (hc.symm.trans hc₁)
        exact hk
    refine ⟨{ e.setManager m' with prefixCache := some c' }, ?_, ?_, rfl, hnb, hbs', htab, hfree,
      rfl, rfl, fun hno => (by cases hno), hpins ▸ hmore, fun b hb => ?_⟩
    · simp only [PrefixCache.insert, ← hkbs, heq]
    · refine ⟨h.blockSize_pos.trans_eq hbs'.symm, hacc, hnodup, fun c₁ hc₁ => ?_,
        fun c₁ hc₁ key b hb => ?_, fun f hf sl hsl => ?_⟩
      · obtain rfl := Option.some.inj hc₁
        exact (hcbs.trans hbs).trans hbs'.symm
      · obtain rfl := Option.some.inj hc₁
        show ∃ toks k, (k + 1) * m'.blockSize ≤ toks.length ∧
          key = rollingHash H m'.blockSize (k + 1) toks ∧ BlockHolds T _ b (str toks) k
        rw [hbs']
        have hsame : ∀ toks k, BlockHolds T e.cache b (str toks) k →
            BlockHolds T { e.cache with manager := m' } b (str toks) k := by
          intro toks k hblk i hi p hp
          rw [show PagedKVCache.blockSize { e.cache with manager := m' } = e.cache.blockSize
            from hbs'] at hp ⊢
          exact hblk i hi p hp
        rcases hfresh key b hb with hb | ⟨-, hmem⟩
        · obtain ⟨toks, k, hk, hkey, hblk⟩ := h.coherent c hc key b hb
          exact ⟨toks, k, hk, hkey, hsame toks k hblk⟩
        · obtain ⟨i, hi, hkey, hb⟩ := hzip _ hmem
          have hwhole : (i + 1) * e.blockSize ≤ promptIds.length :=
            (Nat.mul_le_mul_right _ hi).trans (Nat.div_mul_le_self _ _)
          refine ⟨promptIds, i, hwhole, hkey, hsame _ _ fun j hj p hp => ?_⟩
          rw [← Paging.slotAt_of_getElem? (p := p) (hp.symm ▸ hb)]
          refine hholds j hj p (lt_of_lt_of_le ?_ hwhole)
          exact (Nat.div_lt_iff_lt_mul h.blockSize_pos).1 (hp ▸ Nat.lt_succ_self i)
      · show sl / m'.blockSize ∉ f.held ∧ sl / m'.blockSize ∉ f.adopted
        rw [hbs']
        exact h.clean f hf sl hsl
    · obtain ⟨key, hkey⟩ := PrefixCache.of_mem_pins (c := c') hb
      rcases hfresh key b hkey with hkey | ⟨-, hmem⟩
      · obtain ⟨node, hnode, rfl⟩ := Option.map_eq_some_iff.1 hkey
        rw [hpins]
        exact Or.inl (PrefixCache.mem_pins (c := c) hnode)
      · obtain ⟨i, hi, -, hb⟩ := hzip _ hmem
        exact Or.inr ⟨i, hi, hb⟩

end LLMEngine
end DiSpec
