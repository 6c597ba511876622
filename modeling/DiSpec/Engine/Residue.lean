/-
# What a call of `generate` leaves in the pool

`dispec/engine/engine.py`: `LLMEngine.generate`, with and without CUDA graphs.

`generate` allocates before its `try` and frees in `finally`, so however a call ends its own
references are dropped.  What is left are the pins of `insert`, which no call drops.

Between two calls there is no table and no block is pinned twice (`Quiet`), so the counts of
the manager are the nodes of the prefix cache (`Quiet.onlyPins`).  Within a call there is one
table more (`Underway`), and this survives a decoded token, a forward that returns and one
that raises.  A block can only be pinned twice if a block that is held comes back under a new
key.  An adopted block stands under a key that is found again, and the blocks that are not
adopted were free (`Prompted`), so `register` pins each of them for the first time
(`Prompted.register_nodup`).  Keys may collide: a key that is there is not entered again.
-/

import DiSpec.Engine.GraphHistory

namespace DiSpec
namespace LLMEngine

variable {κ X D R G : Type}

/-! ### Between two calls -/

/-- **Nothing is left but pins.**  No sequence has a table, each node of the prefix cache
holds a block of its own, these are the blocks that are not free, and each of them has one
reference. -/
structure OnlyPins (e : LLMEngine κ D) : Prop where
  no_table : ∀ seqId, e.cache.manager.hasTable seqId = false
  held_nodup : e.held.Nodup
  held_lt : ∀ b ∈ e.held, b < e.cache.manager.numBlocks
  free_nodup : e.cache.manager.freeList.Nodup
  free_iff : ∀ b, b ∈ e.cache.manager.freeList ↔ b < e.cache.manager.numBlocks ∧ b ∉ e.held
  refCount : ∀ b, e.cache.manager.refCount.lookup b = if b ∈ e.held then some 1 else none

/-- The state between two calls on a pool of `N` blocks. -/
structure Quiet (N : ℕ) (e : LLMEngine κ D) : Prop where
  tally : Tally e
  pins_nodup : e.pins.Nodup
  numBlocks : e.cache.manager.numBlocks = N
  no_table : ∀ s, e.cache.manager.tables.lookup s = none

/-- The state within a call on `seqId`: it may have a table. -/
structure Underway (N : ℕ) (e : LLMEngine κ D) (seqId : ℕ) : Prop where
  tally : Tally e
  pins_nodup : e.pins.Nodup
  numBlocks : e.cache.manager.numBlocks = N
  sole : ∀ s ≠ seqId, e.cache.manager.tables.lookup s = none

/-- The nodes of the prefix cache hold its pins. -/
theorem coe_held (e : LLMEngine κ D) : (e.held : Multiset ℕ) = e.pins := by
  unfold held pins
  cases e.prefixCache with
  | none => rfl
  | some c =>
    have hsum : ∀ l : List (Sigma fun _ : κ => CacheNode),
        ((l.map fun n => n.2.block : List ℕ) : Multiset ℕ) =
          (l.map fun n => ({n.2.block} : Multiset ℕ)).sum := by
      intro l
      induction l with
      | nil => rfl
      | cons n l ih =>
        rw [List.map_cons, List.map_cons, List.sum_cons, ← ih]
        rfl
    show ((c.nodes.items.map fun n => n.2.block : List ℕ) : Multiset ℕ) = c.pins
    rw [PrefixCache.pins, Dict.total, ← hsum, Dict.items, List.map_map, List.map_reverse]
    exact Multiset.coe_eq_coe.2 (List.reverse_perm _)

/-- **Between two calls nothing is left but pins.** -/
theorem Quiet.onlyPins {N : ℕ} {e : LLMEngine κ D} (h : Quiet N e) : OnlyPins e := by
  have hno : e.cache.manager.tableBlocks = 0 := by
    have hnil : e.cache.manager.tables.entries = [] := by
      refine List.eq_nil_iff_forall_not_mem.2 fun t ht => ?_
      have hnone := h.no_table t.1
      rw [(Dict.mem_entries_iff (k := t.1) (v := t.2)).1 ht] at hnone
      cases hnone
    rw [BlockManager.tableBlocks, Dict.total, hnil]
    rfl
  have hcounted := h.tally.tallied.counted
  rw [hno, zero_add] at hcounted
  have hmem : ∀ b, b ∈ e.held ↔ b ∈ e.pins := fun b => by rw [← coe_held, Multiset.mem_coe]
  constructor
  · intro seqId
    rw [BlockManager.hasTable, h.no_table]
    rfl
  · rw [← Multiset.coe_nodup, coe_held]
    exact h.pins_nodup
  · intro b hb
    exact Finset.mem_range.1 (hcounted.bounded b ((hmem b).1 hb))
  · exact hcounted.free_nodup
  · intro b
    rw [hcounted.free_iff, Finset.mem_range, hmem]
  · intro b
    rw [hcounted.lookup]
    by_cases hb : b ∈ e.pins
    · rw [if_pos hb, if_pos ((hmem b).2 hb), Multiset.count_eq_one_of_mem h.pins_nodup hb]
    · rw [if_neg hb, if_neg (mt (hmem b).1 hb)]

/-! ### Within a call -/

section Steps

variable {N seqId : ℕ} {e e' : LLMEngine κ D}

/-- A step that keeps the counts and pins no block again. -/
theorem Underway.step (h : Underway N e seqId) (hc : Counts e e' seqId) (hn : e'.pins.Nodup) :
    Underway N e' seqId :=
  ⟨hc.tally, hn, hc.touches.numBlocks.trans h.numBlocks,
    fun s hs => (hc.touches.others s hs).trans (h.sole s hs)⟩

/-- The counts see the manager and the prefix cache only. -/
theorem Underway.congr (h : Underway N e seqId) (hm : e'.cache.manager = e.cache.manager)
    (hp : e'.prefixCache = e.prefixCache) : Underway N e' seqId := by
  have hbs : e'.blockSize = e.blockSize := congrArg BlockManager.blockSize hm
  have hpins : e'.pins = e.pins := by
    unfold pins
    rw [hp]
  refine ⟨⟨hbs ▸ h.tally.blockSize_pos, ?_, fun c hc => ?_⟩, hpins ▸ h.pins_nodup, hm ▸ h.numBlocks,
    fun s hs => hm ▸ h.sole s hs⟩
  · rw [hm, hpins]
    exact h.tally.tallied
  · rw [hbs]
    exact h.tally.cacheSize c (hp ▸ hc)

/-- **`append_token`** raises and changes nothing, or returns a slot. -/
theorem Underway.appendToken (h : Underway N e seqId) :
    (∃ x, e.cache.manager.appendToken seqId = (.error x, e.cache.manager)) ∨
    ∃ b off m, e.cache.manager.appendToken seqId = (.ok (b, off), m) ∧
      Underway N (e.setManager m) seqId := by
  cases ht : e.cache.manager.tables.lookup seqId with
  | none =>
    refine Or.inl ⟨.KeyError, ?_⟩
    rw [BlockManager.appendToken, ht]
  | some t =>
    rcases BlockManager.appendToken_tallied h.tally.tallied h.tally.blockSize_pos ht with
      ⟨-, -, happ⟩ | ⟨new, b, m, happ, hext, -, -, htal⟩
    · exact Or.inl ⟨_, happ⟩
    · exact Or.inr ⟨b, _, m, happ, h.step (h.tally.setManager htal hext.toTouches) h.pins_nodup⟩

/-- **The `finally`** takes the table away. -/
theorem Underway.free (h : Underway N e seqId) :
    ∃ m, e.cache.manager.free seqId = (.ok (), m) ∧ Quiet N (e.setManager m) := by
  obtain ⟨m, hfree, htouch, -, hgone, htal⟩ := BlockManager.free_tallied h.tally.tallied seqId
  have h' := h.step (h.tally.setManager htal htouch) h.pins_nodup
  refine ⟨m, hfree, h'.tally, h'.pins_nodup, h'.numBlocks, fun s => ?_⟩
  rcases eq_or_ne s seqId with rfl | hs
  · exact hgone
  · exact h'.sole s hs

variable {runner : ModelRunner X D R}

/-- A forward leaves the manager and the prefix cache alone, whether it returns or raises. -/
theorem forward_keeps (hwrites : runner.WritesPool) {adopted tokenIds positions writeSlots : List ℕ}
    {seqMeta : List SeqMeta} {r : Except Exc (List X)}
    (hrun : e.forward runner adopted tokenIds positions writeSlots seqMeta = (r, e')) :
    e'.cache.manager = e.cache.manager ∧ e'.prefixCache = e.prefixCache := by
  obtain rfl := (Prod.mk.inj hrun).2
  exact ⟨hwrites tokenIds positions writeSlots seqMeta e.cache, rfl⟩

variable [Field R] [LinearOrder R]

/-- **The decode loop**, wherever it is left. -/
theorem Underway.decode (h : Underway N e seqId) (hwrites : runner.WritesPool) (torch : Torch R)
    (src : Source R G) (reuse : List ℕ) (params : SamplingParams R) (eos : Option ℕ) (n nextId cur : ℕ)
    (g : G) :
    Underway N (LLMEngine.decode torch src runner seqId reuse params eos n nextId cur e g).2.1 seqId := by
  induction n generalizing nextId cur e g with
  | zero => exact h
  | succ n ih =>
    rw [LLMEngine.decode]
    split
    · exact h
    rcases h.appendToken with ⟨x, happ⟩ | ⟨b, off, m, happ, h₁⟩
    · simp only [happ]
      exact h
    simp only [happ]
    cases m.blockTable seqId with
    | error x => exact h₁
    | ok table =>
      rcases hrun : (e.setManager m).forward runner reuse [nextId] [cur] [b * e.blockSize + off]
        [⟨table.blockIds, 1, cur + 1⟩] with ⟨x | hidden, e₁⟩
      all_goals
        obtain ⟨hm, hp⟩ := forward_keeps hwrites hrun
        have h₂ := h₁.congr hm hp
        simp only [hrun]
      · exact h₂
      rcases sampleNext torch src params (runner.logits (lastRow hidden)) g with ⟨x | t, g₁⟩
      · exact h₂
      have h₃ := ih h₂ t (cur + 1) g₁
      simp only
      rcases hdec : LLMEngine.decode torch src runner seqId reuse params eos n t (cur + 1) e₁ g₁ with
        ⟨x | out, e₂, g₂⟩
      all_goals
        rw [hdec] at h₃
        exact h₃

end Steps

/-! ### The prompt -/

section Prompt

variable [DecidableEq κ] {N seqId : ℕ} {e e' : LLMEngine κ D}

/-- The block that the prefix cache holds under a key. -/
def entry (e : LLMEngine κ D) (key : κ) : Option ℕ :=
  e.prefixCache.bind fun c => (c.nodes.lookup key).map CacheNode.block

/-- The call of `forward` in the prefill returns. -/
def prefillForwards (runner : ModelRunner X D R) (e : LLMEngine κ D) (promptIds reuse : List ℕ)
    (table : BlockTable) : Bool :=
  let n := promptIds.length
  let start := reuse.length * e.blockSize
  let q := n - start
  match e.cache.slotsForPositions table.blockIds (List.range' start q) with
  | .error _ => false
  | .ok writeSlots =>
    (runner.forward (promptIds.drop start) (List.range' start q) writeSlots [⟨table.blockIds, q, n⟩]
      e.cache).1.toBool

/-- A call of `generate` gets as far as to complete the forward of its prefill. -/
def promptForwards (H : RollingHash κ) (runner : ModelRunner X D R) (e : LLMEngine κ D) (seqId : ℕ)
    (promptIds : List ℕ) : Bool :=
  match e.adopt H promptIds with
  | (reuse, e) =>
    match e.cache.manager.allocate seqId promptIds.length reuse with
    | (.error _, _) => false
    | (.ok table, m) => (e.setManager m).prefillForwards runner promptIds reuse table

/-- **The prompt has its table**: adopted blocks, each under its key, and blocks that were free. -/
structure Prompted (N : ℕ) (H : RollingHash κ) (e : LLMEngine κ D) (seqId : ℕ)
    (promptIds reuse new : List ℕ) : Prop extends Underway N e seqId where
  table : e.cache.manager.tables.lookup seqId = some ⟨reuse ++ new, promptIds.length⟩
  registered : ∀ i < reuse.length, e.entry (rollingHash H e.blockSize (i + 1) promptIds) ≠ none
  new_nodup : new.Nodup
  new_fresh : ∀ b ∈ new, b ∉ e.pins

variable {H : RollingHash κ} {promptIds reuse new : List ℕ}

/-- **`adopt`** changes no entry, and what it adopts is entered. -/
theorem adopt_entry (h : Tally e) (hadopt : e.adopt H promptIds = (reuse, e')) :
    (∀ key, e'.entry key = e.entry key) ∧
      ∀ i < reuse.length, e'.entry (rollingHash H e.blockSize (i + 1) promptIds) ≠ none := by
  unfold adopt at hadopt
  cases hc : e.prefixCache with
  | none =>
    rw [hc] at hadopt
    obtain ⟨rfl, rfl⟩ := Prod.mk.inj hadopt
    exact ⟨fun _ => rfl, fun i hi => absurd hi (Nat.not_lt_zero i)⟩
  | some c =>
    obtain ⟨-, hsame, -, -, hcached⟩ := PrefixCache.match_spec H c promptIds
    simp only [hc] at hadopt
    obtain ⟨hreuse, rfl⟩ := Prod.mk.inj hadopt
    obtain ⟨hpre, -⟩ := popReuse_spec e.blockSize promptIds.length (c.match H promptIds).1.length
      (c.match H promptIds).1 le_rfl
    rw [hreuse] at hpre
    refine ⟨fun key => ?_, fun i hi => ?_⟩
    · rw [entry, entry, hc]
      exact hsame key
    · have hlt : i < (c.match H promptIds).1.length := hi.trans_le hpre.length_le
      have hentry := hcached i _ (List.getElem?_eq_getElem hlt)
      rw [h.cacheSize c hc] at hentry
      show ((c.match H promptIds).2.nodes.lookup _).map CacheNode.block ≠ none
      rw [hsame, hentry]
      exact Option.some_ne_none _

/-- **`register`** pins no block twice. -/
theorem Prompted.register_nodup (h : Prompted N H e seqId promptIds reuse new) :
    (e.register H promptIds (reuse ++ new)).2.pins.Nodup := by
  unfold register
  cases hc : e.prefixCache with
  | none => exact h.pins_nodup
  | some c =>
    have hpins : e.pins = c.pins := pins_of_cache hc
    set kbs := (PrefixCache.blockHashes H c.bs promptIds).zip (reuse ++ new) with hkbs
    -- a key that is not entered stands at a block that is not adopted
    have hfresh : ∀ (i : ℕ) (kb : κ × ℕ), kbs[i]? = some kb → c.nodes.lookup kb.1 = none →
        reuse.length ≤ i ∧ new[i - reuse.length]? = some kb.2 := by
      intro i kb hi hnone
      obtain ⟨hkey, hblock⟩ := List.getElem?_zip_eq_some.1 hi
      obtain ⟨-, hkey⟩ := PrefixCache.of_blockHashes_getElem? hkey
      rw [h.tally.cacheSize c hc] at hkey
      have hge : reuse.length ≤ i := by
        by_contra hlt
        refine h.registered i (not_le.1 hlt) ?_
        rw [entry, hc, ← hkey, Option.bind_some, hnone]
        rfl
      rw [List.getElem?_append_right hge] at hblock
      exact ⟨hge, hblock⟩
    refine PrefixCache.insertLoop_nodup { c with clock := c.clock + 1 } e.cache.manager kbs
      (hpins ▸ h.pins_nodup) ?_ ?_
    · rw [List.pairwise_iff_getElem]
      intro i j hi hj hij hnone hnone' heq
      obtain ⟨hge, hb⟩ := hfresh i _ (List.getElem?_eq_getElem hi) hnone
      obtain ⟨hge', hb'⟩ := hfresh j _ (List.getElem?_eq_getElem hj) hnone'
      obtain ⟨hlt, hb⟩ := List.getElem?_eq_some_iff.1 hb
      obtain ⟨hlt', hb'⟩ := List.getElem?_eq_some_iff.1 hb'
      have hsame := (List.Nodup.getElem_inj_iff h.new_nodup).1 (hb.trans (heq.trans hb'.symm))
      omega
    · intro kb hkb hnone
      obtain ⟨i, hi⟩ := List.getElem?_of_mem hkb
      obtain ⟨-, hb⟩ := hfresh i kb hi hnone
      rw [show PrefixCache.pins { c with clock := c.clock + 1 } = c.pins from rfl, ← hpins]
      exact h.new_fresh kb.2 (List.mem_of_getElem? hb)

/-- **The start of a call**: the allocation raises, or the prompt has its table. -/
theorem Quiet.start (h : Quiet N e) (H : RollingHash κ) (seqId : ℕ) (promptIds : List ℕ) :
    ∃ reuse e₁, e.adopt H promptIds = (reuse, e₁) ∧ Quiet N e₁ ∧ (∀ key, e₁.entry key = e.entry key) ∧
      ((∃ x, e₁.cache.manager.allocate seqId promptIds.length reuse = (.error x, e₁.cache.manager)) ∨
        ∃ new m, e₁.cache.manager.allocate seqId promptIds.length reuse =
            (.ok ⟨reuse ++ new, promptIds.length⟩, m) ∧
          Prompted N H (e₁.setManager m) seqId promptIds reuse new) := by
  obtain ⟨reuse, e₁, hadopt, htal, hcache, hpins, hreuse, hshort⟩ := adopt_tally H h.tally promptIds
  obtain ⟨hentry, hregistered⟩ := adopt_entry h.tally hadopt
  have hquiet : Quiet N e₁ :=
    ⟨htal, hpins ▸ h.pins_nodup, hcache ▸ h.numBlocks, fun s => hcache ▸ h.no_table s⟩
  refine ⟨reuse, e₁, hadopt, hquiet, hentry, ?_⟩
  have hlen : reuse.length ≤ e₁.cache.manager.blocksNeeded promptIds.length := by
    rw [hcache]
    exact BlockManager.length_le_blocksNeeded _ h.tally.blockSize_pos hshort
  rcases BlockManager.allocate_tallied htal.tallied htal.blockSize_pos seqId promptIds.length
      (fun b hb => Multiset.mem_add.2 (Or.inr (hpins ▸ hreuse b hb))) hlen with
    ⟨-, msg, halloc⟩ | ⟨-, -, msg, halloc⟩ | ⟨-, new, m, halloc, hext, -, htal'⟩
  · exact Or.inl ⟨_, halloc⟩
  · exact Or.inl ⟨_, halloc⟩
  refine Or.inr ⟨new, m, halloc, ?_⟩
  have hc := htal.setManager htal' hext.toTouches
  have hfree : (m.freeList ++ new.reverse).Nodup := hext.freeList ▸ htal.tallied.counted.free_nodup
  refine ⟨⟨hc.tally, hquiet.pins_nodup, hext.numBlocks.trans hquiet.numBlocks, fun s hs => ?_⟩, hext.table,
    fun i hi => ?_, ?_, fun b hb hpin => ?_⟩
  · exact (hext.others s hs).trans (hquiet.no_table s)
  · have hbs : (e₁.setManager m).blockSize = e.blockSize := by
      show m.blockSize = _
      rw [hext.blockSize, hcache]
      rfl
    rw [hbs]
    exact hregistered i hi
  · exact List.nodup_reverse.1 hfree.of_append_right
  · have hmem : b ∈ e₁.cache.manager.freeList := by
      rw [hext.freeList]
      exact List.mem_append_right _ (List.mem_reverse.2 hb)
    exact ((htal.tallied.counted.free_iff b).1 hmem).2 (Multiset.mem_add.2 (Or.inr hpin))

/-- **The prefill**, wherever it is left: no block is pinned twice, and if its forward raises nothing is
entered. -/
theorem Prompted.prefill [Field R] [LinearOrder R] (h : Prompted N H e seqId promptIds reuse new)
    {runner : ModelRunner X D R} (hwrites : runner.WritesPool) (torch : Torch R) (src : Source R G)
    (params : SamplingParams R) (g : G) :
    ∃ r e' g', e.prefill H torch src runner g seqId promptIds reuse ⟨reuse ++ new, promptIds.length⟩
        params = (r, e', g') ∧ Underway N e' seqId ∧
      (e.prefillForwards runner promptIds reuse ⟨reuse ++ new, promptIds.length⟩ = false →
        ∃ x, r = .error x ∧ e'.prefixCache = e.prefixCache) := by
  unfold LLMEngine.prefill prefillForwards
  dsimp only
  set start := reuse.length * e.blockSize
  set q := promptIds.length - start
  set counting : LLMEngine κ D := { e with lastPrefillTokens := q } with hcounting
  have h₀ : Underway N counting seqId := h.toUnderway.congr rfl rfl
  cases hslots : e.cache.slotsForPositions (reuse ++ new) (List.range' start q) with
  | error x => exact ⟨.error x, counting, g, rfl, h₀, fun _ => ⟨x, rfl, rfl⟩⟩
  | ok writeSlots =>
    simp only
    rcases hrun : counting.forward runner reuse (promptIds.drop start) (List.range' start q) writeSlots
      [⟨reuse ++ new, q, promptIds.length⟩] with ⟨x | hidden, e₁⟩
    all_goals
      obtain ⟨hm, hp⟩ := forward_keeps hwrites hrun
      have h₁ := h₀.congr hm hp
      have hfwd := (Prod.mk.inj hrun).1
      simp only
    · exact ⟨.error x, e₁, g, rfl, h₁, fun _ => ⟨x, rfl, hp⟩⟩
    -- the forward has returned: `num_tokens` is assigned and the prompt registered
    have htable : e₁.cache.manager.tables.lookup seqId = some ⟨reuse ++ new, promptIds.length⟩ :=
      hm ▸ h.table
    have hset := h₁.tally.tallied.setTokens htable (h₁.tally.tallied.capacity seqId _ htable)
    set e₂ := e₁.setManager (e₁.cache.manager.setTable seqId ⟨reuse ++ new, promptIds.length⟩) with he₂
    have hc₂ : Counts e₁ e₂ seqId := h₁.tally.setManager hset BlockManager.touches_setTable
    have hbs₂ : e₂.blockSize = e.blockSize := congrArg (·.blockSize) hm
    have h₂ : Prompted N H e₂ seqId promptIds reuse new := by
      refine ⟨h₁.step hc₂ h₁.pins_nodup, AList.lookup_insert _, fun i hi => ?_, h.new_nodup,
        fun b hb => ?_⟩
      · rw [hbs₂, entry, show e₂.prefixCache = e.prefixCache from hp]
        exact h.registered i hi
      · rw [show e₂.pins = e.pins by unfold pins; rw [show e₂.prefixCache = e.prefixCache from hp]]
        exact h.new_fresh b hb
    obtain ⟨e₃, hreg, hc₃, -, -⟩ := register_tally H hc₂.tally promptIds h₂.table
    have h₃ : Underway N e₃ seqId := by
      have hn := h₂.register_nodup
      rw [hreg] at hn
      exact h₂.toUnderway.step hc₃ hn
    simp only [hreg]
    refine ⟨_, e₃, _, rfl, h₃, fun hraised => ?_⟩
    rw [show (runner.forward _ _ _ _ e.cache).1 = .ok hidden from hfwd] at hraised
    cases hraised

end Prompt

/-! ### A call -/

section Call

variable [DecidableEq κ] [Field R] [LinearOrder R] {N : ℕ} {e : LLMEngine κ D}

/-- **The part before decoding.**  The allocation raises and nothing has changed, or the call is underway
with its prefill done or left; if the forward of the prompt did not complete nothing is entered. -/
theorem Quiet.prompt (h : Quiet N e) {runner : ModelRunner X D R} (hwrites : runner.WritesPool)
    (H : RollingHash κ) (torch : Torch R) (src : Source R G) (g : G) (seqId : ℕ) (promptIds : List ℕ)
    (params : SamplingParams R) :
    ∃ reuse e₁, e.adopt H promptIds = (reuse, e₁) ∧
      ((∃ x, e₁.cache.manager.allocate seqId promptIds.length reuse = (.error x, e₁.cache.manager)) ∧
          Quiet N e₁ ∧ (∀ key, e₁.entry key = e.entry key) ∨
        ∃ table m r e₃ g₃, e₁.cache.manager.allocate seqId promptIds.length reuse = (.ok table, m) ∧
          (e₁.setManager m).prefill H torch src runner g seqId promptIds reuse table params = (r, e₃, g₃) ∧
          Underway N e₃ seqId ∧
          (e.promptForwards H runner seqId promptIds = false →
            ∃ x, r = .error x ∧ ∀ key, e₃.entry key = e.entry key)) := by
  obtain ⟨reuse, e₁, hadopt, h₁, hentry, hstart⟩ := h.start H seqId promptIds
  refine ⟨reuse, e₁, hadopt, ?_⟩
  rcases hstart with hraise | ⟨new, m, halloc, h₂⟩
  · exact Or.inl ⟨hraise, h₁, hentry⟩
  obtain ⟨r, e₃, g₃, hprefill, h₃, hno⟩ := h₂.prefill hwrites torch src params g
  refine Or.inr ⟨_, m, r, e₃, g₃, halloc, hprefill, h₃, fun hforwards => ?_⟩
  rw [promptForwards, hadopt] at hforwards
  simp only [halloc] at hforwards
  obtain ⟨x, hx, hsame⟩ := hno hforwards
  refine ⟨x, hx, fun key => ?_⟩
  rw [← hentry key, entry, entry, hsame]
  rfl

/-- **A call of `generate`**, however it ends. -/
theorem Quiet.generate (h : Quiet N e) {runner : ModelRunner X D R} (hwrites : runner.WritesPool)
    (H : RollingHash κ) (torch : Torch R) (src : Source R G) (g : G) (seqId : ℕ) (promptIds : List ℕ)
    (maxNewTokens : ℕ) (params : SamplingParams R) (eos : Option ℕ) :
    ∃ r e' g', e.generate H torch src runner g seqId promptIds maxNewTokens params eos = (r, e', g') ∧
      Quiet N e' ∧ (e.promptForwards H runner seqId promptIds = false →
        r.toBool = false ∧ ∀ key, e'.entry key = e.entry key) := by
  obtain ⟨reuse, e₁, hadopt, hprompt⟩ := h.prompt hwrites H torch src g seqId promptIds params
  unfold LLMEngine.generate generateBody
  rw [hadopt]
  dsimp only
  rcases hprompt with ⟨⟨x, halloc⟩, h₁, hentry⟩ | ⟨table, m, r, e₃, g₃, halloc, hprefill, h₃, hno⟩
  · rw [halloc]
    exact ⟨.error x, e₁, g, rfl, h₁, fun _ => ⟨rfl, hentry⟩⟩
  rw [halloc]
  dsimp only
  rw [hprefill]
  rcases r with x | t
  · obtain ⟨m', hfree, h₄⟩ := h₃.free
    simp only [hfree]
    refine ⟨.error x, e₃.setManager m', g₃, rfl, h₄, fun hforwards => ?_⟩
    obtain ⟨-, -, hentry⟩ := hno hforwards
    exact ⟨rfl, hentry⟩
  have h₄ := h₃.decode hwrites torch src reuse params eos (maxNewTokens - 1) t promptIds.length g₃
  simp only
  rcases hdec : LLMEngine.decode torch src runner seqId reuse params eos (maxNewTokens - 1) t
    promptIds.length e₃ g₃ with ⟨x | out, e₄, g₄⟩
  all_goals
    rw [hdec] at h₄
    obtain ⟨m', hfree, h₅⟩ := h₄.free
    simp only [hfree]
    refine ⟨_, _, _, rfl, h₅, fun hforwards => ?_⟩
    obtain ⟨x, hx, -⟩ := hno hforwards
    cases hx

end Call

end LLMEngine

/-! ### A call with CUDA graphs -/

/-- A replay changes rows of the pool only. -/
theorem CudaGraphDecoder.decode_pool {X D R : Type} [Zero D] [Add X] (T : Transformer X D R)
    (fused : Option (ℕ → X → List D)) (graph : CudaGraphDecoder R) (c : PagedKVCache D)
    (token position writeSlot : ℕ) (ctxSlots : List ℕ) :
    ∃ pool, (graph.decode T fused c token position writeSlot ctxSlots).2.1 = { c with pool } := by
  unfold decode
  split
  · exact ⟨c.pool, rfl⟩
  split
  · exact ⟨c.pool, rfl⟩
  next b _ =>
    extract_lets b'
    obtain ⟨pool, hpool⟩ := T.graphForward_pool fused b'.pos b'.wslot b'.cslots b'.mask b'.tok c
    refine ⟨pool, ?_⟩
    rw [← hpool]
    rcases T.graphForward fused b'.tok b'.pos b'.wslot b'.cslots b'.mask c with ⟨_ | _, _⟩ <;> rfl

namespace GraphEngine

open LLMEngine

variable {κ X D R G : Type} [Zero D] [Add X] {T : Transformer X D R} {fused : Option (ℕ → X → List D)}
  {N seqId : ℕ} {ge ge' : GraphEngine κ D R}

/-- One decoded token, replayed or eager, leaves the manager and the prefix cache alone. -/
theorem step_keeps {adopted blockIds : List ℕ} {nextId cur wslot : ℕ}
    {r : Except GraphExc (List (List R))}
    (hrun : step T fused ge adopted blockIds nextId cur wslot = (r, ge')) :
    ge'.engine.cache.manager = ge.engine.cache.manager ∧
      ge'.engine.prefixCache = ge.engine.prefixCache := by
  unfold step at hrun
  split at hrun
  · split at hrun
    · obtain rfl := (Prod.mk.inj hrun).2
      exact ⟨rfl, rfl⟩
    next cslots _ =>
      obtain ⟨pool, hpool⟩ := ge.graph.decode_pool T fused ge.engine.cache nextId cur wslot cslots
      have hkeeps : (replay T fused ge adopted nextId cur wslot cslots).2.engine.cache.manager =
          ge.engine.cache.manager := congrArg (·.manager) hpool
      rcases hreplay : replay T fused ge adopted nextId cur wslot cslots with ⟨x | logits, ge₁⟩
      all_goals
        rw [hreplay] at hrun hkeeps
        obtain rfl := (Prod.mk.inj hrun).2
        exact ⟨hkeeps, (congrArg (·.2.engine.prefixCache) hreplay).symm⟩
  · rcases hfwd : ge.engine.forward (T.withFused fused).runner adopted [nextId] [cur] [wslot]
      [⟨blockIds, 1, cur + 1⟩] with ⟨x | hidden, e₁⟩
    all_goals
      rw [hfwd] at hrun
      obtain rfl := (Prod.mk.inj hrun).2
      exact forward_keeps (T.withFused fused).writesPool hfwd

variable [Field R] [LinearOrder R]

/-- **The decode loop**, wherever it is left and whatever the decoder holds. -/
theorem decode_underway (T : Transformer X D R) (fused : Option (ℕ → X → List D)) (ge : GraphEngine κ D R)
    (h : Underway N ge.engine seqId) (torch : Torch R) (src : Source R G) (reuse : List ℕ)
    (params : SamplingParams R) (eos : Option ℕ) (n nextId cur : ℕ) (g : G) :
    Underway N (decode torch src T fused seqId reuse params eos n nextId cur ge g).2.1.engine seqId := by
  induction n generalizing nextId cur ge g with
  | zero => exact h
  | succ n ih =>
    rw [decode]
    split
    · exact h
    rcases h.appendToken with ⟨x, happ⟩ | ⟨b, off, m, happ, h₁⟩
    · simp only [happ]
      exact h
    simp only [happ]
    cases m.blockTable seqId with
    | error x => exact h₁
    | ok table =>
      rcases hrun : step T fused ⟨ge.engine.setManager m, ge.graph⟩ reuse table.blockIds nextId cur
        (b * ge.engine.blockSize + off) with ⟨x | logits, ge₁⟩
      all_goals
        obtain ⟨hm, hp⟩ := step_keeps hrun
        have h₂ := h₁.congr hm hp
        simp only [hrun]
      · exact h₂
      rcases sampleNext torch src params logits g with ⟨x | t, g₁⟩
      · exact h₂
      have h₃ := ih ge₁ h₂ t (cur + 1) g₁
      simp only
      rcases hdec : decode torch src T fused seqId reuse params eos n t (cur + 1) ge₁ g₁ with
        ⟨x | out, ge₂, g₂⟩
      all_goals
        rw [hdec] at h₃
        exact h₃

variable [DecidableEq κ]

/-- **A call of `generate`**, however it ends and whatever the decoder holds. -/
theorem generate_quiet (ge : GraphEngine κ D R) (h : Quiet N ge.engine) (H : RollingHash κ)
    (torch : Torch R) (src : Source R G) (T : Transformer X D R) (fused : Option (ℕ → X → List D)) (g : G)
    (seqId : ℕ) (promptIds : List ℕ) (maxNewTokens : ℕ) (params : SamplingParams R) (eos : Option ℕ) :
    ∃ r ge' g', ge.generate H torch src T fused g seqId promptIds maxNewTokens params eos = (r, ge', g') ∧
      Quiet N ge'.engine ∧
      (ge.engine.promptForwards H (T.withFused fused).runner seqId promptIds = false →
        r.toBool = false ∧ ∀ key, ge'.engine.entry key = ge.engine.entry key) := by
  obtain ⟨reuse, e₁, hadopt, hprompt⟩ :=
    h.prompt (T.withFused fused).writesPool H torch src g seqId promptIds params
  unfold generate generateBody
  rw [hadopt]
  dsimp only
  rcases hprompt with ⟨⟨x, halloc⟩, h₁, hentry⟩ | ⟨table, m, r, e₃, g₃, halloc, hprefill, h₃, hno⟩
  · rw [halloc]
    exact ⟨_, ⟨e₁, ge.graph⟩, g, rfl, h₁, fun _ => ⟨rfl, hentry⟩⟩
  rw [halloc]
  dsimp only
  rw [hprefill]
  rcases r with x | t
  · obtain ⟨m', hfree, h₄⟩ := h₃.free
    simp only [hfree]
    refine ⟨_, ⟨e₃.setManager m', ge.graph⟩, g₃, rfl, h₄, fun hforwards => ?_⟩
    obtain ⟨-, -, hentry⟩ := hno hforwards
    exact ⟨rfl, hentry⟩
  have h₄ := decode_underway T fused ⟨e₃, ge.graph⟩ h₃ torch src reuse params eos (maxNewTokens - 1) t
    promptIds.length g₃
  simp only
  rcases hdec : decode torch src T fused seqId reuse params eos (maxNewTokens - 1) t promptIds.length
    ⟨e₃, ge.graph⟩ g₃ with ⟨x | out, ge₄, g₄⟩
  all_goals
    rw [hdec] at h₄
    obtain ⟨m', hfree, h₅⟩ := h₄.free
    simp only [hfree]
    refine ⟨_, _, _, rfl, h₅, fun hforwards => ?_⟩
    obtain ⟨x, hx, -⟩ := hno hforwards
    cases hx

end GraphEngine

/-! ### Every sequence of calls -/

open LLMEngine

section Calls

variable {κ D : Type} (X R G : Type) [Zero D] [Add X] [Field R] [LinearOrder R] [DecidableEq κ]

/-- An engine after any calls of `generate`.  It was built with or without graphs.  A call is eager,
with any forward that leaves the block manager alone, so it may raise wherever it likes, or it
goes through a graph decoder in any state. -/
inductive Called (H : RollingHash κ) (numBlocks blockSize : ℕ) (prefixCache : Bool) :
    LLMEngine κ D → Prop
  | init (T : Transformer X D R) : Called H numBlocks blockSize prefixCache
      (.init T numBlocks blockSize prefixCache)
  | initGraph (T : Transformer X D R) (fused : Option (ℕ → X → List D)) (graphBuckets : List ℕ)
      {ge : GraphEngine κ D R}
      (h : GraphEngine.init T fused numBlocks blockSize prefixCache graphBuckets = .ok ge) :
      Called H numBlocks blockSize prefixCache ge.engine
  | generate {e : LLMEngine κ D} (runner : ModelRunner X D R) (hwrites : runner.WritesPool)
      (torch : Torch R) (src : Source R G) (g : G) (seqId : ℕ) (promptIds : List ℕ) (maxNewTokens : ℕ)
      (params : SamplingParams R) (eos : Option ℕ) : Called H numBlocks blockSize prefixCache e →
      Called H numBlocks blockSize prefixCache
        (e.generate H torch src runner g seqId promptIds maxNewTokens params eos).2.1
  | generateGraph {ge : GraphEngine κ D R} (T : Transformer X D R) (fused : Option (ℕ → X → List D))
      (torch : Torch R) (src : Source R G) (g : G) (seqId : ℕ) (promptIds : List ℕ) (maxNewTokens : ℕ)
      (params : SamplingParams R) (eos : Option ℕ) :
      Called H numBlocks blockSize prefixCache ge.engine →
      Called H numBlocks blockSize prefixCache
        (ge.generate H torch src T fused g seqId promptIds maxNewTokens params eos).2.1.engine

variable {X R G} {H : RollingHash κ} {numBlocks blockSize : ℕ} {prefixCache : Bool}

omit [Field R] [LinearOrder R] in
/-- A new engine. -/
theorem init_quiet (T : Transformer X D R) (H : RollingHash κ) (hbs : 0 < blockSize) :
    Quiet numBlocks (.init T numBlocks blockSize prefixCache : LLMEngine κ D) := by
  have hpins : pins (.init T numBlocks blockSize prefixCache : LLMEngine κ D) = 0 := by
    cases prefixCache <;> rfl
  exact ⟨init_tally T H numBlocks hbs prefixCache, hpins ▸ Multiset.nodup_zero, rfl, fun _ => rfl⟩

/-- **Every sequence of calls** leaves the engine quiet. -/
theorem Called.quiet (hbs : 0 < blockSize) {e : LLMEngine κ D}
    (h : Called X R G H numBlocks blockSize prefixCache e) : Quiet numBlocks e := by
  induction h with
  | init T => exact init_quiet T H hbs
  | @initGraph T fused graphBuckets ge hinit =>
    have h₀ : Quiet numBlocks (.init T numBlocks blockSize prefixCache : LLMEngine κ D) :=
      init_quiet T H hbs
    unfold GraphEngine.init at hinit
    rcases hcap : CudaGraphDecoder.capture T fused (.init graphBuckets)
        (LLMEngine.init T numBlocks blockSize prefixCache : LLMEngine κ D).cache with ⟨x | graph, cache⟩
    · simp only [hcap] at hinit
      cases hinit
    · simp only [hcap] at hinit
      obtain rfl := Except.ok.inj hinit
      obtain ⟨⟨pool, rfl⟩, -⟩ := CudaGraphDecoder.captureLoop_spec T fused hcap
      exact ⟨⟨h₀.tally.blockSize_pos, h₀.tally.tallied, h₀.tally.cacheSize⟩, h₀.pins_nodup, h₀.numBlocks,
        h₀.no_table⟩
  | generate runner hwrites torch src g seqId promptIds maxNewTokens params eos _ ih =>
    obtain ⟨r, e', g', hgen, hquiet, -⟩ :=
      ih.generate hwrites H torch src g seqId promptIds maxNewTokens params eos
    rw [hgen]
    exact hquiet
  | generateGraph T fused torch src g seqId promptIds maxNewTokens params eos _ ih =>
    obtain ⟨r, ge', g', hgen, hquiet, -⟩ :=
      GraphEngine.generate_quiet _ ih H torch src T fused g seqId promptIds maxNewTokens params eos
    rw [hgen]
    exact hquiet

end Calls

/-- **`generate` leaves only the pins of the prefix cache.**  After any calls on an engine, however
each of them ended, no sequence has a table, the blocks that are not free are those of the nodes
of the prefix cache, one block a node, and each of them has one reference.  A further call that
does not get its forward of the prompt completed raises and leaves the entries of the cache as
they were.  The hash is arbitrary. -/
theorem generate_leaves_only_pins {κ X D R G : Type} [Zero D] [Add X] [Field R] [LinearOrder R]
    [DecidableEq κ] (H : RollingHash κ) {numBlocks blockSize : ℕ} (hbs : 1 ≤ blockSize)
    {prefixCache : Bool} {e : LLMEngine κ D} (h : Called X R G H numBlocks blockSize prefixCache e) :
    OnlyPins e ∧ e.cache.manager.numBlocks = numBlocks ∧
    ∀ (torch : Torch R) (src : Source R G) (g : G) seqId promptIds maxNewTokens params eos,
      (∀ runner : ModelRunner X D R, runner.WritesPool →
        e.promptForwards H runner seqId promptIds = false →
          let out := e.generate H torch src runner g seqId promptIds maxNewTokens params eos
          out.1.toBool = false ∧ ∀ key, out.2.1.entry key = e.entry key) ∧
      ∀ (T : Transformer X D R) fused graph,
        e.promptForwards H (T.withFused fused).runner seqId promptIds = false →
          let out := GraphEngine.generate H torch src T fused ⟨e, graph⟩ g seqId promptIds maxNewTokens
            params eos
          out.1.toBool = false ∧ ∀ key, out.2.1.engine.entry key = e.entry key := by
  have hquiet := h.quiet hbs
  refine ⟨hquiet.onlyPins, hquiet.numBlocks, fun torch src g seqId promptIds maxNewTokens params eos =>
    ⟨fun runner hwrites hno => ?_, fun T fused graph hno => ?_⟩⟩
  · obtain ⟨r, e', g', hgen, -, hraised⟩ :=
      hquiet.generate hwrites H torch src g seqId promptIds maxNewTokens params eos
    intro out
    rw [show out = (r, e', g') from hgen]
    exact hraised hno
  · obtain ⟨r, ge', g', hgen, -, hraised⟩ := GraphEngine.generate_quiet ⟨e, graph⟩ hquiet H torch src
      T fused g seqId promptIds maxNewTokens params eos
    intro out
    rw [show out = (r, ge', g') from hgen]
    exact hraised hno

/-- The hypotheses are satisfiable: one call returns, one raises at its first decoded token, after its
prompt was registered, and one finds too few blocks; two blocks stay pinned.  A call whose
forward raises on the prompt enters nothing. -/
theorem generate_leaves_only_pins_raising :
    let torch : Torch ℚ := ⟨id, fun _ => []⟩
    let src : Source ℚ Unit := ⟨fun g => (0, g), fun _ g => (0, g)⟩
    let failing (n : ℕ) : ModelRunner ℤ ℤ ℚ :=
      ⟨fun toks pos slots seqMeta c =>
        if toks.length = n then (.error .IndexError, c) else sumModel.forward toks pos slots seqMeta c,
        sumModel.logits⟩
    let call runner (e : LLMEngine (List ℕ) ℤ) seqId promptIds :=
      e.generate listHash torch src runner () seqId promptIds 2 .default none
    let e₁ := (call sumModel.runner (.init sumModel 3 2 true) 0 [0, 1, 2]).2.1
    let e₂ := (call (failing 1) e₁ 1 [0, 1, 2, 0]).2.1
    let e₃ := (call sumModel.runner e₂ 2 [1, 1, 1, 1]).2.1
    OnlyPins e₃ ∧ e₃.held = [2, 1] ∧ (call (failing 1) e₁ 1 [0, 1, 2, 0]).1.toBool = false ∧
      (call sumModel.runner e₂ 2 [1, 1, 1, 1]).1.toBool = false ∧
      ∀ key, (call (failing 2) e₃ 3 [1, 1]).2.1.entry key = e₃.entry key := by
  intro torch src failing call e₁ e₂ e₃
  have hfailing : ∀ n, (failing n).WritesPool := by
    intro n toks pos slots seqMeta c
    show (if toks.length = n then _ else _ : Except Exc (List ℤ) × PagedKVCache ℤ).2.manager = c.manager
    split
    · rfl
    · exact sumModel.writesPool toks pos slots seqMeta c
  have h₁ : Called ℤ ℚ Unit listHash 3 2 true e₁ :=
    .generate sumModel.runner sumModel.writesPool torch src () 0 [0, 1, 2] 2 .default none (.init sumModel)
  have h₂ : Called ℤ ℚ Unit listHash 3 2 true e₂ :=
    .generate (failing 1) (hfailing 1) torch src () 1 [0, 1, 2, 0] 2 .default none h₁
  have h₃ : Called ℤ ℚ Unit listHash 3 2 true e₃ :=
    .generate sumModel.runner sumModel.writesPool torch src () 2 [1, 1, 1, 1] 2 .default none h₂
  obtain ⟨hpins, -, hcall⟩ := generate_leaves_only_pins listHash (by decide) h₃
  have hno : e₃.promptForwards listHash (failing 2) 3 [1, 1] = false := by
    decide +kernel
  obtain ⟨-, hentry⟩ := (hcall torch src () 3 [1, 1] 2 .default none).1 (failing 2) (hfailing 2) hno
  have hheld : e₃.held = [2, 1] := by
    decide +kernel
  have hraised : (call (failing 1) e₁ 1 [0, 1, 2, 0]).1.toBool = false := by
    decide +kernel
  have hraised' : (call sumModel.runner e₂ 2 [1, 1, 1, 1]).1.toBool = false := by
    decide +kernel
  refine ⟨hpins, hheld, hraised, hraised', fun key => ?_⟩
  rw [← hentry key]

end DiSpec
