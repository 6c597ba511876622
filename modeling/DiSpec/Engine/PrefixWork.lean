/-
# What the prefix cache saves

`dispec/engine/engine.py`: `LLMEngine.generate` with a prefix cache, for any sequence of calls, which
may return, find too few blocks, or fail in a forward.

No call evicts, and a prompt is registered as soon as its forward has completed, whatever becomes of
the call afterwards.  So the keys cached are those of the whole blocks of these prompts
(`Remembers`), and the blocks adopted for the next prompt are the longest leading part in whole
blocks, short of its last token, that it has in common with one of them (`adopt_isGreatest`).  Its
forward gets the rest (`prefill_unshared`).
-/

import DiSpec.Engine.Residue
import DiSpec.KV.Eviction

namespace DiSpec

/-! ### What is cached -/

/-- The loop of `insert`, when it returns, adds the keys it is given. -/
theorem PrefixCache.insertLoop_keys {κ : Type} [DecidableEq κ] {c c' : PrefixCache κ}
    {m m' : BlockManager} {kbs : List (κ × ℕ)} (h : c.insertLoop m kbs = (.ok (), c', m')) :
    c'.bs = c.bs ∧ ∀ key, key ∈ c'.nodes ↔ key ∈ c.nodes ∨ key ∈ kbs.map Prod.fst := by
  induction kbs generalizing c m with
  | nil =>
    obtain ⟨rfl, -⟩ := Prod.mk.inj (Prod.mk.inj h).2
    exact ⟨rfl, fun key => by simp⟩
  | cons kb kbs ih =>
    obtain ⟨k, blk⟩ := kb
    rw [insertLoop] at h
    cases hl : c.nodes.lookup k with
    | none =>
      rcases hadd : m.addRef blk with ⟨x | ⟨⟩, m₁⟩
      · simp only [hl, hadd] at h
        cases (Prod.mk.inj h).1
      · simp only [hl, hadd] at h
        obtain ⟨hbs, hkeys⟩ := ih h
        refine ⟨hbs, fun key => (hkeys key).trans ?_⟩
        rw [AList.mem_insert, List.map_cons, List.mem_cons]
        tauto
    | some node =>
      simp only [hl] at h
      obtain ⟨hbs, hkeys⟩ := ih h
      refine ⟨hbs, fun key => (hkeys key).trans ?_⟩
      have hk : k ∈ c.nodes := Dict.mem_of_lookup hl
      rw [AList.mem_replace, List.map_cons, List.mem_cons]
      constructor
      · tauto
      · rintro (hold | rfl | hnew)
        · exact Or.inl hold
        · exact Or.inl hk
        · exact Or.inr hnew

/-- The keys of a prompt are those of its whole blocks. -/
theorem PrefixCache.mem_blockHashes {κ : Type} {H : RollingHash κ} {bs : ℕ} {toks : List ℕ} {key : κ} :
    key ∈ blockHashes H bs toks ↔ ∃ i < toks.length / bs, key = rollingHash H bs (i + 1) toks := by
  constructor
  · intro h
    obtain ⟨i, hi⟩ := List.getElem?_of_mem h
    exact ⟨i, of_blockHashes_getElem? hi⟩
  · rintro ⟨i, hi, rfl⟩
    exact List.mem_of_getElem? (blockHashes_getElem? H bs toks hi)

namespace LLMEngine

variable {κ X D R G : Type} {e e' : LLMEngine κ D}

/-- What is left of a cached run: as much of it as ends before the last token. -/
theorem length_popReuse {bs n fuel : ℕ} (hbs : 0 < bs) (hn : 0 < n) {reuse : List ℕ}
    (hf : reuse.length ≤ fuel) :
    (popReuse bs n fuel reuse).length = min reuse.length ((n - 1) / bs) := by
  induction fuel generalizing reuse with
  | zero => rw [popReuse, Nat.le_zero.1 hf, Nat.zero_min]
  | succ fuel ih =>
    have hlast : ∀ k, k * bs < n ↔ k ≤ (n - 1) / bs := fun k => by
      rw [Nat.le_div_iff_mul_le hbs]
      omega
    rw [popReuse]
    split
    next h =>
      have hlt := mt (hlast reuse.length).2 (not_lt.2 h.2)
      have hpos := List.length_pos_iff.2 h.1
      rw [ih (by rw [List.length_dropLast]; omega), List.length_dropLast]
      omega
    next h =>
      rw [not_and_or, not_not, not_le, hlast] at h
      rcases h with rfl | h
      · rw [List.length_nil, Nat.zero_min]
      · rw [min_eq_left h]

section Cache

variable [DecidableEq κ] {H : RollingHash κ} {N seqId : ℕ} {promptIds reuse new : List ℕ}

/-- **The prefix cache remembers prompts**: its keys are those of their whole blocks. -/
structure Remembers (H : RollingHash κ) (bs : ℕ) (earlier : List (List ℕ)) (e : LLMEngine κ D) :
    Prop where
  cache : ∃ c, e.prefixCache = some c ∧ c.bs = bs
  keys : ∀ key, e.entry key ≠ none ↔ ∃ p ∈ earlier, ∃ i < p.length / bs, key = rollingHash H bs (i + 1) p

/-- A key is entered iff it is cached. -/
theorem entry_ne_none {c : PrefixCache κ} (hc : e.prefixCache = some c) (key : κ) :
    e.entry key ≠ none ↔ key ∈ c.nodes := by
  rw [entry, hc, Option.bind_some, ne_eq, Option.map_eq_none_iff, AList.lookup_eq_none, not_not]

/-- Nothing that `Remembers` speaks of but the entries. -/
theorem Remembers.congr {bs : ℕ} {earlier : List (List ℕ)} (h : Remembers H bs earlier e)
    (hcache : e'.prefixCache = e.prefixCache) : Remembers H bs earlier e' :=
  ⟨hcache ▸ h.cache, fun key => by rw [entry, hcache]; exact h.keys key⟩

/-- **`register`** of a prompt with its table adds it to what is remembered. -/
theorem Remembers.register {bs : ℕ} {earlier : List (List ℕ)} (hr : Remembers H bs earlier e) (h : Tally e)
    {blockIds : List ℕ} (ht : e.cache.manager.tables.lookup seqId = some ⟨blockIds, promptIds.length⟩) :
    ∃ e', e.register H promptIds blockIds = (.ok (), e') ∧ Remembers H bs (earlier ++ [promptIds]) e' ∧
      e'.lastPrefillTokens = e.lastPrefillTokens ∧ e'.calls = e.calls := by
  obtain ⟨c, hc, hcbs⟩ := hr.cache
  have hsize := h.cacheSize c hc
  obtain ⟨e₁, hreg, -⟩ := register_tally H h promptIds ht
  have hreg' := hreg
  rw [LLMEngine.register, hc] at hreg'
  dsimp only at hreg'
  rcases hins : c.insert H e.cache.manager promptIds blockIds with ⟨r, c', m'⟩
  rw [hins] at hreg'
  obtain ⟨rfl, rfl⟩ := Prod.mk.inj hreg'
  obtain ⟨hbs', hkeys⟩ := PrefixCache.insertLoop_keys hins
  refine ⟨_, hreg, ⟨⟨c', rfl, hbs'.trans hcbs⟩, fun key => ?_⟩, rfl, rfl⟩
  have hroom : promptIds.length / bs ≤ blockIds.length := by
    have hcap := h.tallied.capacity seqId _ ht
    rw [← hcbs, hsize]
    exact Nat.div_le_of_le_mul (hcap.trans_eq (Nat.mul_comm _ _))
  have hzip : ((PrefixCache.blockHashes H c.bs promptIds).zip blockIds).map Prod.fst =
      PrefixCache.blockHashes H c.bs promptIds := by
    refine List.map_fst_zip ?_
    rw [PrefixCache.blockHashes_length, hcbs]
    exact hroom
  rw [entry_ne_none (c := c') rfl, hkeys, hzip, ← entry_ne_none hc, hr.keys, hcbs,
    PrefixCache.mem_blockHashes]
  constructor
  · rintro (⟨p, hp, hkey⟩ | hkey)
    · exact ⟨p, List.mem_append_left _ hp, hkey⟩
    · exact ⟨promptIds, List.mem_append_right _ (List.mem_singleton_self _), hkey⟩
  · rintro ⟨p, hp, hkey⟩
    rcases List.mem_append.1 hp with hp | hp
    · exact Or.inl ⟨p, hp, hkey⟩
    · exact Or.inr (List.mem_singleton.1 hp ▸ hkey)

/-- `m` leading blocks of the prompt end before its last token and stand at the head of an earlier one. -/
def Shared (bs : ℕ) (earlier : List (List ℕ)) (promptIds : List ℕ) (m : ℕ) : Prop :=
  m * bs < promptIds.length ∧
    (m = 0 ∨ ∃ p ∈ earlier, m * bs ≤ p.length ∧ p.take (m * bs) = promptIds.take (m * bs))

/-- A shared run of blocks has the keys of the earlier prompt. -/
theorem Remembers.cached_iff {bs : ℕ} {earlier : List (List ℕ)} (hr : Remembers H bs earlier e) (hbs : 0 < bs)
    (hH : H.PrefixInjective bs) {i : ℕ} (hi : (i + 1) * bs ≤ promptIds.length) :
    e.entry (rollingHash H bs (i + 1) promptIds) ≠ none ↔
      ∃ p ∈ earlier, (i + 1) * bs ≤ p.length ∧ p.take ((i + 1) * bs) = promptIds.take ((i + 1) * bs) := by
  rw [hr.keys]
  constructor
  · rintro ⟨p, hp, j, hj, hkey⟩
    have hj : (j + 1) * bs ≤ p.length := (Nat.le_div_iff_mul_le hbs).1 hj
    obtain rfl := hH.index hbs hi hj hkey
    exact ⟨p, hp, hj, (hH i i promptIds p hi hj hkey).symm⟩
  · rintro ⟨p, hp, hlen, htake⟩
    exact ⟨p, hp, i, (Nat.le_div_iff_mul_le hbs).2 hlen, rollingHash_congr htake.symm le_rfl⟩

/-- **The blocks adopted are the longest run shared** with a prompt that is remembered. -/
theorem Remembers.adopt_isGreatest {bs : ℕ} {earlier : List (List ℕ)} (hr : Remembers H bs earlier e)
    (h : Tally e) (hH : H.PrefixInjective bs) (h0 : promptIds ≠ []) :
    IsGreatest {m | Shared bs earlier promptIds m} (e.adopt H promptIds).1.length := by
  obtain ⟨c, hc, hcbs⟩ := hr.cache
  have hsize := h.cacheSize c hc
  have hbs : 0 < bs := hcbs ▸ hsize ▸ h.blockSize_pos
  have hn := List.length_pos_iff.2 h0
  obtain ⟨-, -, -, hle, hcached⟩ := PrefixCache.match_spec H c promptIds
  rw [hcbs] at hle hcached
  set all := (c.match H promptIds).1
  have hlen : (e.adopt H promptIds).1.length = min all.length ((promptIds.length - 1) / bs) := by
    rw [adopt, hc]
    show (popReuse e.blockSize _ _ all).length = _
    rw [← hsize, hcbs, length_popReuse hbs hn le_rfl]
  have hwhole : ∀ k ≤ promptIds.length / bs, k * bs ≤ promptIds.length := fun k hk =>
    (Nat.le_div_iff_mul_le hbs).1 hk
  rw [hlen]
  constructor
  · have hlast : min all.length ((promptIds.length - 1) / bs) * bs < promptIds.length := by
      have := (Nat.le_div_iff_mul_le hbs).1 (min_le_right all.length ((promptIds.length - 1) / bs))
      omega
    refine ⟨hlast, ?_⟩
    rcases hm : min all.length ((promptIds.length - 1) / bs) with _ | i
    · exact Or.inl rfl
    · have hi : i < all.length := by omega
      refine Or.inr ((hr.cached_iff hbs hH (hwhole (i + 1) (by omega))).1 ?_)
      rw [entry, hc, Option.bind_some, hcached i _ (List.getElem?_eq_getElem hi)]
      exact Option.some_ne_none _
  · rintro m ⟨hlast, hshared⟩
    refine le_min ?_ ((Nat.le_div_iff_mul_le hbs).2 (by omega))
    rcases hshared with rfl | ⟨p, hp, hlenp, htake⟩
    · exact Nat.zero_le _
    · refine PrefixCache.matchLoop_length { c with clock := c.clock + 1 } _ m fun j hj => ?_
      have hj' : (j + 1) * bs ≤ m * bs := Nat.mul_le_mul_right bs hj
      have hkey := (hr.cached_iff hbs hH (hj'.trans hlast.le)).2 ⟨p, hp, hj'.trans hlenp, by
        have := congrArg (List.take ((j + 1) * bs)) htake
        rwa [List.take_take, List.take_take, min_eq_left hj'] at this⟩
      refine ⟨_, ?_, (entry_ne_none hc _).1 hkey⟩
      rw [hcbs]
      exact PrefixCache.blockHashes_getElem? H bs promptIds
        ((Nat.le_div_iff_mul_le hbs).2 (hj'.trans hlast.le))

/-- The match with the cache changes no entry. -/
theorem Remembers.adopt {bs : ℕ} {earlier : List (List ℕ)} (hr : Remembers H bs earlier e) (h : Tally e)
    (promptIds : List ℕ) :
    Remembers H bs earlier (e.adopt H promptIds).2 ∧
      (e.adopt H promptIds).2.lastPrefillTokens = e.lastPrefillTokens ∧
      (e.adopt H promptIds).2.calls = e.calls := by
  obtain ⟨c, hc, hcbs⟩ := hr.cache
  obtain ⟨-, -, hbs, -⟩ := PrefixCache.match_spec H c promptIds
  obtain ⟨hentry, -⟩ := adopt_entry h (e.adopt H promptIds).eta.symm
  have hadopt : (e.adopt H promptIds).2 = { e with prefixCache := some (c.match H promptIds).2 } := by
    rw [LLMEngine.adopt, hc]
  exact ⟨⟨⟨_, congrArg _ hadopt, hbs.trans hcbs⟩, fun key => by rw [hentry]; exact hr.keys key⟩,
    by rw [hadopt], by rw [hadopt]⟩

end Cache

section Call

variable [DecidableEq κ] [Field R] [LinearOrder R] {H : RollingHash κ} {runner : ModelRunner X D R}

omit [DecidableEq κ] in
/-- **The decode loop**, wherever it is left, has nothing to do with the cache, the counter and the calls
of `forward` before it. -/
theorem decode_keeps (runner : ModelRunner X D R) (torch : Torch R) (src : Source R G) (seqId : ℕ)
    (reuse : List ℕ) (params : SamplingParams R) (eos : Option ℕ) (n nextId cur : ℕ) (e : LLMEngine κ D)
    (g : G) :
    let e' := (decode torch src runner seqId reuse params eos n nextId cur e g).2.1
    e'.prefixCache = e.prefixCache ∧ e'.lastPrefillTokens = e.lastPrefillTokens ∧
      e.calls <+: e'.calls := by
  induction n generalizing nextId cur e g with
  | zero => exact ⟨rfl, rfl, List.prefix_rfl⟩
  | succ n ih =>
    rw [decode]
    split
    · exact ⟨rfl, rfl, List.prefix_rfl⟩
    rcases e.cache.manager.appendToken seqId with ⟨x | ⟨blk, off⟩, m⟩
    · exact ⟨rfl, rfl, List.prefix_rfl⟩
    dsimp only
    rcases m.blockTable seqId with x | table
    · exact ⟨rfl, rfl, List.prefix_rfl⟩
    dsimp only
    rcases hrun : (e.setManager m).forward runner reuse [nextId] [cur] [blk * e.blockSize + off]
      [⟨table.blockIds, 1, cur + 1⟩] with ⟨x | hidden, e₁⟩
    all_goals
      have hfwd : e₁.prefixCache = e.prefixCache ∧ e₁.lastPrefillTokens = e.lastPrefillTokens ∧
          e.calls <+: e₁.calls := by
        obtain rfl := (Prod.mk.inj hrun).2
        exact ⟨rfl, rfl, List.prefix_append _ _⟩
      dsimp only
    · exact hfwd
    rcases sampleNext torch src params (runner.logits (lastRow hidden)) g with ⟨x | t, g₁⟩
    · exact hfwd
    dsimp only
    obtain ⟨hcache, hlast, hcalls⟩ := ih t (cur + 1) e₁ g₁
    rcases hdec : decode torch src runner seqId reuse params eos n t (cur + 1) e₁ g₁ with
      ⟨x | out, e₂, g₂⟩
    all_goals
      rw [hdec] at hcache hlast hcalls
      exact ⟨hcache.trans hfwd.1, hlast.trans hfwd.2.1, hfwd.2.2.trans hcalls⟩

/-- **The prefill** of a prompt whose forward completes registers it and forwards what is not adopted. -/
theorem Remembers.prefill {bs : ℕ} {earlier : List (List ℕ)} (hr : Remembers H bs earlier e) {N seqId : ℕ}
    {promptIds reuse new : List ℕ} (h : Prompted N H e seqId promptIds reuse new)
    (hwrites : runner.WritesPool) (torch : Torch R) (src : Source R G) (params : SamplingParams R) (g : G)
    (hforwards : e.prefillForwards runner promptIds reuse ⟨reuse ++ new, promptIds.length⟩ = true) :
    let e' := (e.prefill H torch src runner g seqId promptIds reuse ⟨reuse ++ new, promptIds.length⟩
      params).2.1
    Remembers H bs (earlier ++ [promptIds]) e' ∧
      e'.lastPrefillTokens = promptIds.length - reuse.length * e.blockSize ∧
      ∃ f, e'.calls = e.calls ++ [f] ∧ f.tokenIds = promptIds.drop (reuse.length * e.blockSize) ∧
        f.positions = List.range' (reuse.length * e.blockSize)
          (promptIds.length - reuse.length * e.blockSize) ∧
        f.writeSlots.length = promptIds.length - reuse.length * e.blockSize := by
  unfold LLMEngine.prefill
  unfold prefillForwards at hforwards
  dsimp only at hforwards ⊢
  set start := reuse.length * e.blockSize
  set q := promptIds.length - start
  set counting : LLMEngine κ D := { e with lastPrefillTokens := q } with hcounting
  rcases hslots : e.cache.slotsForPositions (reuse ++ new) (List.range' start q) with x | writeSlots
  · rw [hslots] at hforwards
    cases hforwards
  rw [hslots] at hforwards
  dsimp only at hforwards ⊢
  rcases hrun : counting.forward runner reuse (promptIds.drop start) (List.range' start q) writeSlots
    [⟨reuse ++ new, q, promptIds.length⟩] with ⟨x | hidden, e₁⟩
  · have hfwd := (Prod.mk.inj hrun).1
    rw [show (runner.forward _ _ _ _ e.cache).1 = .error x from hfwd] at hforwards
    cases hforwards
  obtain ⟨hm, hp⟩ := forward_keeps hwrites hrun
  have h₀ : Underway N counting seqId := h.toUnderway.congr rfl rfl
  have h₁ : Underway N e₁ seqId := h₀.congr hm hp
  have htable : e₁.cache.manager.tables.lookup seqId = some ⟨reuse ++ new, promptIds.length⟩ :=
    hm ▸ h.table
  have hset := h₁.tally.tallied.setTokens htable (h₁.tally.tallied.capacity seqId _ htable)
  set e₂ := e₁.setManager (e₁.cache.manager.setTable seqId ⟨reuse ++ new, promptIds.length⟩) with he₂
  have hc₂ : Counts e₁ e₂ seqId := h₁.tally.setManager hset BlockManager.touches_setTable
  have htable₂ : e₂.cache.manager.tables.lookup seqId = some ⟨reuse ++ new, promptIds.length⟩ :=
    AList.lookup_insert _
  obtain ⟨e₃, hreg, hr₃, hlast, hcalls⟩ :=
    (hr.congr (show e₂.prefixCache = e.prefixCache from hp)).register hc₂.tally htable₂
  dsimp only
  rw [hreg]
  dsimp only
  obtain rfl := (Prod.mk.inj hrun).2
  refine ⟨hr₃, hlast, _, hcalls, rfl, rfl, ?_⟩
  exact (PagedKVCache.length_slotsForPositions hslots).trans List.length_range'

/-- **A call of `generate`** whose prompt is forwarded, however it ends: the prompt is remembered, and the
first call of `forward` gets what is not adopted. -/
theorem Remembers.generate {bs : ℕ} {earlier : List (List ℕ)} (hr : Remembers H bs earlier e) {N : ℕ}
    (h : Quiet N e) (hwrites : runner.WritesPool) (torch : Torch R) (src : Source R G) (g : G) (seqId : ℕ)
    (promptIds : List ℕ) (maxNewTokens : ℕ) (params : SamplingParams R) (eos : Option ℕ)
    (hforwards : e.promptForwards H runner seqId promptIds = true) :
    let e' := (e.generate H torch src runner g seqId promptIds maxNewTokens params eos).2.1
    let start := (e.adopt H promptIds).1.length * bs
    let rest := promptIds.length - start
    Remembers H bs (earlier ++ [promptIds]) e' ∧ e'.lastPrefillTokens = rest ∧
      ∃ f fs, e'.calls = e.calls ++ f :: fs ∧ f.tokenIds = promptIds.drop start ∧
        f.positions = List.range' start rest ∧ f.writeSlots.length = rest := by
  obtain ⟨reuse, e₁, hadopt, h₁, -, hstart⟩ := h.start H seqId promptIds
  obtain ⟨hr₁, -, hcalls₁⟩ := hr.adopt h.tally promptIds
  rw [hadopt] at hr₁ hcalls₁
  rw [promptForwards, hadopt] at hforwards
  unfold LLMEngine.generate generateBody
  rw [hadopt]
  dsimp only at hforwards hr₁ hcalls₁ ⊢
  rcases hstart with ⟨x, halloc⟩ | ⟨new, m, halloc, hprompted⟩
  · rw [halloc] at hforwards
    cases hforwards
  rw [halloc] at hforwards ⊢
  dsimp only at hforwards ⊢
  have hsize : (e₁.setManager m).blockSize = bs := by
    obtain ⟨c, hc, hcbs⟩ := hr₁.cache
    rw [← hcbs]
    exact (hprompted.tally.cacheSize c hc).symm
  have hr₁ : Remembers H bs earlier (e₁.setManager m) := hr₁.congr rfl
  obtain ⟨hr₂, hlast₂, f, hcalls₂, hf⟩ := hr₁.prefill hprompted hwrites torch src params g hforwards
  rcases hpre : (e₁.setManager m).prefill H torch src runner g seqId promptIds reuse
    ⟨reuse ++ new, promptIds.length⟩ params with ⟨x | t, e₂, g₂⟩
  all_goals
    rw [hpre] at hr₂ hlast₂ hcalls₂
    rw [hsize] at hlast₂ hf
    have hcalls₂ : e₂.calls = e.calls ++ [f] := hcalls₂.trans (congrArg (· ++ [f]) hcalls₁)
    dsimp only at hr₂ hlast₂ ⊢
  · rcases e₂.cache.manager.free seqId with ⟨x' | ⟨⟩, m'⟩
    all_goals exact ⟨hr₂.congr rfl, hlast₂, f, [], hcalls₂, hf⟩
  · obtain ⟨hcache, hlast₃, fs, hcalls₃⟩ := decode_keeps runner torch src seqId reuse params eos
      (maxNewTokens - 1) t promptIds.length e₂ g₂
    rcases hdec : decode torch src runner seqId reuse params eos (maxNewTokens - 1) t promptIds.length e₂ g₂
      with ⟨x | out, e₃, g₃⟩
    all_goals
      rw [hdec] at hcache hlast₃ hcalls₃
      have hcalls : e₃.calls = e.calls ++ f :: fs := by
        rw [← hcalls₃, hcalls₂, List.append_assoc, List.singleton_append]
      dsimp only
      rcases e₃.cache.manager.free seqId with ⟨x' | ⟨⟩, m'⟩
      all_goals exact ⟨(hr₂.congr hcache).congr rfl, hlast₃.trans hlast₂, f, fs, hcalls, hf⟩

/-- **A call of `generate`** whose prompt is not forwarded changes nothing that is remembered. -/
theorem Remembers.generate_raised {bs : ℕ} {earlier : List (List ℕ)} (hr : Remembers H bs earlier e) {N : ℕ}
    (h : Quiet N e) (hwrites : runner.WritesPool) (torch : Torch R) (src : Source R G) (g : G) (seqId : ℕ)
    (promptIds : List ℕ) (maxNewTokens : ℕ) (params : SamplingParams R) (eos : Option ℕ)
    (hforwards : e.promptForwards H runner seqId promptIds = false) :
    Remembers H bs earlier
      (e.generate H torch src runner g seqId promptIds maxNewTokens params eos).2.1 := by
  obtain ⟨reuse, e₁, hadopt, h₁, -, hstart⟩ := h.start H seqId promptIds
  obtain ⟨hr₁, -⟩ := hr.adopt h.tally promptIds
  rw [hadopt] at hr₁
  rw [promptForwards, hadopt] at hforwards
  unfold LLMEngine.generate generateBody
  rw [hadopt]
  dsimp only at hforwards hr₁ ⊢
  rcases hstart with ⟨x, halloc⟩ | ⟨new, m, halloc, hprompted⟩
  · rw [halloc]
    exact hr₁.congr rfl
  rw [halloc] at hforwards ⊢
  dsimp only at hforwards ⊢
  obtain ⟨r, e₂, g₂, hpre, -, hno⟩ := hprompted.prefill hwrites torch src params g
  obtain ⟨x, rfl, hcache⟩ := hno hforwards
  rw [hpre]
  dsimp only
  rcases e₂.cache.manager.free seqId with ⟨x' | ⟨⟩, m'⟩
  all_goals exact hr₁.congr hcache

/-- The prompts of a sequence of calls whose forward completes. -/
def forwarded (H : RollingHash κ) (torch : Torch R) (src : Source R G) (runner : ModelRunner X D R) :
    LLMEngine κ D → List (GenerateCall R G) → List (List ℕ)
  | _, [] => []
  | e, call :: calls =>
    (if e.promptForwards H runner call.seqId call.promptIds then [call.promptIds] else []) ++
      forwarded H torch src runner (e.generate H torch src runner call.generator call.seqId call.promptIds
        call.maxNewTokens call.params call.eos).2.1 calls

/-- **A sequence of calls** remembers the prompts that were forwarded. -/
theorem Remembers.serve {bs : ℕ} {earlier : List (List ℕ)} (hr : Remembers H bs earlier e) {N : ℕ}
    (h : Quiet N e) (hwrites : runner.WritesPool) (torch : Torch R) (src : Source R G)
    (calls : List (GenerateCall R G)) :
    Remembers H bs (earlier ++ forwarded H torch src runner e calls)
        (e.serve H torch src runner calls).2 ∧
      Quiet N (e.serve H torch src runner calls).2 := by
  induction calls generalizing e earlier with
  | nil =>
    rw [forwarded, List.append_nil]
    exact ⟨hr, h⟩
  | cons call calls ih =>
    obtain ⟨r, e', g', hgen, hquiet, -⟩ := h.generate hwrites H torch src call.generator call.seqId
      call.promptIds call.maxNewTokens call.params call.eos
    rw [forwarded, ← List.append_assoc, LLMEngine.serve, hgen]
    dsimp only
    refine ih ?_ hquiet
    by_cases hforwards : e.promptForwards H runner call.seqId call.promptIds = true
    · have hmore := (hr.generate h hwrites torch src call.generator call.seqId call.promptIds
        call.maxNewTokens call.params call.eos hforwards).1
      rw [hgen] at hmore
      rwa [if_pos hforwards]
    · have hsame := hr.generate_raised h hwrites torch src call.generator call.seqId call.promptIds
        call.maxNewTokens call.params call.eos (Bool.eq_false_iff.2 hforwards)
      rw [hgen] at hsame
      rwa [if_neg hforwards, List.append_nil]

end Call

end LLMEngine

open LLMEngine

/-- **A call forwards what its prompt shares with no earlier one.**  After any calls on an engine with a
prefix cache, each of which may have returned or raised, the blocks that a prompt adopts are the
longest run of leading whole blocks, short of its last token, that it has in common with a prompt
whose forward had completed.  If its own forward completes, the other tokens of the prompt, at their
positions, and no more, are forwarded first, however the call ends. -/
theorem prefill_unshared {κ X D R G : Type} [Zero D] [Add X] [Field R] [LinearOrder R] [DecidableEq κ]
    (H : RollingHash κ) (torch : Torch R) (src : Source R G) {runner : ModelRunner X D R}
    (hwrites : runner.WritesPool) (T : Transformer X D R) (numBlocks : ℕ) {blockSize : ℕ}
    (hbs : 1 ≤ blockSize) (hH : H.PrefixInjective blockSize) (calls : List (GenerateCall R G)) (g : G)
    (seqId : ℕ) {promptIds : List ℕ} (h0 : promptIds ≠ []) (maxNewTokens : ℕ) (params : SamplingParams R)
    (eos : Option ℕ) :
    let start : LLMEngine κ D := init T numBlocks blockSize true
    let e := (start.serve H torch src runner calls).2
    let e' := (e.generate H torch src runner g seqId promptIds maxNewTokens params eos).2.1
    let m := (e.adopt H promptIds).1.length
    IsGreatest {m | Shared blockSize (forwarded H torch src runner start calls) promptIds m} m ∧
      (e.promptForwards H runner seqId promptIds = true →
        e'.lastPrefillTokens = promptIds.length - m * blockSize ∧
          ∃ f fs, e'.calls = e.calls ++ f :: fs ∧ f.tokenIds = promptIds.drop (m * blockSize) ∧
            f.positions = List.range' (m * blockSize) (promptIds.length - m * blockSize) ∧
            f.writeSlots.length = promptIds.length - m * blockSize) := by
  intro start e e' m
  have hstart : Remembers H blockSize [] start := by
    refine ⟨⟨_, rfl, rfl⟩, fun key => ⟨fun hkey => absurd rfl hkey, ?_⟩⟩
    rintro ⟨p, hp, -⟩
    exact absurd hp List.not_mem_nil
  obtain ⟨hr, hquiet⟩ := hstart.serve (init_quiet T H hbs) hwrites torch src calls
  rw [List.nil_append] at hr
  refine ⟨hr.adopt_isGreatest hquiet.tally hH h0, fun hforwards => ?_⟩
  exact (hr.generate hquiet hwrites torch src g seqId promptIds maxNewTokens params eos hforwards).2

/-- The hypotheses are satisfiable: after a prompt of two blocks and one that the pool has no room for, a
prompt that shares one block with the first forwards its last two tokens. -/
theorem prefill_unshared_two :
    let torch : Torch ℚ := ⟨id, fun _ => []⟩
    let src : Source ℚ Unit := ⟨fun g => (0, g), fun _ g => (0, g)⟩
    let calls : List (GenerateCall ℚ Unit) :=
      [⟨0, [0, 1, 2, 0], 2, .default, none, ()⟩, ⟨1, [0, 1, 1, 1, 1, 1, 1, 1, 1], 2, .default, none, ()⟩]
    let e := ((init sumModel 4 2 true : LLMEngine (List ℕ) ℤ).serve listHash torch src sumModel.runner
      calls).2
    (e.generate listHash torch src sumModel.runner () 2 [0, 1, 0, 0] 1 .default none).2.1.lastPrefillTokens =
        2 ∧
      Shared 2 [[0, 1, 2, 0]] [0, 1, 0, 0] 1 := by
  intro torch src calls e
  have h := prefill_unshared listHash torch src sumModel.writesPool sumModel 4 (by decide)
    (listHash_prefixInjective 2) calls () 2 (show [0, 1, 0, 0] ≠ [] by decide) 1 .default none
  have hm : (e.adopt listHash [0, 1, 0, 0]).1.length = 1 := by decide +kernel
  have hearlier : forwarded listHash torch src sumModel.runner (init sumModel 4 2 true) calls =
      [[0, 1, 2, 0]] := by decide +kernel
  obtain ⟨hgreatest, hwork⟩ := h
  have hforwards : e.promptForwards listHash sumModel.runner 2 [0, 1, 0, 0] = true := by decide +kernel
  have hlast := (hwork hforwards).1
  have hshared := hgreatest.1
  rw [hearlier] at hshared
  rw [show ((_ : LLMEngine (List ℕ) ℤ).adopt listHash [0, 1, 0, 0]).1.length = 1 from hm] at hlast hshared
  exact ⟨hlast, hshared⟩

end DiSpec
