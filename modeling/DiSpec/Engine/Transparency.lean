/-
# The prefix cache is transparent

`Allocated` is the state of a prompt that got its table: adopted blocks with its
leading KV, then new ones.  From it the `try` of `generate` raises or draws what
the reference draws (`generateBody_spec`), and so does one call of `generate` on
a sound engine (`generate_spec`): the engine stays sound, no table is left and no
slot of a held or adopted block is written.  By induction on the calls every
call that returns gives the tokens of an engine without a prefix cache
(`prefix_cache_transparent`).
-/

import DiSpec.Engine.Reuse

namespace DiSpec
namespace LLMEngine

variable {κ X D R G : Type} [Zero D] [Add X] [DecidableEq κ]
variable {T : Transformer X D R} {H : RollingHash κ} {e : LLMEngine κ D} {seqId : ℕ}

/-- The last of the rows at consecutive positions. -/
theorem lastRow_map_range' {α : Type} (f : ℕ → α) {start len : ℕ} (h : 0 < len) :
    lastRow ((List.range' start len).map f) = [f (start + len - 1)] := by
  obtain ⟨n, rfl⟩ := Nat.exists_eq_succ_of_ne_zero h.ne'
  rw [lastRow, List.range'_concat, List.map_append, List.length_append,
    List.drop_left' (by simp), List.map_singleton, Nat.one_mul]
  rfl

/-- Nothing that `Sound` speaks of but the prefill counter. -/
theorem Sound.setPrefill (h : Sound T H e) (q : ℕ) :
    Sound T H { e with lastPrefillTokens := q } :=
  ⟨h.blockSize_pos, h.accounted, h.pins_nodup, h.cacheSize, h.coherent, h.clean⟩

omit [DecidableEq κ] in
/-- The leading KV of a prompt is in the pool once blocks that hold it are adopted. -/
theorem holds_adopted {reuse : List ℕ} {tok : ℕ → ℕ} (hbs : 0 < e.blockSize) (new : List ℕ)
    (hholds : ∀ (i b : ℕ), reuse[i]? = some b → BlockHolds T e.cache b tok i) :
    T.Holds e.cache (reuse ++ new) noBase tok (reuse.length * e.blockSize) := by
  intro i hi p hp
  have hlt := Paging.div_lt hbs hp
  rw [show e.cache.blockSize = e.blockSize from rfl, Paging.slotAt_append hbs new hp,
    Paging.slotAt_of_getElem? (List.getElem?_eq_getElem hlt)]
  exact hholds _ _ (List.getElem?_eq_getElem hlt) i hi p rfl

/-- **The prompt has its table**: the adopted blocks `reuse`, which hold its leading KV, and
then the new ones.  Some token of it is left to prefill. -/
structure Allocated (T : Transformer X D R) (H : RollingHash κ) (e : LLMEngine κ D) (seqId : ℕ)
    (promptIds reuse new : List ℕ) : Prop where
  table : e.cache.manager.tables.lookup seqId = some ⟨reuse ++ new, promptIds.length⟩
  exact : (reuse ++ new).length = e.cache.manager.blocksNeeded promptIds.length
  short : reuse = [] ∨ reuse.length * e.blockSize < promptIds.length
  holds : ∀ (i b : ℕ), reuse[i]? = some b → BlockHolds T e.cache b (str promptIds) i
  pinned : ∀ b ∈ reuse, b ∈ e.pins
  keys : ∀ c, e.prefixCache = some c → ∀ i < reuse.length,
    c.nodes.lookup (rollingHash H e.blockSize (i + 1) promptIds) ≠ none
  unpinned : ∀ b ∈ new, b ∉ e.pins

/-- The adopted blocks end within the prompt. -/
theorem Allocated.le {promptIds reuse new : List ℕ} (ha : Allocated T H e seqId promptIds reuse new) :
    reuse.length * e.blockSize ≤ promptIds.length := by
  rcases ha.short with rfl | hlt
  · simp
  · exact hlt.le

/-- Some token of a prompt is left to prefill. -/
theorem Allocated.lt {promptIds reuse new : List ℕ} (ha : Allocated T H e seqId promptIds reuse new)
    (h0 : promptIds ≠ []) : reuse.length * e.blockSize < promptIds.length := by
  rcases ha.short with rfl | hlt
  · simpa using List.length_pos_iff.2 h0
  · exact hlt

/-- **The forward of a prompt** writes new blocks only and stores the KV of all of it. -/
theorem forwardPrompt_spec (h : Sound T H e) {promptIds reuse new : List ℕ}
    (ha : Allocated T H e seqId promptIds reuse new) :
    let start := reuse.length * e.blockSize
    let q := promptIds.length - start
    ∃ e₁, { e with lastPrefillTokens := q }.forward T.runner reuse (promptIds.drop start)
        (List.range' start q) ((List.range' start q).map (Paging.slotAt e.blockSize (reuse ++ new)))
        [⟨reuse ++ new, q, promptIds.length⟩] =
        (.ok ((List.range' start q).map fun p =>
          T.norm (T.hiddenAt noBase (str promptIds) T.numLayers p)), e₁) ∧
      Frame { e with lastPrefillTokens := q } e₁ seqId e.pins reuse ∧ Sound T H e₁ ∧
      e₁.cache.manager = e.cache.manager ∧
      T.Holds e₁.cache (reuse ++ new) noBase (str promptIds) promptIds.length := by
  intro start q
  have hbs := h.blockSize_pos
  have hsum : start + q = promptIds.length := Nat.add_sub_cancel' ha.le
  have hroom : start + q ≤ (reuse ++ new).length * e.blockSize :=
    hsum.symm ▸ h.accounted.capacity seqId _ ha.table
  obtain ⟨e₁, hrun, hframe, hman, hnow⟩ := forward_spec (e := { e with lastPrefillTokens := q }) T seqId
    e.pins reuse start q (str promptIds) (fun _ _ _ => rfl) hbs hroom
    (h.accounted.block_lt ha.table) (h.accounted.table_nodup seqId _ ha.table)
    (holds_adopted hbs new ha.holds) fun p b hlo _ hb => by
      have hge : reuse.length ≤ p / e.blockSize := (Nat.le_div_iff_mul_le hbs).2 hlo
      have hb : (reuse ++ new)[p / e.blockSize]? = some b := hb
      rw [List.getElem?_append_right hge] at hb
      exact ha.unpinned b (List.mem_of_getElem? hb)
  rw [hsum] at hrun hnow
  have hdrop : promptIds.drop start = (List.range' start q).map (str promptIds) := by
    rw [← take_drop_eq_map_str promptIds hsum.le, List.take_of_length_le List.length_drop.le]
  rw [hdrop]
  exact ⟨e₁, hrun, hframe, (h.setPrefill q).frame hframe ha.pinned (hman.symm ▸ h.accounted), hman, hnow⟩

variable [Field R] [LinearOrder R]

/-- Drawing from no row. -/
theorem sampleNext_nil (torch : Torch R) (src : Source R G) (params : SamplingParams R) (g : G) :
    sampleNext torch src params [] g = (.error .IndexError, g) := by
  have hrun : (sample torch params ([] : List (List R))).run src g = ([], g) := by
    rw [sample_eq]
    rfl
  unfold sampleNext
  rw [hrun]

omit [Zero D] [Add X] in
/-- A prefill in which nothing raises before the draw. -/
theorem prefill_eq (torch : Torch R) (src : Source R G) {runner : ModelRunner X D R}
    {e e₁ e₃ : LLMEngine κ D} {promptIds reuse slots : List ℕ} (table : BlockTable) {hidden : List X}
    (params : SamplingParams R) (g : G)
    (hslots : e.cache.slotsForPositions table.blockIds (List.range' (reuse.length * e.blockSize)
      (promptIds.length - reuse.length * e.blockSize)) = .ok slots)
    (hfwd : { e with lastPrefillTokens := promptIds.length - reuse.length * e.blockSize }.forward runner
        reuse (promptIds.drop (reuse.length * e.blockSize))
        (List.range' (reuse.length * e.blockSize) (promptIds.length - reuse.length * e.blockSize)) slots
        [⟨table.blockIds, promptIds.length - reuse.length * e.blockSize, promptIds.length⟩] =
      (.ok hidden, e₁))
    (hreg : (e₁.setManager (e₁.cache.manager.setTable seqId
      { table with numTokens := promptIds.length })).register H promptIds table.blockIds = (.ok (), e₃)) :
    e.prefill H torch src runner g seqId promptIds reuse table params =
      (match sampleNext torch src params (runner.logits (lastRow hidden)) g with | (r, g) => (r, e₃, g)) := by
  unfold prefill
  simp only [hslots, hfwd, hreg]

/-- **The prefill** of a prompt that got its table: the engine stays sound and is ready to
decode after the token drawn. -/
theorem prefill_spec (torch : Torch R) (src : Source R G) (h : Sound T H e)
    {promptIds reuse new : List ℕ} (ha : Allocated T H e seqId promptIds reuse new)
    (params : SamplingParams R) (g : G) :
    ∃ r e' g', e.prefill H torch src T.runner g seqId promptIds reuse
        ⟨reuse ++ new, promptIds.length⟩ params = (r, e', g') ∧
      Sound T H e' ∧ BlockManager.Touches e.cache.manager e'.cache.manager seqId ∧
      e'.cache.manager.freeList = e.cache.manager.freeList ∧
      (e.prefixCache = none → e'.prefixCache = none) ∧
      e'.lastPrefillTokens = promptIds.length - reuse.length * e.blockSize ∧
      (∀ b ∈ reuse, b ∈ e'.pins) ∧
      (promptIds = [] ∧ r = .error .IndexError ∨ promptIds ≠ [] ∧
        (r, g') = (.ok ((drawNext torch T params promptIds).run src g).1,
          ((drawNext torch T params promptIds).run src g).2) ∧
        ∀ y, Decoding T noBase e' seqId e'.pins (promptIds ++ [y]) ⟨reuse ++ new, promptIds.length⟩) := by
  have hbs := h.blockSize_pos
  set n := promptIds.length with hn
  set start := reuse.length * e.blockSize with hstart
  have hle : start ≤ n := ha.le
  have hsum : start + (n - start) = n := by omega
  have hroom : n ≤ (reuse ++ new).length * e.blockSize := h.accounted.capacity seqId _ ha.table
  have hin : ∀ p ∈ List.range' start (n - start), p < (reuse ++ new).length * e.blockSize := fun p hp =>
    (List.mem_range'_1.1 hp).2.trans_le (hsum.symm ▸ hroom)
  have hslots := e.cache.slotsForPositions_spec hbs (reuse ++ new) hin
  obtain ⟨e₁, hfwd, hframe, hsound₁, hman, hnow⟩ := forwardPrompt_spec h ha
  -- assigning `num_tokens` and registering the prompt
  set m₂ := e₁.cache.manager.setTable seqId ⟨reuse ++ new, n⟩ with hm₂
  have hpins₁ : e₁.pins = e.pins := by unfold pins; rw [hframe.prefixCache]
  have hsound₂ : Sound T H (e₁.setManager m₂) := by
    refine hsound₁.setManager (hsound₁.accounted.setTokens (hman ▸ ha.table) ?_) rfl
    rw [hman]
    exact hroom
  have ht₂ : m₂.tables.lookup seqId = some ⟨reuse ++ new, n⟩ := AList.lookup_insert _
  have hbs₁ : (e₁.setManager m₂).blockSize = e.blockSize := hframe.blockSize
  obtain ⟨e₃, hreg, hsound₃, hpool₃, hnb₃, hbs₃, htab₃, hfree₃, -, hlast₃, hnone₃, hmore₃, hpins₃⟩ :=
    register_spec promptIds hsound₂ ht₂ hnow fun i b hb hmiss => by
      show b ∉ e₁.pins
      rw [hpins₁]
      intro hin
      rcases Nat.lt_or_ge i reuse.length with hlt | hge
      · obtain ⟨c, hc, -⟩ := exists_of_mem_pins hin
        exact ha.keys c hc i hlt (hbs₁ ▸ hmiss c (hframe.prefixCache.trans hc))
      · rw [List.getElem?_append_right hge] at hb
        exact ha.unpinned b (List.mem_of_getElem? hb) hin
  have hpin₃ : ∀ b ∈ reuse, b ∈ e₃.pins := fun b hb => by
    refine Multiset.mem_of_le hmore₃ ?_
    show b ∈ e₁.pins
    exact hpins₁ ▸ ha.pinned b hb
  have htouch₃ : BlockManager.Touches e.cache.manager e₃.cache.manager seqId := by
    refine hframe.touches.trans ⟨hnb₃, hbs₃, fun s hs => ?_⟩
    rw [htab₃]
    exact AList.lookup_insert_ne hs
  have hfree : e₃.cache.manager.freeList = e.cache.manager.freeList := by
    rw [hfree₃, ← hman]
    rfl
  have hlast : e₃.lastPrefillTokens = n - start := hlast₃.trans hframe.lastPrefill
  have hnone : e.prefixCache = none → e₃.prefixCache = none := fun hc =>
    hnone₃ (hframe.prefixCache.trans hc)
  have hprefill := prefill_eq torch src ⟨reuse ++ new, n⟩ params g hslots hfwd hreg
  by_cases h0 : promptIds = []
  · have hn0 : n = 0 := by rw [hn, h0]; rfl
    refine ⟨.error .IndexError, e₃, g, ?_, hsound₃, htouch₃, hfree, hnone, hlast, hpin₃,
      Or.inl ⟨h0, rfl⟩⟩
    rw [hprefill, show promptIds.length - reuse.length * e.blockSize = 0 by omega]
    show (match sampleNext torch src params [] g with | (r, g) => (r, e₃, g)) = _
    rw [sampleNext_nil]
  have hlt : start < n := ha.lt h0
  refine ⟨_, e₃, _, ?_, hsound₃, htouch₃, hfree, hnone, hlast, hpin₃, Or.inr ⟨h0, rfl, fun y => ?_⟩⟩
  · rw [hprefill, lastRow_map_range' _ (by omega), hsum]
    show (match sampleNext torch src params [T.nextLogits promptIds] g with | (r, g) => (r, e₃, g)) = _
    rw [sampleNext_singleton]
    rfl
  · have hbs₃' : e₃.blockSize = e.blockSize := hbs₃.trans hbs₁
    refine ⟨hsound₃.accounted, hsound₃.blockSize_pos, htab₃ ▸ ht₂, ?_, ?_, fun _ _ _ => rfl, ?_, ?_⟩
    · exact ha.exact.trans (BlockManager.blocksNeeded_congr htouch₃.blockSize n).symm
    · rw [List.length_append]
      rfl
    · refine Transformer.Holds.append (fun i hi p hp => ?_) hn.le [y]
      rw [hpool₃, show e₃.cache.blockSize = (e₁.setManager m₂).cache.blockSize from hbs₃]
      exact hnow i hi p hp
    · intro j b hj hb hin
      have hj : n / e.blockSize ≤ j := hbs₃' ▸ hj
      rcases hpins₃ b hin with hin | ⟨i, hi, hib⟩
      · have hge : reuse.length ≤ j := by
          have hfull : start < (n / e.blockSize + 1) * e.blockSize := by
            rw [Nat.succ_mul]
            exact hlt.trans (Nat.lt_div_mul_add hbs)
          have := Nat.lt_of_mul_lt_mul_right hfull
          omega
        have hin : b ∈ e₁.pins := hin
        rw [List.getElem?_append_right hge] at hb
        exact ha.unpinned b (List.mem_of_getElem? hb) (hpins₁ ▸ hin)
      · -- a block registered now is a full block of the prompt
        rw [hbs₁, ← hn] at hi
        have hnodup := h.accounted.table_nodup seqId _ ha.table
        have hij := List.getElem?_inj (List.getElem?_eq_some_iff.1 hib).1 hnodup |>.1 (hib.trans hb.symm)
        omega

/-- The reference draws a first token and then the rest. -/
theorem reference_run (torch : Torch R) (src : Source R G) (T : Transformer X D R)
    (params : SamplingParams R) (eos : Option ℕ) (maxNewTokens : ℕ) (promptIds : List ℕ) (g : G) :
    let first := (drawNext torch T params promptIds).run src g
    let rest := (restOf torch T params eos (maxNewTokens - 1) first.1
      (promptIds ++ [first.1])).run src first.2
    (reference torch T params eos maxNewTokens promptIds).run src g = (first.1 :: rest.1, rest.2) := by
  intro first rest
  rw [reference, show max maxNewTokens 1 = maxNewTokens - 1 + 1 by omega, decode_eq_restOf,
    RandM.run_bind, RandM.run_map]

/-- **The `try` of `generate`**, once the prompt has its table.  It raises on an empty prompt,
raises `OutOfBlocksError` when too few blocks are free, or draws what the reference
draws. -/
theorem generateBody_spec (torch : Torch R) (src : Source R G) (h : Sound T H e)
    {promptIds reuse new : List ℕ} (ha : Allocated T H e seqId promptIds reuse new) (maxNewTokens : ℕ)
    (params : SamplingParams R) (eos : Option ℕ) (g : G) :
    let out := (reference torch T params eos maxNewTokens promptIds).run src g
    let need := e.cache.manager.blocksNeeded (promptIds.length + out.1.length - 1)
    ∃ r e' g', e.generateBody H torch src T.runner g seqId promptIds reuse
        ⟨reuse ++ new, promptIds.length⟩ maxNewTokens params eos = (r, e', g') ∧
      Sound T H e' ∧ BlockManager.Touches e.cache.manager e'.cache.manager seqId ∧
      (e.prefixCache = none → e'.prefixCache = none) ∧
      (promptIds ≠ [] → 1 ≤ e'.lastPrefillTokens) ∧
      (promptIds = [] ∧ (∃ x, r = .error x) ∨
        promptIds ≠ [] ∧ (∃ msg, r = .error (.OutOfBlocksError msg)) ∧
          e.cache.manager.freeList.length + (reuse ++ new).length < need ∨
        promptIds ≠ [] ∧ (r, g') = (.ok out.1, out.2) ∧
          need ≤ e.cache.manager.freeList.length + (reuse ++ new).length) := by
  intro out need
  obtain ⟨r₁, e₁, g₁, hpre, hsound, htouch, hfree, hnone, hlast, hpins, hcase⟩ :=
    prefill_spec torch src h ha params g
  have hprefilled : promptIds ≠ [] → 1 ≤ e₁.lastPrefillTokens := fun h0 => by
    have := ha.lt h0
    omega
  unfold generateBody
  rw [hpre]
  rcases hcase with ⟨h0, rfl⟩ | ⟨h0, hdraw, hready⟩
  · -- an empty prompt: there is no last row to sample from
    exact ⟨_, e₁, g₁, rfl, hsound, htouch, hnone, hprefilled, Or.inl ⟨h0, _, rfl⟩⟩
  set x := ((drawNext torch T params promptIds).run src g).1 with hx
  obtain ⟨rfl, rfl⟩ := Prod.mk.inj hdraw
  set rest := (restOf torch T params eos (maxNewTokens - 1) x (promptIds ++ [x])).run src
    ((drawNext torch T params promptIds).run src g).2 with hrest
  have hout : out = (x :: rest.1, rest.2) := reference_run torch src T params eos maxNewTokens promptIds g
  have hstr : str (promptIds ++ [x]) promptIds.length = x := by
    rw [str, List.getD_append_right _ _ _ _ le_rfl, Nat.sub_self]
    rfl
  obtain ⟨r₂, e₂, g₂, hdec, hframe, hacc, hcase⟩ :=
    decode_spec torch src reuse params eos (maxNewTokens - 1) (hready x)
      ((drawNext torch T params promptIds).run src g).2
  have hneed : need = e₁.cache.manager.blocksNeeded (promptIds.length + rest.1.length) := by
    rw [BlockManager.blocksNeeded_congr htouch.blockSize]
    refine congrArg e.cache.manager.blocksNeeded ?_
    rw [hout, List.length_cons]
    omega
  dsimp only at hdec hcase
  rw [hstr] at hdec hcase
  rw [← hrest, ← hneed, hfree] at hcase
  have hsound₂ : Sound T H e₂ := hsound.frame hframe hpins hacc
  have hnone₂ : e.prefixCache = none → e₂.prefixCache = none := fun hc =>
    hframe.prefixCache.trans (hnone hc)
  have hlast₂ : promptIds ≠ [] → 1 ≤ e₂.lastPrefillTokens := fun h0 =>
    (hprefilled h0).trans_eq hframe.lastPrefill.symm
  simp only [hdec]
  rcases hcase with ⟨⟨msg, rfl⟩, hshort⟩ | ⟨rfl, rfl, hfits⟩
  · exact ⟨_, e₂, g₂, rfl, hsound₂, htouch.trans hframe.touches, hnone₂, hlast₂,
      Or.inr (Or.inl ⟨h0, ⟨msg, rfl⟩, hshort⟩)⟩
  · exact ⟨_, e₂, _, rfl, hsound₂, htouch.trans hframe.touches, hnone₂, hlast₂,
      Or.inr (Or.inr ⟨h0, by rw [hout], hfits⟩)⟩

/-- The blocks a call can have: the free ones and those it adopts from the cache. -/
def room (H : RollingHash κ) (e : LLMEngine κ D) (promptIds : List ℕ) : ℕ :=
  e.cache.manager.numFreeBlocks + (e.adopt H promptIds).1.length

/-- **One call of `generate`** between two sound states without tables.  It raises on an
empty prompt, raises `OutOfBlocksError` when there is no room for what the reference
draws, or draws it. -/
theorem generate_spec (torch : Torch R) (src : Source R G) (h : Sound T H e)
    (hno : ∀ s, e.cache.manager.tables.lookup s = none)
    (hH : ∀ c, e.prefixCache = some c → H.PrefixInjective e.blockSize) (g : G) (seqId : ℕ)
    (promptIds : List ℕ) (maxNewTokens : ℕ) (params : SamplingParams R) (eos : Option ℕ) :
    ∃ r e' g', e.generate H torch src T.runner g seqId promptIds maxNewTokens params eos = (r, e', g') ∧
      Sound T H e' ∧ (∀ s, e'.cache.manager.tables.lookup s = none) ∧
      e'.cache.manager.numBlocks = e.cache.manager.numBlocks ∧ e'.blockSize = e.blockSize ∧
      (e.prefixCache = none → e'.prefixCache = none) ∧
      (promptIds ≠ [] → e'.calls = e.calls ∨ 1 ≤ e'.lastPrefillTokens) ∧
      let out := (reference torch T params eos maxNewTokens promptIds).run src g
      let need := e.cache.manager.blocksNeeded (promptIds.length + out.1.length - 1)
      (promptIds = [] ∧ (∃ x, r = .error x) ∨
        promptIds ≠ [] ∧ (∃ msg, r = .error (.OutOfBlocksError msg)) ∧ e.room H promptIds < need ∨
        promptIds ≠ [] ∧ (r, g') = (.ok out.1, out.2) ∧ 1 ≤ e'.lastPrefillTokens ∧
          need ≤ e.room H promptIds ∧ need ≤ e.cache.manager.numBlocks) := by
  have hbs := h.blockSize_pos
  obtain ⟨reuse, e₁, hadopt, hsound₁, hcache₁, hcalls₁, hlast₁, hpins₁, hnone₁, hrnodup, hrpins, hrshort,
    hrholds, hrkeys⟩ := adopt_spec h hH promptIds
  have hbs₁ : e₁.blockSize = e.blockSize := by unfold blockSize; rw [hcache₁]
  have hrlen : reuse.length ≤ e.cache.manager.blocksNeeded promptIds.length :=
    BlockManager.length_le_blocksNeeded _ hbs hrshort
  have hroom : e.room H promptIds = e.cache.manager.freeList.length + reuse.length := by
    rw [room, hadopt]
    rfl
  unfold generate
  rw [hadopt]
  simp only [hcache₁]
  set out := (reference torch T params eos maxNewTokens promptIds).run src g with hout
  set need := e.cache.manager.blocksNeeded (promptIds.length + out.1.length - 1) with hneed
  rcases BlockManager.allocate_spec h.accounted hbs seqId promptIds.length hrnodup
      (fun b hb => Multiset.mem_add.2 (Or.inr (hrpins b hb))) hrlen with
    ⟨hhas, -⟩ | ⟨-, hfew, msg, heq⟩ | ⟨-, new, m, heq, hext, hnewlen, hacc⟩
  · exact absurd hhas (by rw [BlockManager.hasTable, hno]; simp)
  · -- not enough free blocks for the prompt
    have h0 : promptIds ≠ [] := by
      rintro rfl
      have hz : e.cache.manager.blocksNeeded 0 = 0 :=
        Nat.le_zero.1 ((BlockManager.blocksNeeded_le_iff _ hbs 0 0).2 (Nat.zero_le _))
      rw [List.length_nil, hz] at hfew
      omega
    refine ⟨.error (.OutOfBlocksError msg), e₁, g, ?_, hsound₁, ?_, ?_, hbs₁, fun hc => (hnone₁ hc).2,
      fun _ => Or.inl hcalls₁, Or.inr (Or.inl ⟨h0, ⟨msg, rfl⟩, ?_⟩)⟩
    · rw [heq]
      simp only
      rw [← hcache₁]
      rfl
    · rwa [hcache₁]
    · rw [hcache₁]
    · have hmono : e.cache.manager.blocksNeeded promptIds.length ≤ need := by
        refine BlockManager.blocksNeeded_mono _ hbs ?_
        have : 0 < out.1.length := by
          rw [hout, reference_run]
          exact Nat.succ_pos _
        omega
      omega
  have hmbs : m.blockSize = e.blockSize := hext.blockSize
  have hsound₂ : Sound T H (e₁.setManager m) :=
    hsound₁.setManager (hpins₁.symm ▸ hacc) (hmbs.trans hbs₁.symm)
  have hbs₂ : (e₁.setManager m).blockSize = e.blockSize := hmbs
  have hpins₂ : (e₁.setManager m).pins = e.pins := hpins₁
  have halloc : Allocated T H (e₁.setManager m) seqId promptIds reuse new := by
    refine ⟨hext.table, ?_, by rwa [hbs₂], fun i b hb j hj p hp => ?_, ?_, by rwa [hbs₂], ?_⟩
    · show (reuse ++ new).length = m.blocksNeeded promptIds.length
      rw [List.length_append, hnewlen, Nat.add_sub_cancel' hrlen,
        BlockManager.blocksNeeded_congr hext.blockSize]
    · rw [show (e₁.setManager m).cache.blockSize = e.cache.blockSize from hmbs] at hp ⊢
      show e₁.cache.pool j _ = _
      rw [hcache₁]
      exact hrholds i b hb j hj p hp
    · rwa [hpins₂]
    · rw [hpins₂]
      exact fun b hb => ((h.accounted.fresh hext.freeList).2 b hb).2.2
  obtain ⟨r, e₃, g₃, hbody, hsound₃, htouch₃, hnone₃, hlast₃, hcase⟩ :=
    generateBody_spec torch src hsound₂ halloc maxNewTokens params eos g
  -- `finally`
  obtain ⟨m', hfr, htouch', -, hgone, hacc'⟩ := BlockManager.free_spec hsound₃.accounted seqId
  have htouch : BlockManager.Touches e.cache.manager e₃.cache.manager seqId :=
    hext.toTouches.trans htouch₃
  refine ⟨r, e₃.setManager m', g₃, ?_, hsound₃.setManager hacc' htouch'.blockSize, fun s => ?_,
    htouch'.numBlocks.trans htouch.numBlocks, htouch'.blockSize.trans htouch.blockSize,
    fun hc => hnone₃ (hnone₁ hc).2, fun h0 => Or.inr (hlast₃ h0), ?_⟩
  · rw [heq]
    simp only [hbody, hfr]
  · rcases eq_or_ne s seqId with rfl | hs
    · exact hgone
    · exact (htouch'.others s hs).trans ((htouch.others s hs).trans (hno s))
  · have hneed₂ : (e₁.setManager m).cache.manager.blocksNeeded
        (promptIds.length + out.1.length - 1) = need := BlockManager.blocksNeeded_congr hext.blockSize _
    have hroom₂ : (e₁.setManager m).cache.manager.freeList.length + (reuse ++ new).length =
        e.room H promptIds := by
      have hlen := congrArg List.length hext.freeList
      rw [List.length_append, List.length_reverse] at hlen
      rw [List.length_append, hroom]
      show m.freeList.length + (reuse.length + new.length) = _
      omega
    rw [← hout, hneed₂] at hcase
    rcases hcase with ⟨h0, hx⟩ | ⟨h0, hmsg, hshort⟩ | ⟨h0, hok, hfits⟩
    · exact Or.inl ⟨h0, hx⟩
    · exact Or.inr (Or.inl ⟨h0, hmsg, hroom₂ ▸ hshort⟩)
    · refine Or.inr (Or.inr ⟨h0, hok, hlast₃ h0, hroom₂ ▸ hfits, hfits.trans ?_⟩)
      exact (BlockManager.Accounted.free_add_le hacc hext.table).trans_eq hext.numBlocks

omit [Field R] [LinearOrder R] in
/-- Without a prefix cache and without tables all blocks are there. -/
theorem Sound.room_eq (h : Sound T H e) (hno : ∀ s, e.cache.manager.tables.lookup s = none)
    (hc : e.prefixCache = none) (promptIds : List ℕ) :
    e.room H promptIds = e.cache.manager.numBlocks := by
  have hacc := h.accounted
  unfold pins at hacc
  rw [hc] at hacc
  rw [room, adopt, hc]
  exact hacc.free_all hno

/-- **A call whose reference draws `out`** returns it, unless there is no room for it. -/
theorem generate_of_reference (torch : Torch R) (src : Source R G) (h : Sound T H e)
    (hno : ∀ s, e.cache.manager.tables.lookup s = none)
    (hH : ∀ c, e.prefixCache = some c → H.PrefixInjective e.blockSize) {promptIds : List ℕ}
    (h0 : promptIds ≠ []) {maxNewTokens : ℕ} {params : SamplingParams R} {eos : Option ℕ} {g : G}
    {out : List ℕ} (href : ((reference torch T params eos maxNewTokens promptIds).run src g).1 = out)
    (seqId : ℕ) :
    let r := (e.generate H torch src T.runner g seqId promptIds maxNewTokens params eos).1
    (∃ msg, r = .error (.OutOfBlocksError msg)) ∧
        e.room H promptIds < e.cache.manager.blocksNeeded (promptIds.length + out.length - 1) ∨
      r = .ok out := by
  intro r
  obtain ⟨r', e', g', heq, -, -, -, -, -, -, hcase⟩ :=
    generate_spec torch src h hno hH g seqId promptIds maxNewTokens params eos
  have hr : r = r' := congrArg (·.1) heq
  dsimp only at hcase
  rw [hr]
  rw [href] at hcase
  rcases hcase with ⟨hnil, -⟩ | ⟨-, hmsg, hshort⟩ | ⟨-, hok, -⟩
  · exact absurd hnil h0
  · exact Or.inl ⟨hmsg, hshort⟩
  · exact Or.inr (Prod.mk.inj hok).1

/-- The states of an engine reached from `e₀` by calls of `generate`, whether they
returned or raised, each with its own sequence id and its own state of the generator. -/
inductive Served (H : RollingHash κ) (torch : Torch R) (src : Source R G) (runner : ModelRunner X D R)
    (e₀ : LLMEngine κ D) : LLMEngine κ D → Prop
  | start : Served H torch src runner e₀ e₀
  | call {e : LLMEngine κ D} (g : G) (seqId : ℕ) (promptIds : List ℕ) (maxNewTokens : ℕ)
      (params : SamplingParams R) (eos : Option ℕ) : Served H torch src runner e₀ e →
      Served H torch src runner e₀
        (e.generate H torch src runner g seqId promptIds maxNewTokens params eos).2.1

omit [Field R] [LinearOrder R] in
/-- A new engine is sound. -/
theorem init_sound (T : Transformer X D R) (H : RollingHash κ) (numBlocks : ℕ) {blockSize : ℕ}
    (hbs : 0 < blockSize) (prefixCache : Bool) : Sound T H (init T numBlocks blockSize prefixCache) := by
  have hpins : (init T numBlocks blockSize prefixCache : LLMEngine κ D).pins = 0 := by
    cases prefixCache <;> rfl
  have hnodes : ∀ c, (init T numBlocks blockSize prefixCache : LLMEngine κ D).prefixCache = some c →
      c = .init blockSize := by
    intro c hc
    cases prefixCache with
    | false => cases hc
    | true => exact (Option.some.inj hc).symm
  refine ⟨hbs, ?_, ?_, fun c hc => ?_, fun c hc key b hb => ?_, fun f hf => absurd hf (by simp [init])⟩
  · rw [hpins]
    exact BlockManager.init_accounted numBlocks blockSize
  · rw [hpins]
    exact Multiset.nodup_zero
  · rw [hnodes c hc]
    rfl
  · rw [hnodes c hc] at hb
    cases hb

omit [Zero D] [Add X] [DecidableEq κ] [Field R] [LinearOrder R] in
/-- The hash separates prefixes wherever there is a cache. -/
theorem injective_of_cache {prefixCache : Bool} {blockSize : ℕ}
    (hH : prefixCache = true → H.PrefixInjective blockSize) (hbs : e.blockSize = blockSize)
    (hnone : prefixCache = false → e.prefixCache = none) :
    ∀ c, e.prefixCache = some c → H.PrefixInjective e.blockSize := by
  intro c hc
  rw [hbs]
  refine hH (Bool.eq_true_of_not_eq_false fun hp => ?_)
  rw [hnone hp] at hc
  cases hc

/-- **Every sequence of calls keeps the engine sound** and leaves no table. -/
theorem Served.sound (torch : Torch R) (src : Source R G) (T : Transformer X D R) (H : RollingHash κ)
    {numBlocks blockSize : ℕ} (hbs : 0 < blockSize) {prefixCache : Bool}
    (hH : prefixCache = true → H.PrefixInjective blockSize) {e : LLMEngine κ D}
    (h : Served H torch src T.runner (init T numBlocks blockSize prefixCache) e) :
    Sound T H e ∧ (∀ s, e.cache.manager.tables.lookup s = none) ∧
      e.cache.manager.numBlocks = numBlocks ∧ e.blockSize = blockSize ∧
      (prefixCache = false → e.prefixCache = none) := by
  induction h with
  | start =>
    refine ⟨init_sound T H numBlocks hbs prefixCache, fun s => rfl, rfl, rfl, fun hp => ?_⟩
    rw [hp]
    rfl
  | @call e g seqId promptIds maxNewTokens params eos _ ih =>
    obtain ⟨hs, hno, hnb, hbs', hnone⟩ := ih
    obtain ⟨r, e', g', heq, hs', hno', hnb', hbs'', hnone', -⟩ :=
      generate_spec torch src hs hno (injective_of_cache hH hbs' hnone) g seqId promptIds maxNewTokens
        params eos
    rw [heq]
    exact ⟨hs', hno', hnb'.trans hnb, hbs''.trans hbs', fun hp => hnone' (hnone hp)⟩

/-- **A call on an engine without a prefix cache**, whatever it served before: all its blocks are
there. -/
theorem Served.generate_plain (torch : Torch R) (src : Source R G) (T : Transformer X D R)
    (H : RollingHash κ) {numBlocks blockSize : ℕ} (hbs : 0 < blockSize)
    (h : Served H torch src T.runner (init T numBlocks blockSize false) e) {promptIds : List ℕ}
    (h0 : promptIds ≠ []) {maxNewTokens : ℕ} {params : SamplingParams R} {eos : Option ℕ} {g : G}
    {out : List ℕ} (href : ((reference torch T params eos maxNewTokens promptIds).run src g).1 = out)
    (seqId : ℕ) :
    let r := (e.generate H torch src T.runner g seqId promptIds maxNewTokens params eos).1
    (∃ msg, r = .error (.OutOfBlocksError msg)) ∧
        numBlocks < e.cache.manager.blocksNeeded (promptIds.length + out.length - 1) ∨ r = .ok out := by
  obtain ⟨hs, hno, hnb, -, hnone⟩ := h.sound torch src T H hbs fun hf => by cases hf
  have hcase := generate_of_reference torch src hs hno
    (fun c hc => by rw [hnone rfl] at hc; cases hc) h0 href seqId
  rwa [hs.room_eq hno (hnone rfl), hnb] at hcase

/-- **A call that fits the pool** of an engine without a prefix cache returns what the reference draws. -/
theorem Served.generate_alone (torch : Torch R) (src : Source R G) (T : Transformer X D R)
    (H : RollingHash κ) {numBlocks blockSize : ℕ} (hbs : 0 < blockSize)
    (h : Served H torch src T.runner (init T numBlocks blockSize false) e) {promptIds : List ℕ}
    (h0 : promptIds ≠ []) {maxNewTokens : ℕ}
    (hfits : (BlockManager.init numBlocks blockSize).blocksNeeded
      (promptIds.length + max maxNewTokens 1 - 1) ≤ numBlocks)
    (params : SamplingParams R) (eos : Option ℕ) (g : G) (seqId : ℕ) :
    (e.generate H torch src T.runner g seqId promptIds maxNewTokens params eos).1 =
      .ok ((reference torch T params eos maxNewTokens promptIds).run src g).1 := by
  obtain ⟨-, -, -, hbs', -⟩ := h.sound torch src T H hbs fun hf => by cases hf
  obtain ⟨out, hout⟩ : ∃ out, ((reference torch T params eos maxNewTokens promptIds).run src g).1 = out :=
    ⟨_, rfl⟩
  rw [hout]
  rcases h.generate_plain torch src T H hbs h0 hout seqId with ⟨-, hshort⟩ | hok
  · have hlen := (Autoregressive.decode_stops src (drawNext torch T params) (isEos eos) (max maxNewTokens 1)
      promptIds g).length_le
    rw [reference] at hout
    rw [hout] at hlen
    have hmono := (BlockManager.init numBlocks blockSize).blocksNeeded_mono hbs
      (show promptIds.length + out.length - 1 ≤ promptIds.length + max maxNewTokens 1 - 1 by omega)
    have hneed : e.cache.manager.blocksNeeded (promptIds.length + out.length - 1) =
        (BlockManager.init numBlocks blockSize).blocksNeeded (promptIds.length + out.length - 1) :=
      BlockManager.blocksNeeded_congr hbs' _
    exact absurd (hshort.trans_le (hneed.trans_le (hmono.trans hfits))) (lt_irrefl _)
  · exact hok

/-- Every cached block holds the KV of the token prefix its key stands for. -/
def CachedBlocksHold (T : Transformer X D R) (H : RollingHash κ) (e : LLMEngine κ D) : Prop :=
  ∀ c, e.prefixCache = some c → ∀ key node, c.nodes.lookup key = some node →
    (∃ toks k, (k + 1) * e.blockSize ≤ toks.length ∧ key = rollingHash H e.blockSize (k + 1) toks) ∧
      ∀ toks k, (k + 1) * e.blockSize ≤ toks.length → key = rollingHash H e.blockSize (k + 1) toks →
        BlockHolds T e.cache node.block (str toks) k

omit [Field R] [LinearOrder R] in
theorem Sound.cachedBlocksHold (h : Sound T H e) (hH : H.PrefixInjective e.blockSize) :
    CachedBlocksHold T H e := by
  intro c hc key node hnode
  have hb : (c.nodes.lookup key).map CacheNode.block = some node.block := by rw [hnode]; rfl
  obtain ⟨toks, k, hk, hkey, -⟩ := h.coherent c hc key _ hb
  refine ⟨⟨toks, k, hk, hkey⟩, fun toks' k' hk' hkey' => ?_⟩
  subst hkey'
  exact h.block hH hc hk' hb

end LLMEngine

open LLMEngine

variable {κ X D R G : Type} [Zero D] [Add X] [DecidableEq κ] [Field R] [LinearOrder R]

/-- **The prefix cache is transparent.**  After any calls on an engine with a prefix
cache, whatever call comes next: if it returns, it prefilled at least one token and a
new engine of the same size without a prefix cache returns the same tokens, as does any
used one that returns; no recorded call of `forward` wrote a slot of a block that was
held by the cache or adopted from it; and every cached block holds the KV of the prefix
its key stands for. -/
theorem prefix_cache_transparent (torch : Torch R) (src : Source R G) (T : Transformer X D R)
    (H : RollingHash κ) {numBlocks blockSize : ℕ} (hbs : 1 ≤ blockSize)
    (hH : H.PrefixInjective blockSize) {e : LLMEngine κ D}
    (h : Served H torch src T.runner (init T numBlocks blockSize true) e) (g : G) (seqId : ℕ)
    (promptIds : List ℕ) (maxNewTokens : ℕ) (params : SamplingParams R) (eos : Option ℕ) :
    let call (e : LLMEngine κ D) (seqId : ℕ) :=
      e.generate H torch src T.runner g seqId promptIds maxNewTokens params eos
    let e' := (call e seqId).2.1
    (∀ out, (call e seqId).1 = .ok out → 1 ≤ e'.lastPrefillTokens ∧
      (∀ seqId', (call (init T numBlocks blockSize false) seqId').1 = .ok out) ∧
      ∀ numBlocks' blockSize' p seqId' out', 1 ≤ blockSize' →
        Served H torch src T.runner (init T numBlocks' blockSize' false) p →
          (call p seqId').1 = .ok out' → out' = out) ∧
    (promptIds ≠ [] → e'.calls = e.calls ∨ 1 ≤ e'.lastPrefillTokens) ∧
    (∀ f ∈ e'.calls, ∀ sl ∈ f.writeSlots, sl / blockSize ∉ f.held ∧ sl / blockSize ∉ f.adopted) ∧
    CachedBlocksHold T H e ∧ CachedBlocksHold T H e' := by
  intro call e'
  obtain ⟨hs, hno, hnb, hbs', -⟩ := h.sound torch src T H hbs fun _ => hH
  have hH' : ∀ c, e.prefixCache = some c → H.PrefixInjective e.blockSize := fun _ _ => hbs' ▸ hH
  obtain ⟨r, e₁, g₁, heq, hs₁, -, -, hbs₁, -, hpre, hcase⟩ :=
    generate_spec torch src hs hno hH' g seqId promptIds maxNewTokens params eos
  have he' : e' = e₁ := congrArg (·.2.1) heq
  have hr : (call e seqId).1 = r := congrArg (·.1) heq
  obtain ⟨ref, href⟩ : ∃ ref, ref = ((reference torch T params eos maxNewTokens promptIds).run src g).1 :=
    ⟨_, rfl⟩
  dsimp only at hcase
  rw [← href] at hcase
  refine ⟨fun out hout => ?_, fun h0 => he' ▸ hpre h0, fun f hf sl hsl => ?_,
    hs.cachedBlocksHold (hbs' ▸ hH), he' ▸ hs₁.cachedBlocksHold (hbs₁.trans hbs' ▸ hH)⟩
  · rw [hr] at hout
    rcases hcase with ⟨-, x, rfl⟩ | ⟨-, ⟨msg, rfl⟩, -⟩ | ⟨h0, hok, hpos, -, hfits⟩
    · cases hout
    · cases hout
    obtain rfl : ref = out := by
      rw [(Prod.mk.inj hok).1] at hout
      exact Except.ok.inj hout
    refine ⟨he' ▸ hpos, fun seqId' => ?_, fun nb bs p seqId' out' hpos' hp hout' => ?_⟩
    · have hnew : Served H torch src T.runner (init T numBlocks blockSize false) _ := .start
      rcases hnew.generate_plain torch src T H hbs h0 href.symm seqId' with ⟨-, hshort⟩ | hok'
      · have hbn : e.cache.manager.blocksNeeded (promptIds.length + ref.length - 1) =
            (init T numBlocks blockSize false : LLMEngine κ D).cache.manager.blocksNeeded
              (promptIds.length + ref.length - 1) := BlockManager.blocksNeeded_congr hbs' _
        rw [hbn, hnb] at hfits
        omega
      · exact hok'
    · rcases hp.generate_plain torch src T H hpos' h0 href.symm seqId' with ⟨⟨msg, herr⟩, -⟩ | hok'
      · cases hout'.symm.trans herr
      · exact Except.ok.inj (hout'.symm.trans hok')
  · have := hs₁.clean f (he' ▸ hf) sl hsl
    rwa [hbs₁.trans hbs'] at this

/-- The hypotheses are satisfiable: after a prompt of two blocks, one that shares the
first of them is decoded as without a cache. -/
theorem prefix_cache_transparent_shared :
    let torch : Torch ℚ := ⟨id, fun _ => []⟩
    let src : Source ℚ Unit := ⟨fun g => (0, g), fun _ g => (0, g)⟩
    let e : LLMEngine (List ℕ) ℤ := ((init sumModel 8 2 true).generate listHash torch src
      sumModel.runner () 0 [0, 1, 2, 0] 2 .default none).2.1
    let e' := (e.generate listHash torch src sumModel.runner () 1 [0, 1, 0, 2] 3 .default none).2.1
    1 ≤ e'.lastPrefillTokens ∧ ((init sumModel 8 2 false : LLMEngine (List ℕ) ℤ).generate listHash
      torch src sumModel.runner () 1 [0, 1, 0, 2] 3 .default none).1 = .ok [2, 1, 0] :=
  have h := prefix_cache_transparent ⟨id, fun _ => []⟩ ⟨fun g => (0, g), fun _ g => (0, g)⟩ sumModel
    listHash (by decide) (listHash_prefixInjective 2)
    (.call () 0 [0, 1, 2, 0] 2 .default none .start) () 1 [0, 1, 0, 2] 3 .default none
  ⟨(h.1 [2, 1, 0] (by decide +kernel)).1, (h.1 [2, 1, 0] (by decide +kernel)).2.1 1⟩

end DiSpec
