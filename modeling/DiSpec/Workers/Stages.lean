/-
# A stage on an idle pool

A worker serves one request at a time, so each stage begins on an idle pool, and the pool
is idle again when it returns (`prefillExport_idle`, `decodeFromKv_idle`).  On an idle
pool a stage runs out of blocks exactly when the whole pool is too small for the tokens it
is to store.  What else the pool holds does not matter, so a stage on a used pool does
what it does on a new one.
-/

import DiSpec.Engine.Pressure
import DiSpec.KV.Sole
import DiSpec.Workers.Disaggregated

namespace DiSpec

open BlockManager

variable {X D R G : Type} [Zero D] [Add X] [Field R] [LinearOrder R] {T : Transformer X D R}
  {c : PagedKVCache D}

/-- The cache of a worker between two requests: its pool is idle, and it was made for the model. -/
structure PagedKVCache.Resting (T : Transformer X D R) (numBlocks blockSize : ℕ) (c : PagedKVCache D) :
    Prop where
  idle : c.manager.Idle
  numBlocks : c.manager.numBlocks = numBlocks
  blockSize : c.manager.blockSize = blockSize
  dims : c.dims = (T.numLayers, T.numKvHeads, T.headDim)

namespace PagedKVCache.Resting

variable {numBlocks blockSize : ℕ}

omit [Add X] [Field R] [LinearOrder R] in
/-- A new cache. -/
theorem new (T : Transformer X D R) (numBlocks : ℕ) {blockSize : ℕ} (hbs : 1 ≤ blockSize) :
    Resting T numBlocks blockSize (T.newCache numBlocks blockSize) :=
  ⟨init_idle numBlocks hbs, rfl, rfl, rfl⟩

omit [Zero D] [Add X] [Field R] [LinearOrder R] in
/-- Any stage can begin. -/
theorem ready (h : Resting T numBlocks blockSize c) (sid : ℕ) : Ready T c sid :=
  ⟨h.idle.blockSize_pos, ⟨0, h.idle.accounted⟩, h.idle.none sid, h.dims⟩

omit [Zero D] [Add X] [Field R] [LinearOrder R] in
/-- The end of a stage. -/
theorem freed (h : Resting T numBlocks blockSize c) {c' : PagedKVCache D} {sid : ℕ}
    (hacc : c'.manager.Accounted 0) (htouch : Touches c.manager c'.manager sid)
    (hdims : c'.dims = c.dims) :
    ∃ m, c'.manager.free sid = (.ok (), m) ∧ Resting T numBlocks blockSize (c'.setManager m) := by
  obtain ⟨m, heq, htouch', -, hnone, hacc'⟩ := free_spec hacc sid
  have hall := htouch.trans htouch'
  refine ⟨m, heq, ⟨hacc', hall.blockSize ▸ h.idle.blockSize_pos, fun s => ?_⟩,
    hall.numBlocks.trans h.numBlocks, hall.blockSize.trans h.blockSize, hdims.trans h.dims⟩
  rcases eq_or_ne s sid with rfl | hne
  · exact hnone
  · exact (hall.others s hne).trans (h.idle.none s)

end PagedKVCache.Resting

open PagedKVCache

variable {numBlocks blockSize : ℕ}

section Forwarded

variable {torch : Torch R} {src : Source R G} {runner : ModelRunner X D R} {g g₁ : G} {sid : ℕ}
  {promptIds : List ℕ} {params : SamplingParams R} {table : BlockTable} {m : BlockManager} {slots : List ℕ}
  {hidden : List X} {c' : PagedKVCache D}
  (halloc : c.manager.allocate sid promptIds.length [] = (.ok table, m))
  (hslots : (c.setManager m).contextSlots table.blockIds promptIds.length = .ok slots)
  (hfwd : runner.forwardList promptIds (List.range promptIds.length) slots
      [⟨table.blockIds, promptIds.length, promptIds.length⟩]
      ((c.setManager m).setManager
        ((c.setManager m).manager.setTable sid { table with numTokens := promptIds.length })) =
    (.ok hidden, c'))

include halloc hslots hfwd

omit [Zero D] [Add X] in
/-- `prefill_export` when nothing raises. -/
theorem prefillExport_ok {first : ℕ} {k v : KVTensor D} {m' : BlockManager}
    (hdraw : LLMEngine.sampleNext torch src params (runner.logits (lastRow hidden)) g = (.ok first, g₁))
    (hexp : c'.exportContiguous table.blockIds promptIds.length = .ok (k, v))
    (hfree : c'.manager.free sid = (.ok (), m')) :
    prefillExport torch src runner c g sid promptIds params = (.ok (k, v, first), c'.setManager m', g₁) := by
  simp only [prefillExport, halloc, hslots, hfwd, hdraw, hexp, hfree]

end Forwarded

/-- **`prefill_export` on an idle pool** needs the blocks of the prompt, and a prompt. -/
theorem prefillExport_idle (torch : Torch R) (src : Source R G) (h : Resting T numBlocks blockSize c)
    (g : G) (sid : ℕ) (promptIds : List ℕ) (params : SamplingParams R) :
    ∃ r c' g', prefillExport torch src T.runner c g sid promptIds params = (r, c', g') ∧
      (numBlocks < c.manager.blocksNeeded promptIds.length ∧ (∃ msg, r = .error (.OutOfBlocksError msg)) ∨
        promptIds = [] ∧ r = .error .RuntimeError ∨
        promptIds ≠ [] ∧ c.manager.blocksNeeded promptIds.length ≤ numBlocks ∧ (∃ a, r = .ok a) ∧
          Resting T numBlocks blockSize c') := by
  have hbs := h.idle.blockSize_pos
  rcases h.idle.allocate sid promptIds.length with ⟨hlt, msg, heq⟩ | ⟨hle, t, m, heq, ht, hsole⟩
  · refine ⟨.error (.OutOfBlocksError msg), c, g, ?_, Or.inl ⟨by rwa [← h.numBlocks], msg, rfl⟩⟩
    simp only [prefillExport, heq]
    rfl
  obtain ⟨ids, ht', hids⟩ := hsole.table
  rw [ht] at ht'
  obtain rfl := Option.some.inj ht'
  have hbs₁ : 0 < m.blockSize := hsole.blockSize_pos h.idle
  have hroom : promptIds.length ≤ ids.length * m.blockSize := hsole.accounted.capacity sid _ ht
  have hin : ∀ b ∈ ids, b < m.numBlocks := hsole.accounted.block_lt ht
  have hslots := (c.setManager m).contextSlots_spec hbs₁ hroom
  set m₂ := m.setTable sid ⟨ids, promptIds.length⟩
  have hsole₂ : Sole c.manager m₂ sid promptIds.length :=
    Sole.setTokens h.idle hsole.accounted hsole.touches ht hids
  have hlt : ∀ sl ∈ (List.range promptIds.length).map (Paging.slotAt m.blockSize ids),
      sl < (c.setManager m₂).numSlots := by
    intro sl hsl
    obtain ⟨p, hp, rfl⟩ := List.mem_map.1 hsl
    exact Paging.slotAt_lt hbs₁ hin ((List.mem_range.1 hp).trans_le hroom)
  by_cases h0 : promptIds = []
  · have hfwd : T.runner.forwardList promptIds (List.range promptIds.length)
        ((List.range promptIds.length).map (Paging.slotAt m.blockSize ids))
        [⟨ids, promptIds.length, promptIds.length⟩] (c.setManager m₂) =
        (.error .RuntimeError, c.setManager m₂) := if_pos h0
    refine ⟨.error .RuntimeError, c.setManager m₂, g, ?_, Or.inr (Or.inl ⟨h0, rfl⟩)⟩
    simp only [prefillExport, heq, show (c.setManager m).contextSlots ids promptIds.length = _ from hslots]
    rw [show (c.setManager m).setManager ((c.setManager m).manager.setTable sid ⟨ids, promptIds.length⟩) =
      c.setManager m₂ from rfl]
    rw [show (c.setManager m).blockSize = m.blockSize from rfl, hfwd]
  obtain ⟨hidden, pool, hfwd, hlen⟩ := T.forward_total (c := c.setManager m₂) hbs₁
    (show (List.range promptIds.length).length = promptIds.length from List.length_range)
    (by rw [List.length_map, List.length_range]) hlt hroom hin
  have hfwd : T.runner.forwardList promptIds _ _ _ _ = _ := (T.runner.forwardList_eq h0 ..).trans hfwd
  obtain ⟨first, g₁, hdraw⟩ := LLMEngine.sampleNext_lastRow torch src T params
    (show 0 < hidden.length by rw [hlen]; exact List.length_pos_iff.2 h0) g
  obtain ⟨k, v, hexp, -⟩ := ({ c.setManager m₂ with pool } : PagedKVCache D).exportContiguous_spec hbs₁ hin
    hroom
  obtain ⟨m₃, hfree, hrest⟩ := h.freed
    (show ({ c.setManager m₂ with pool } : PagedKVCache D).manager.Accounted 0 from hsole₂.accounted)
    hsole₂.touches rfl
  have hfree : (c.setManager m₂).manager.free sid = (.ok (), m₃) := hfree
  exact ⟨_, _, _, prefillExport_ok heq hslots hfwd hdraw hexp hfree,
    Or.inr (Or.inr ⟨h0, by rwa [← h.numBlocks], ⟨_, rfl⟩, hrest⟩)⟩

/-- The decode loop does not change the shape of the cache. -/
theorem decodeLoop_dims (torch : Torch R) (src : Source R G) (T : Transformer X D R) (sid : ℕ)
    (params : SamplingParams R) (eos : Option ℕ) (n nxt cur : ℕ) (c : PagedKVCache D) (g : G) :
    (decodeLoop torch src T.runner sid params eos n nxt cur c g).2.1.dims = c.dims := by
  induction n generalizing nxt cur c g with
  | zero => rfl
  | succ n ih =>
    rw [decodeLoop]
    split
    · rfl
    rcases c.manager.appendToken sid with ⟨x | ⟨blk, off⟩, m⟩
    · rfl
    simp only
    rcases m.blockTable sid with x | table
    · rfl
    simp only
    obtain ⟨hfwd, -⟩ := T.forward_frame [nxt] [cur] [blk * c.blockSize + off] [⟨table.blockIds, 1, cur + 1⟩]
      (c.setManager m)
    have hdims := congrArg (·.dims) hfwd
    rcases hrun : T.runner.forward [nxt] [cur] [blk * c.blockSize + off] [⟨table.blockIds, 1, cur + 1⟩]
      (c.setManager m) with ⟨x | hidden, c₁⟩
    all_goals
      rw [show T.forward _ _ _ _ _ = _ from hrun] at hdims
    · exact hdims
    simp only
    rcases LLMEngine.sampleNext torch src params (T.runner.logits (lastRow hidden)) g with ⟨x | t, g₁⟩
    · exact hdims
    have hrest := (ih t (cur + 1) c₁ g₁).trans hdims
    rcases hloop : decodeLoop torch src T.runner sid params eos n t (cur + 1) c₁ g₁ with ⟨x | out, c₂, g₂⟩
    all_goals
      rw [hloop] at hrest
      simp only [hloop]
      exact hrest

omit [Zero D] [Add X] in
/-- `decode_from_kv` when its loop raises. -/
theorem decodeFromKv_error {torch : Torch R} {src : Source R G} {runner : ModelRunner X D R} {g g₁ : G}
    {sid : ℕ} {promptIds : List ℕ} {k v : KVTensor D} {first maxNew : ℕ} {params : SamplingParams R}
    {eos : Option ℕ} {table : BlockTable} {m : BlockManager} {c₁ c₂ : PagedKVCache D} {x : Exc}
    (halloc : c.manager.allocate sid promptIds.length [] = (.ok table, m))
    (himp : (c.setManager m).importContiguous table.blockIds k v = (.ok (), c₁))
    (hloop : decodeLoop torch src runner sid params eos (maxNew - 1) first promptIds.length
        (c₁.setManager (c₁.manager.setTable sid { table with numTokens := promptIds.length })) g =
      (.error x, c₂, g₁)) :
    decodeFromKv torch src runner c g sid promptIds k v first maxNew params eos = (.error x, c₂, g₁) := by
  simp only [decodeFromKv, halloc, himp, hloop]

omit [Zero D] [Add X] in
/-- `decode_from_kv` when its loop returns. -/
theorem decodeFromKv_ok {torch : Torch R} {src : Source R G} {runner : ModelRunner X D R} {g g₁ : G}
    {sid : ℕ} {promptIds : List ℕ} {k v : KVTensor D} {first maxNew : ℕ} {params : SamplingParams R}
    {eos : Option ℕ} {table : BlockTable} {m m' : BlockManager} {c₁ c₂ : PagedKVCache D} {out : List ℕ}
    (halloc : c.manager.allocate sid promptIds.length [] = (.ok table, m))
    (himp : (c.setManager m).importContiguous table.blockIds k v = (.ok (), c₁))
    (hloop : decodeLoop torch src runner sid params eos (maxNew - 1) first promptIds.length
        (c₁.setManager (c₁.manager.setTable sid { table with numTokens := promptIds.length })) g =
      (.ok out, c₂, g₁))
    (hfree : c₂.manager.free sid = (.ok (), m')) :
    decodeFromKv torch src runner c g sid promptIds k v first maxNew params eos =
      (.ok (first :: out), c₂.setManager m', g₁) := by
  simp only [decodeFromKv, halloc, himp, hloop, hfree]

/-- **`decode_from_kv` on an idle pool** needs the blocks of the prompt and of all but one of the tokens it
draws; whatever was stored there before, it draws what the model does. -/
theorem decodeFromKv_idle (torch : Torch R) (src : Source R G) (h : Resting T numBlocks blockSize c)
    {promptIds : List ℕ} {k v : KVTensor D} (hkv : Carries T promptIds k v) (first maxNew : ℕ)
    (params : SamplingParams R) (eos : Option ℕ) (g : G) (sid : ℕ) :
    let rest := (LLMEngine.restOf torch T params eos (maxNew - 1) first (promptIds ++ [first])).run src g
    let need := c.manager.blocksNeeded (promptIds.length + rest.1.length)
    ∃ r c' g', decodeFromKv torch src T.runner c g sid promptIds k v first maxNew params eos =
        (r, c', g') ∧
      (numBlocks < need ∧ (∃ msg, r = .error (.OutOfBlocksError msg)) ∨
        need ≤ numBlocks ∧ r = .ok (first :: rest.1) ∧ Resting T numBlocks blockSize c') := by
  intro rest need
  have hbs := h.idle.blockSize_pos
  rcases h.idle.allocate sid promptIds.length with ⟨hlt, msg, heq⟩ | ⟨hle, t, m, heq, ht, hsole⟩
  · refine ⟨.error (.OutOfBlocksError msg), c, g, ?_, Or.inl ⟨?_, msg, rfl⟩⟩
    · simp only [decodeFromKv, heq]
      rfl
    · rw [← h.numBlocks]
      exact hlt.trans_le (c.manager.blocksNeeded_mono hbs (Nat.le_add_right _ _))
  obtain ⟨ids, ht', hids⟩ := hsole.table
  rw [ht] at ht'
  obtain rfl := Option.some.inj ht'
  have hbs₁ : 0 < (c.setManager m).blockSize := hsole.blockSize_pos h.idle
  have hroom : promptIds.length ≤ ids.length * (c.setManager m).blockSize := hsole.accounted.capacity sid _ ht
  have hin : ∀ b ∈ ids, b < m.numBlocks := hsole.accounted.block_lt ht
  have hnodup : ids.Nodup := hsole.accounted.table_nodup sid _ ht
  obtain ⟨hk, hv⟩ := hkv.shaped (c := c.setManager m) h.dims
  obtain ⟨pool, himp, hrows, -⟩ := (c.setManager m).importContiguous_spec hbs₁ hnodup hin hk hv
    (hkv.tokens ▸ hroom)
  set m₂ := m.setTable sid ⟨ids, promptIds.length⟩
  have hsole₂ : Sole c.manager m₂ sid promptIds.length :=
    Sole.setTokens h.idle hsole.accounted hsole.touches ht hids
  have ht₂ : m₂.tables.lookup sid = some ⟨ids, promptIds.length⟩ := AList.lookup_insert _
  set e : LLMEngine Unit D := ⟨{ c.setManager m₂ with pool }, none, 0, []⟩
  have hdecoding : LLMEngine.Decoding T noBase e sid 0 (promptIds ++ [first]) ⟨ids, promptIds.length⟩ := by
    refine ⟨hsole₂.accounted, hbs₁, ht₂, hids.trans (hsole₂.blocksNeeded _).symm,
      by rw [List.length_append]; rfl, fun _ _ _ => rfl, ?_, fun j b _ _ => Multiset.notMem_zero b⟩
    refine Transformer.Holds.append (fun i hi p hp => ?_) le_rfl [first]
    rw [← hkv.rows i hi p hp]
    have hlayers : c.numLayers = T.numLayers := congrArg Prod.fst h.dims
    exact hrows i (hlayers.symm ▸ hi) p (hkv.tokens.symm ▸ hp)
  have hstr : str (promptIds ++ [first]) promptIds.length = first := by
    rw [str, List.getD_append_right _ _ _ _ le_rfl, Nat.sub_self]
    rfl
  obtain ⟨r, e', g', hdec, hframe, hacc, hcase⟩ :=
    LLMEngine.decode_spec torch src [] params eos (maxNew - 1) hdecoding g
  have hloop := decodeLoop_eq torch src T.runner sid [] params eos (maxNew - 1) _ _ e g hdec
  have hfree := hsole₂.free_add h.idle
  rw [← hids, h.numBlocks] at hfree
  have hneed : ∀ n, e.cache.manager.blocksNeeded n = c.manager.blocksNeeded n := hsole₂.blocksNeeded
  have hfree : e.cache.manager.freeList.length + ids.length = numBlocks := hfree
  dsimp only at hloop hcase
  rw [hstr] at hloop hcase
  rw [hneed, hfree] at hcase
  rcases hcase with ⟨⟨msg, rfl⟩, hlt⟩ | ⟨rfl, -, hle⟩
  · exact ⟨_, _, _, decodeFromKv_error heq himp hloop, Or.inl ⟨hlt, msg, rfl⟩⟩
  have hdims : e'.cache.dims = c.dims := by
    have hkept := decodeLoop_dims torch src T sid params eos (maxNew - 1) first promptIds.length e.cache g
    rw [show decodeLoop torch src T.runner sid params eos (maxNew - 1) first promptIds.length e.cache g = _
      from hloop] at hkept
    exact hkept
  obtain ⟨m₃, hfr, hrest⟩ := h.freed hacc (hsole₂.touches.trans hframe.touches) hdims
  exact ⟨_, _, _, decodeFromKv_ok heq himp hloop hfr, Or.inr ⟨hle, rfl, hrest⟩⟩

end DiSpec
