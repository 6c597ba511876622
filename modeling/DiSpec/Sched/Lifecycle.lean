/-
# The life of a request

`Inv` is the invariant of the continuous-batching engine.  Each id is in one
queue; a request has a table iff it is prefilling or running; the table has exactly
the blocks its tokens need and shares none with another table; and the pool holds the
KV of all tokens the table counts.  Inside `step` a request may already be in the
batch: its table counts tokens that the forward has yet to write.  The slices of the
batch so far are a parameter of `Inv`, and the requests finished but not yet retired
are another; between steps both are empty.

`ReqInv` is the part about one request.  It depends on that request's own fields,
table and blocks only (`ReqInv.congr`), so an action on one request (`Acts`) leaves
the others alone, and what is left to show is that request's own part (`Inv.act`).
`Inv.join` is the action that every phase of `schedule` comes down to: a request
gets a slice of the batch.
-/

import DiSpec.KV.Accounting
import DiSpec.Sched.Batch

namespace DiSpec

namespace Request

variable {D R : Type}

/-- A request with more output. -/
def emit (q : Request D R) (l : List ℕ) : Request D R := { q with outputIds := q.outputIds ++ l }

theorem emit_emit (q : Request D R) (l l' : List ℕ) : (q.emit l).emit l' = q.emit (l ++ l') := by
  simp only [emit, List.append_assoc]

theorem tokens_emit (q : Request D R) (l : List ℕ) : (q.emit l).tokens = q.tokens ++ l := by
  simp only [tokens, emit, List.append_assoc]

theorem emit_nil (q : Request D R) : q.emit [] = q := by
  simp only [emit, List.append_nil]

end Request

namespace ContinuousBatchingEngine

variable {X D R G : Type}

/-- The KV supplied with a request. -/
def baseOf (kv : Option (KVTensor D × KVTensor D)) : BaseKV D :=
  match kv with
  | none => noBase
  | some (k, v) => fun i p => if p < k.tokens then some ⟨k.rows i p, v.rows i p⟩ else none

/-- The fields of a request that scheduling does not touch. -/
structure SameText (q q' : Request D R) : Prop where
  id : q'.id = q.id
  promptIds : q'.promptIds = q.promptIds
  params : q'.params = q.params
  maxNewTokens : q'.maxNewTokens = q.maxNewTokens
  eosId : q'.eosId = q.eosId
  outputIds : q'.outputIds = q.outputIds
  priority : q'.priority = q.priority

theorem SameText.refl (q : Request D R) : SameText q q := ⟨rfl, rfl, rfl, rfl, rfl, rfl, rfl⟩

theorem SameText.trans {q₁ q₂ q₃ : Request D R} (h : SameText q₁ q₂) (h' : SameText q₂ q₃) :
    SameText q₁ q₃ :=
  ⟨h'.id.trans h.id, h'.promptIds.trans h.promptIds, h'.params.trans h.params,
    h'.maxNewTokens.trans h.maxNewTokens, h'.eosId.trans h.eosId, h'.outputIds.trans h.outputIds,
    h'.priority.trans h.priority⟩

/-- More output keeps two requests alike. -/
theorem SameText.emit {q q' : Request D R} (h : SameText q q') (l : List ℕ) :
    SameText (q.emit l) (q'.emit l) :=
  ⟨h.id, h.promptIds, h.params, h.maxNewTokens, h.eosId, congrArg (· ++ l) h.outputIds, h.priority⟩

theorem SameText.tokens {q q' : Request D R} (h : SameText q q') : q'.tokens = q.tokens := by
  unfold Request.tokens
  rw [h.promptIds, h.outputIds]

theorem SameText.done {q q' : Request D R} (h : SameText q q') : q'.done = q.done := by
  unfold Request.done
  rw [h.maxNewTokens, h.outputIds, h.eosId]

/-- The KV supplied with a request has the shape of the cache and leaves some of the prompt to
compute. -/
def PrefixFits (c : PagedKVCache D) (q : Request D R) : Prop :=
  ∀ k v, q.prefixKv = some (k, v) →
    k.Shaped c k.tokens ∧ v.Shaped c k.tokens ∧ k.tokens < q.promptIds.length

theorem PrefixFits.congr {c c' : PagedKVCache D} {q : Request D R} (h : PrefixFits c q)
    (hdims : c'.dims = c.dims) : PrefixFits c' q := by
  intro k v hkv
  obtain ⟨hk, hv, hlt⟩ := h k v hkv
  exact ⟨hk.congr hdims, hv.congr hdims, hlt⟩

/-- A request in `waiting`. -/
structure IsWaiting (c : PagedKVCache D) (base : BaseKV D) (q : Request D R) : Prop where
  state : q.state = .WAITING
  prefillPos : q.prefillPos = 0
  outputIds : q.outputIds = []
  promptIds : q.promptIds ≠ []
  base : base = baseOf q.prefixKv
  covers : PrefixFits c q

theorem IsWaiting.congr {c c' : PagedKVCache D} {base : BaseKV D} {q : Request D R}
    (h : IsWaiting c base q) (hdims : c'.dims = c.dims) : IsWaiting c' base q :=
  ⟨h.state, h.prefillPos, h.outputIds, h.promptIds, h.base, h.covers.congr hdims⟩

/-- A request in `prefilling`: its table has the blocks of the whole prompt and counts the
tokens prefilled so far. -/
structure IsPrefilling (m : BlockManager) (r : ℕ) (q : Request D R) : Prop where
  state : q.state = .PREFILLING
  outputIds : q.outputIds = []
  prefillPos : q.prefillPos < q.promptIds.length
  table : ∃ t, m.tables.lookup r = some t ∧ t.numTokens = q.prefillPos ∧
    t.blockIds.length = m.blocksNeeded q.promptIds.length

/-- A request in `running`, in the batch (`sliced`) or not, finished but not retired
(`ended`) or not: its table counts all its tokens, but for the last when it is not in the
batch, and has exactly the blocks they need. -/
structure IsRunning (m : BlockManager) (r : ℕ) (q : Request D R) (sliced ended : Prop) : Prop where
  promptIds : q.promptIds ≠ []
  live : ¬ended → q.state = .RUNNING ∧ (q.outputIds = [] ∨ q.done = false)
  ended : ended → q.state = .FINISHED ∧ q.done = true ∧ ¬sliced
  table : ∃ t, m.tables.lookup r = some t ∧ t.blockIds.length = m.blocksNeeded t.numTokens ∧
    (sliced → t.numTokens = q.tokens.length) ∧
    (¬sliced → q.outputIds ≠ [] ∧ t.numTokens + 1 = q.tokens.length)

/-- A request in `finished`. -/
structure IsFinished (q : Request D R) : Prop where
  state : q.state = .FINISHED
  done : q.done = true
  outputIds : q.outputIds ≠ []

/-- The token strings of all requests. -/
def tokensOf (e : ContinuousBatchingEngine D R G) : ℕ → ℕ → ℕ := fun r => str (e.req r).tokens

/-- Some slice belongs to `r`. -/
def Sliced (sl : List Slice) (r : ℕ) : Prop := ∃ s ∈ sl, s.req = r

variable [Zero D] [Add X]

/-- The pool holds the KV of the first `n` tokens of request `r`, and no KV is supplied from
outside after them. -/
structure Stored (T : Transformer X D R) (base : ℕ → BaseKV D) (e : ContinuousBatchingEngine D R G)
    (r : ℕ) (ids : List ℕ) (n : ℕ) : Prop where
  holds : T.Holds e.cache ids (base r) (str (e.req r).tokens) n
  computed : ∀ i p, n ≤ p → base r i p = none

/-- **What holds of one request.** -/
structure ReqInv (T : Transformer X D R) (base : ℕ → BaseKV D) (e : ContinuousBatchingEngine D R G)
    (sl : List Slice) (fin : List ℕ) (r : ℕ) : Prop where
  noTable : r ∉ e.prefilling → r ∉ e.running → e.cache.manager.tables.lookup r = none
  waiting : r ∈ e.waiting → IsWaiting e.cache (base r) (e.req r)
  prefilling : r ∈ e.prefilling → IsPrefilling e.cache.manager r (e.req r)
  running : r ∈ e.running → IsRunning e.cache.manager r (e.req r) (Sliced sl r) (r ∈ fin)
  finished : r ∈ e.finished → IsFinished (e.req r)
  slice : ∀ s ∈ sl, s.req = r → (r ∈ e.prefilling ∨ r ∈ e.running) ∧
    (s.sampled = true ↔ r ∈ e.running) ∧
    e.cache.manager.tables.lookup r = some ⟨s.blockIds, s.start + s.len⟩ ∧
    Stored T base e r s.blockIds s.start
  stored : ∀ t, e.cache.manager.tables.lookup r = some t → ¬Sliced sl r →
    Stored T base e r t.blockIds t.numTokens

variable {T : Transformer X D R} {base : ℕ → BaseKV D} {e e' : ContinuousBatchingEngine D R G}
  {sl sl' : List Slice} {fin fin' : List ℕ} {r : ℕ}

/-- Stored KV stays while the slots of its blocks do. -/
theorem Stored.congr {ids : List ℕ} {n : ℕ} (h : Stored T base e r ids n) (hbs : 0 < e.cache.blockSize)
    (hn : n ≤ ids.length * e.cache.blockSize) (hsize : e'.cache.blockSize = e.cache.blockSize)
    (htok : (e'.req r).tokens = (e.req r).tokens)
    (hpool : ∀ i sl, sl / e.cache.blockSize ∈ ids → e'.cache.pool i sl = e.cache.pool i sl) :
    Stored T base e' r ids n := by
  refine ⟨fun i hi p hp => ?_, h.computed⟩
  rw [hsize, hpool i _ (Paging.slotAt_div_mem hbs (hp.trans_le hn)), htok]
  exact h.holds i hi p hp

/-- **A request is as it was** if its fields, queue, table, blocks and slices are. -/
theorem ReqInv.congr (h : ReqInv T base e sl fin r) {pins : Multiset ℕ}
    (hacc : e.cache.manager.Accounted pins) (hbs : 0 < e.cache.blockSize)
    (hreq : e'.req r = e.req r) (hw : r ∈ e'.waiting ↔ r ∈ e.waiting)
    (hp : r ∈ e'.prefilling ↔ r ∈ e.prefilling) (hrun : r ∈ e'.running ↔ r ∈ e.running)
    (hf : r ∈ e'.finished ↔ r ∈ e.finished)
    (hlook : e'.cache.manager.tables.lookup r = e.cache.manager.tables.lookup r)
    (hsize : e'.cache.manager.blockSize = e.cache.manager.blockSize) (hdims : e'.cache.dims = e.cache.dims)
    (hpool : ∀ t, e.cache.manager.tables.lookup r = some t → ∀ i sl,
      sl / e.cache.blockSize ∈ t.blockIds → e'.cache.pool i sl = e.cache.pool i sl)
    (hsl : ∀ s : Slice, s.req = r → (s ∈ sl' ↔ s ∈ sl)) (hfin : r ∈ fin' ↔ r ∈ fin) :
    ReqInv T base e' sl' fin' r := by
  have hsliced : Sliced sl' r ↔ Sliced sl r := by
    constructor
    · rintro ⟨s, hs, hr⟩
      exact ⟨s, (hsl s hr).1 hs, hr⟩
    · rintro ⟨s, hs, hr⟩
      exact ⟨s, (hsl s hr).2 hs, hr⟩
  have hstored : ∀ t n, e.cache.manager.tables.lookup r = some t → n ≤ t.numTokens →
      Stored T base e r t.blockIds n → Stored T base e' r t.blockIds n := fun t n ht hn hst =>
    hst.congr hbs (hn.trans (hacc.capacity r t ht)) hsize (by rw [hreq]) (hpool t ht)
  refine ⟨fun h₁ h₂ => ?_, fun hm => ?_, fun hm => ?_, fun hm => ?_, fun hm => ?_, fun s hs hr => ?_,
    fun t ht hns => ?_⟩
  · rw [hlook]
    exact h.noTable (fun hm => h₁ (hp.2 hm)) fun hm => h₂ (hrun.2 hm)
  · rw [hreq]
    exact (h.waiting (hw.1 hm)).congr hdims
  · obtain ⟨h₁, h₂, h₃, t, ht, h₄, h₅⟩ := h.prefilling (hp.1 hm)
    rw [hreq]
    exact ⟨h₁, h₂, h₃, t, hlook.trans ht, h₄, by rw [BlockManager.blocksNeeded_congr hsize, h₅]⟩
  · obtain ⟨h₁, h₂, h₃, t, ht, h₄, h₅, h₆⟩ := h.running (hrun.1 hm)
    rw [hreq]
    refine ⟨h₁, fun hn => h₂ fun hm => hn (hfin.2 hm), fun ho => ?_, t, hlook.trans ht, ?_, ?_, ?_⟩
    · obtain ⟨g₁, g₂, g₃⟩ := h₃ (hfin.1 ho)
      exact ⟨g₁, g₂, fun hs => g₃ (hsliced.1 hs)⟩
    · rw [BlockManager.blocksNeeded_congr hsize, h₄]
    · exact fun hs => h₅ (hsliced.1 hs)
    · exact fun hs => h₆ fun hs' => hs (hsliced.2 hs')
  · rw [hreq]
    exact h.finished (hf.1 hm)
  · obtain ⟨h₁, h₂, h₃, h₄⟩ := h.slice s ((hsl s hr).1 hs) hr
    refine ⟨?_, h₂.trans hrun.symm, hlook.trans h₃, hstored _ _ h₃ (Nat.le_add_right _ _) h₄⟩
    rw [hp, hrun]
    exact h₁
  · rw [hlook] at ht
    exact hstored t _ ht le_rfl (h.stored t ht fun hs => hns (hsliced.2 hs))

/-- **The invariant of the engine**, with the slices of the batch so far and the requests
finished but not retired. -/
structure Inv (T : Transformer X D R) (base : ℕ → BaseKV D) (e : ContinuousBatchingEngine D R G)
    (sl : List Slice) (fin : List ℕ) : Prop where
  blockSize_pos : 0 < e.cache.blockSize
  numLayers : e.cache.numLayers = T.numLayers
  chunk : 0 < e.chunkSize ∨ e.maxBatchTokens = 0
  accounted : e.cache.manager.Accounted 0
  disjoint : e.cache.manager.TablesDisjoint
  lists : (e.waiting ++ e.prefilling ++ e.running ++ e.finished).Nodup
  created : ∀ r, r ∈ e.waiting ++ e.prefilling ++ e.running ++ e.finished ↔ r < e.nextId
  slices_nodup : (sl.map Slice.req).Nodup
  each : ∀ r, ReqInv T base e sl fin r

omit [Zero D] [Add X] in
/-- The queues have no id in common. -/
theorem not_mem_of_running (hn : (e.waiting ++ e.prefilling ++ e.running ++ e.finished).Nodup)
    (hr : r ∈ e.running) : r ∉ e.waiting ∧ r ∉ e.prefilling ∧ r ∉ e.finished := by
  simp only [List.nodup_append, List.mem_append] at hn
  obtain ⟨⟨⟨-, -, -⟩, -, hrun⟩, -, hfin⟩ := hn
  exact ⟨fun hm => hrun r (Or.inl hm) r hr rfl, fun hm => hrun r (Or.inr hm) r hr rfl,
    fun hm => hfin r (Or.inr hr) r hm rfl⟩

omit [Zero D] [Add X] in
theorem not_mem_of_prefilling (hn : (e.waiting ++ e.prefilling ++ e.running ++ e.finished).Nodup)
    (hr : r ∈ e.prefilling) : r ∉ e.waiting ∧ r ∉ e.running ∧ r ∉ e.finished := by
  simp only [List.nodup_append, List.mem_append] at hn
  obtain ⟨⟨⟨-, -, hwp⟩, -, hrun⟩, -, hfin⟩ := hn
  exact ⟨fun hm => hwp r hm r hr rfl, fun hm => hrun r (Or.inr hr) r hm rfl,
    fun hm => hfin r (Or.inl (Or.inr hr)) r hm rfl⟩

omit [Zero D] [Add X] in
theorem not_mem_of_waiting (hn : (e.waiting ++ e.prefilling ++ e.running ++ e.finished).Nodup)
    (hr : r ∈ e.waiting) : r ∉ e.prefilling ∧ r ∉ e.running ∧ r ∉ e.finished := by
  simp only [List.nodup_append, List.mem_append] at hn
  obtain ⟨⟨⟨-, -, hwp⟩, -, hrun⟩, -, hfin⟩ := hn
  exact ⟨fun hm => hwp r hr r hm rfl, fun hm => hrun r (Or.inl hr) r hm rfl,
    fun hm => hfin r (Or.inl (Or.inl hr)) r hm rfl⟩

theorem Inv.only_running (h : Inv T base e sl fin) (hr : r ∈ e.running) :
    r ∉ e.waiting ∧ r ∉ e.prefilling ∧ r ∉ e.finished := not_mem_of_running h.lists hr

theorem Inv.only_prefilling (h : Inv T base e sl fin) (hr : r ∈ e.prefilling) :
    r ∉ e.waiting ∧ r ∉ e.running ∧ r ∉ e.finished := not_mem_of_prefilling h.lists hr

theorem Inv.only_waiting (h : Inv T base e sl fin) (hr : r ∈ e.waiting) :
    r ∉ e.prefilling ∧ r ∉ e.running ∧ r ∉ e.finished := not_mem_of_waiting h.lists hr

/-- What the invariant reads of the engine; the waiting queue may be reordered. -/
theorem Inv.congr (h : Inv T base e sl fin) (hcache : e'.cache = e.cache) (hreq : e'.req = e.req)
    (hw : e'.waiting.Perm e.waiting) (hp : e'.prefilling = e.prefilling) (hrun : e'.running = e.running)
    (hfin : e'.finished = e.finished) (hn : e'.nextId = e.nextId)
    (hchunk : e'.chunkSize = e.chunkSize) (hmax : e'.maxBatchTokens = e.maxBatchTokens) :
    Inv T base e' sl fin := by
  have hperm : (e'.waiting ++ e'.prefilling ++ e'.running ++ e'.finished).Perm
      (e.waiting ++ e.prefilling ++ e.running ++ e.finished) := by
    rw [hp, hrun, hfin]
    exact ((hw.append_right _).append_right _).append_right _
  refine ⟨hcache ▸ h.blockSize_pos, hcache ▸ h.numLayers, ?_, hcache ▸ h.accounted, hcache ▸ h.disjoint,
    hperm.nodup_iff.2 h.lists, fun r => ?_, h.slices_nodup, fun r => ?_⟩
  · rw [hchunk, hmax]
    exact h.chunk
  · rw [hperm.mem_iff, hn]
    exact h.created r
  · exact (h.each r).congr h.accounted h.blockSize_pos (by rw [hreq]) hw.mem_iff (by rw [hp])
      (by rw [hrun]) (by rw [hfin]) (by rw [hcache]) (by rw [hcache]) (by rw [hcache])
      (fun _ _ _ _ _ => by rw [hcache])
      (fun _ _ => Iff.rfl) Iff.rfl

/-- What an action on request `r` leaves alone: the queues of the others, the texts, what is
fixed, and the tables and blocks of the others. -/
structure Acts (e e' : ContinuousBatchingEngine D R G) (r : ℕ) : Prop where
  text : ∀ r', SameText (e.req r') (e'.req r')
  others : ∀ r', r' ≠ r → e'.req r' = e.req r' ∧ (r' ∈ e'.waiting ↔ r' ∈ e.waiting) ∧
    (r' ∈ e'.prefilling ↔ r' ∈ e.prefilling) ∧ (r' ∈ e'.running ↔ r' ∈ e.running)
  finished : e'.finished = e.finished
  nextId : e'.nextId = e.nextId
  maxBatchTokens : e'.maxBatchTokens = e.maxBatchTokens
  chunkSize : e'.chunkSize = e.chunkSize
  numSteps : e'.numSteps = e.numSteps
  rng : e'.rng = e.rng
  dims : e'.cache.dims = e.cache.dims
  touches : BlockManager.Touches e.cache.manager e'.cache.manager r
  pool : ∀ r' t, r' ≠ r → e.cache.manager.tables.lookup r' = some t → ∀ i sl,
    sl / e.cache.blockSize ∈ t.blockIds → e'.cache.pool i sl = e.cache.pool i sl

omit [Zero D] [Add X] in
theorem Acts.refl (e : ContinuousBatchingEngine D R G) (r : ℕ) : Acts e e r :=
  ⟨fun _ => .refl _, fun _ _ => ⟨rfl, Iff.rfl, Iff.rfl, Iff.rfl⟩, rfl, rfl, rfl, rfl, rfl, rfl, rfl,
    .refl _ _, fun _ _ _ _ _ _ _ => rfl⟩

omit [Zero D] [Add X] in
/-- **An action that writes request `r`** and moves it between the queues. -/
theorem Acts.of_update {q : Request D R} (hreq : e'.req = Function.update e.req r q)
    (htext : SameText (e.req r) q)
    (hqueues : ∀ r', r' ≠ r → (r' ∈ e'.waiting ↔ r' ∈ e.waiting) ∧
      (r' ∈ e'.prefilling ↔ r' ∈ e.prefilling) ∧ (r' ∈ e'.running ↔ r' ∈ e.running))
    (hfixed : e'.finished = e.finished ∧ e'.nextId = e.nextId ∧ e'.maxBatchTokens = e.maxBatchTokens ∧
      e'.chunkSize = e.chunkSize ∧ e'.numSteps = e.numSteps ∧ e'.rng = e.rng ∧
      e'.cache.dims = e.cache.dims)
    (htouch : BlockManager.Touches e.cache.manager e'.cache.manager r)
    (hpool : ∀ r' t, r' ≠ r → e.cache.manager.tables.lookup r' = some t → ∀ i sl,
      sl / e.cache.blockSize ∈ t.blockIds → e'.cache.pool i sl = e.cache.pool i sl) : Acts e e' r := by
  obtain ⟨hf, hn, hm, hc, hs, hg, hl⟩ := hfixed
  have hother : ∀ r', r' ≠ r → e'.req r' = e.req r' := fun r' hne => by
    rw [hreq, Function.update_of_ne hne]
  refine ⟨fun r' => ?_, fun r' hne => ⟨hother r' hne, hqueues r' hne⟩, hf, hn, hm, hc, hs, hg, hl,
    htouch, hpool⟩
  rcases eq_or_ne r' r with rfl | hne
  · rw [hreq, Function.update_self]
    exact htext
  · rw [hother r' hne]
    exact .refl _

omit [Zero D] [Add X] in
/-- Two actions on one request are one. -/
theorem Acts.trans {e₁ e₂ e₃ : ContinuousBatchingEngine D R G} (h : Acts e₁ e₂ r) (h' : Acts e₂ e₃ r) :
    Acts e₁ e₃ r := by
  refine ⟨fun r' => (h.text r').trans (h'.text r'), fun r' hne => ?_, h'.finished.trans h.finished,
    h'.nextId.trans h.nextId, h'.maxBatchTokens.trans h.maxBatchTokens, h'.chunkSize.trans h.chunkSize,
    h'.numSteps.trans h.numSteps, h'.rng.trans h.rng, h'.dims.trans h.dims,
    h.touches.trans h'.touches, fun r' t hne ht i sl hsl => ?_⟩
  · obtain ⟨h₁, h₂, h₃, h₄⟩ := h.others r' hne
    obtain ⟨g₁, g₂, g₃, g₄⟩ := h'.others r' hne
    exact ⟨g₁.trans h₁, g₂.trans h₂, g₃.trans h₃, g₄.trans h₄⟩
  · have hsize : e₂.cache.blockSize = e₁.cache.blockSize := h.touches.blockSize
    rw [h'.pool r' t hne ((h.touches.others r' hne).trans ht) i sl (by rwa [hsize]),
      h.pool r' t hne ht i sl hsl]

/-- **The others after an action on `r`** are as they were. -/
theorem Inv.others (h : Inv T base e sl fin) (ha : Acts e e' r) {r' : ℕ} (hr : r' ≠ r)
    (hsl : ∀ s : Slice, s.req = r' → (s ∈ sl' ↔ s ∈ sl)) (hfin : r' ∈ fin' ↔ r' ∈ fin) :
    ReqInv T base e' sl' fin' r' := by
  obtain ⟨hreq, hw, hp, hrun⟩ := ha.others r' hr
  exact (h.each r').congr h.accounted h.blockSize_pos hreq hw hp hrun (by rw [ha.finished])
    (ha.touches.others r' hr) ha.touches.blockSize ha.dims (fun t ht => ha.pool r' t hr ht) hsl hfin

/-- **An action on `r` keeps the invariant** if it keeps the accounting, loses no id, and
leaves `r` as it should be. -/
theorem Inv.act (h : Inv T base e sl []) (ha : Acts e e' r) (hacc : e'.cache.manager.Accounted 0)
    (hdisj : e'.cache.manager.TablesDisjoint)
    (hperm : (e'.waiting ++ e'.prefilling ++ e'.running).Perm (e.waiting ++ e.prefilling ++ e.running))
    (hslices : (sl'.map Slice.req).Nodup)
    (hsl : ∀ r', r' ≠ r → ∀ s : Slice, s.req = r' → (s ∈ sl' ↔ s ∈ sl))
    (hr : ReqInv T base e' sl' [] r) : Inv T base e' sl' [] := by
  have hall : (e'.waiting ++ e'.prefilling ++ e'.running ++ e'.finished).Perm
      (e.waiting ++ e.prefilling ++ e.running ++ e.finished) := by
    rw [ha.finished]
    exact hperm.append_right _
  refine ⟨h.blockSize_pos.trans_eq ha.touches.blockSize.symm, (congrArg Prod.fst ha.dims).trans h.numLayers, ?_, hacc,
    hdisj, hall.nodup_iff.2 h.lists, fun r' => ?_, hslices, fun r' => ?_⟩
  · rw [ha.chunkSize, ha.maxBatchTokens]
    exact h.chunk
  · rw [hall.mem_iff, ha.nextId]
    exact h.created r'
  · rcases eq_or_ne r' r with rfl | hne
    · exact hr
    · exact h.others ha hne (hsl r' hne) Iff.rfl

/-! ### One more slice -/

omit [Zero D] [Add X] in
/-- Slices of the batch but for that of `r`. -/
theorem mem_snoc_of_ne {s : Slice} (hs : s.req = r) {r' : ℕ} (hr : r' ≠ r) (s' : Slice)
    (hs' : s'.req = r') : s' ∈ sl ++ [s] ↔ s' ∈ sl := by
  rw [List.mem_append, List.mem_singleton]
  refine ⟨fun h => h.resolve_right ?_, Or.inl⟩
  rintro rfl
  exact hr (hs'.symm.trans hs)

omit [Zero D] [Add X] in
/-- The new slice is the only one of its request. -/
theorem eq_of_mem_snoc {s s' : Slice} (hns : ¬Sliced sl s.req) (hm : s' ∈ sl ++ [s])
    (hreq : s'.req = s.req) : s' = s := by
  rcases List.mem_append.1 hm with hm | hm
  · exact absurd ⟨s', hm, hreq⟩ hns
  · exact List.mem_singleton.1 hm

omit [Zero D] [Add X] in
theorem nodup_snoc {s : Slice} (hn : (sl.map Slice.req).Nodup) (hs : ¬Sliced sl s.req) :
    ((sl ++ [s]).map Slice.req).Nodup := by
  rw [List.map_append, List.map_singleton, List.nodup_append]
  refine ⟨hn, List.nodup_singleton _, fun x hx y hy hxy => ?_⟩
  obtain ⟨s', hs', rfl⟩ := List.mem_map.1 hx
  exact hs ⟨s', hs', hxy.trans (List.mem_singleton.1 hy)⟩

/-- **A request joins the batch** with a slice that its table counts: it prefills on, or runs
and is sampled from. -/
theorem Inv.join (h : Inv T base e sl []) {s : Slice} (ha : Acts e e' s.req) (hns : ¬Sliced sl s.req)
    (hacc : e'.cache.manager.Accounted 0) (hdisj : e'.cache.manager.TablesDisjoint)
    (hperm : (e'.waiting ++ e'.prefilling ++ e'.running).Perm (e.waiting ++ e.prefilling ++ e.running))
    (htab : e'.cache.manager.tables.lookup s.req = some ⟨s.blockIds, s.start + s.len⟩)
    (hst : Stored T base e' s.req s.blockIds s.start)
    (hq : s.req ∈ e'.prefilling ∧ s.sampled = false ∧
        IsPrefilling e'.cache.manager s.req (e'.req s.req) ∨
      s.req ∈ e'.running ∧ s.sampled = true ∧
        IsRunning e'.cache.manager s.req (e'.req s.req) True False) :
    Inv T base e' (sl ++ [s]) [] := by
  have hsl : Sliced (sl ++ [s]) s.req := ⟨s, by simp, rfl⟩
  have hlists : (e'.waiting ++ e'.prefilling ++ e'.running ++ e'.finished).Nodup := by
    rw [ha.finished]
    exact (hperm.append_right _).nodup_iff.2 h.lists
  refine h.act ha hacc hdisj hperm (nodup_snoc h.slices_nodup hns)
    (fun r' hne => mem_snoc_of_ne rfl hne) ?_
  rcases hq with ⟨hp, hsam, hpre⟩ | ⟨hrun, hsam, hq⟩
  · obtain ⟨hw, hrun, hf⟩ := not_mem_of_prefilling hlists hp
    refine ⟨fun hm => absurd hp hm, fun hm => absurd hm hw, fun _ => hpre, fun hm => absurd hm hrun,
      fun hm => absurd hm hf, fun s' hs' hreq => ?_, fun _ _ hm => absurd hsl hm⟩
    obtain rfl := eq_of_mem_snoc hns hs' hreq
    exact ⟨Or.inl hp, iff_of_false (by simp [hsam]) hrun, htab, hst⟩
  · obtain ⟨hw, hp, hf⟩ := not_mem_of_running hlists hrun
    refine ⟨fun _ hm => absurd hrun hm, fun hm => absurd hm hw, fun hm => absurd hm hp, fun _ => ?_,
      fun hm => absurd hm hf, fun s' hs' hreq => ?_, fun _ _ hm => absurd hsl hm⟩
    · rwa [eq_true hsl, eq_false List.not_mem_nil]
    · obtain rfl := eq_of_mem_snoc hns hs' hreq
      exact ⟨Or.inr hrun, iff_of_true hsam hrun, htab, hst⟩

end ContinuousBatchingEngine
end DiSpec
