/-
# The queues and the batch in any state

`Inv` holds after runs that raised nothing.  What a caller can rely on after an
exception is less, and this module says what it is: the queues hold the same ids
however a call ends, scheduling changes no text, and a request that waits or
prefills has no output and part of its prompt ahead of it, if it has a prompt
(`Queues`).  None of it speaks of the KV pool.

The batch is followed in the same way.  `Parallel` says of its lists only that
their lengths and indices fit together, and holds whatever the tables and the prompts
are.
-/

import DiSpec.Sched.Run

namespace DiSpec

open Slice

/-- The lists of the batch have the widths and the indices of the slices. -/
structure Parallel (b : Batch) (sl : List Slice) : Prop where
  batch : b.batch = sl.map Slice.req
  widths : b.seqMeta.map SeqMeta.qLen = sl.map Slice.len
  tokenIds : b.tokenIds.length = total sl
  cursor : b.cursor = total sl
  lastIdx : b.lastIdx = lastIdxs 0 sl

/-- One more request in the batch. -/
theorem Parallel.snoc {b b' : Batch} {sl : List Slice} (h : Parallel b sl) (s : Slice)
    (hbatch : b'.batch = b.batch ++ [s.req])
    (hmeta : b'.seqMeta.map SeqMeta.qLen = b.seqMeta.map SeqMeta.qLen ++ [s.len])
    (htok : b'.tokenIds.length = b.tokenIds.length + s.len) (hcursor : b'.cursor = b.cursor + s.len)
    (hlast : b'.lastIdx = b.lastIdx ++
      if s.sampled then [(((b.cursor + s.len : ℕ) : ℤ) - 1)] else []) : Parallel b' (sl ++ [s]) := by
  refine ⟨?_, ?_, ?_, ?_, ?_⟩
  · rw [hbatch, h.batch, List.map_append]
    rfl
  · rw [hmeta, h.widths, List.map_append]
    rfl
  · rw [htok, h.tokenIds, total_snoc]
  · rw [hcursor, h.cursor, total_snoc]
  · rw [hlast, h.lastIdx, h.cursor, lastIdxs_snoc, Nat.zero_add]

namespace ContinuousBatchingEngine

variable {X D R G : Type}

/-- The ids in the queues. -/
def ids (e : ContinuousBatchingEngine D R G) : List ℕ :=
  e.waiting ++ e.prefilling ++ e.running ++ e.finished

/-- **What holds in every state** that calls lead to, raising or not. -/
structure Queues (e : ContinuousBatchingEngine D R G) : Prop where
  nodup : e.ids.Nodup
  bound : ∀ r ∈ e.ids, r < e.nextId
  id : ∀ r, (e.req r).id = r
  waiting : ∀ r ∈ e.waiting, (e.req r).state = .WAITING ∧ (e.req r).outputIds = [] ∧
    (e.req r).prefillPos = 0 ∧
    (prefixLen (e.req r).prefixKv = 0 ∨ prefixLen (e.req r).prefixKv < (e.req r).promptIds.length)
  prefilling : ∀ r ∈ e.prefilling, (e.req r).state = .PREFILLING ∧ (e.req r).outputIds = [] ∧
    ((e.req r).prefillPos = 0 ∨ (e.req r).prefillPos < (e.req r).promptIds.length)
  chunk : 0 < e.chunkSize ∨ e.maxBatchTokens = 0

/-- What scheduling leaves alone in any state. -/
structure Moves (e e' : ContinuousBatchingEngine D R G) : Prop where
  text : ∀ r, SameText (e.req r) (e'.req r)
  prefillPos : ∀ r, (e.req r).prefillPos ≤ (e'.req r).prefillPos
  ids : e'.ids.Perm e.ids
  running : ∀ r ∈ e.running, r ∈ e'.running
  finished : e'.finished = e.finished
  nextId : e'.nextId = e.nextId
  maxBatchTokens : e'.maxBatchTokens = e.maxBatchTokens
  chunkSize : e'.chunkSize = e.chunkSize
  blockSize : e'.cache.manager.blockSize = e.cache.manager.blockSize

theorem Moves.refl (e : ContinuousBatchingEngine D R G) : Moves e e :=
  ⟨fun _ => .refl _, fun _ => le_rfl, .refl _, fun _ h => h, rfl, rfl, rfl, rfl, rfl⟩

theorem Moves.trans {e₁ e₂ e₃ : ContinuousBatchingEngine D R G} (h : Moves e₁ e₂) (h' : Moves e₂ e₃) :
    Moves e₁ e₃ :=
  ⟨fun r => (h.text r).trans (h'.text r), fun r => (h.prefillPos r).trans (h'.prefillPos r),
    h'.ids.trans h.ids, fun r hr => h'.running r (h.running r hr),
    h'.finished.trans h.finished, h'.nextId.trans h.nextId, h'.maxBatchTokens.trans h.maxBatchTokens,
    h'.chunkSize.trans h.chunkSize, h'.blockSize.trans h.blockSize⟩

/-- What `Queues` reads of the engine; the waiting queue may be reordered. -/
theorem Queues.congr {e e' : ContinuousBatchingEngine D R G} (h : Queues e)
    (hreq : e'.req = e.req) (hw : e'.waiting.Perm e.waiting) (hp : e'.prefilling = e.prefilling)
    (hrun : e'.running = e.running) (hfin : e'.finished = e.finished) (hn : e'.nextId = e.nextId)
    (hchunk : e'.chunkSize = e.chunkSize) (hmax : e'.maxBatchTokens = e.maxBatchTokens) : Queues e' := by
  have hperm : e'.ids.Perm e.ids := by
    unfold ContinuousBatchingEngine.ids
    rw [hp, hrun, hfin]
    exact ((hw.append_right _).append_right _).append_right _
  refine ⟨hperm.nodup_iff.2 h.nodup, fun r hr => ?_, fun r => ?_, fun r hr => ?_, fun r hr => ?_, ?_⟩
  · rw [hn]
    exact h.bound r (hperm.mem_iff.1 hr)
  · rw [hreq]
    exact h.id r
  · rw [hreq]
    exact h.waiting r (hw.mem_iff.1 hr)
  · rw [hreq]
    exact h.prefilling r (hp ▸ hr)
  · rw [hchunk, hmax]
    exact h.chunk

/-- **Who holds the blocks** of a pool of `n`, in every state that calls lead to, raising or not,
whatever they submit: the prefilling and the running requests, and nobody else.  A waiting request brings
no KV that the pool could not take. -/
structure Tenure (n : ℕ) (e : ContinuousBatchingEngine D R G) : Prop where
  numBlocks : e.cache.manager.numBlocks = n
  blockSize_pos : 0 < e.cache.manager.blockSize
  accounted : e.cache.manager.Accounted 0
  table : ∀ r, (∃ t, e.cache.manager.tables.lookup r = some t) ↔ r ∈ e.prefilling ∨ r ∈ e.running
  room : ∀ r ∈ e.prefilling, ∀ t, e.cache.manager.tables.lookup r = some t →
    (e.req r).promptIds.length ≤ t.blockIds.length * e.cache.manager.blockSize
  fits : ∀ r ∈ e.waiting, PrefixFits e.cache (e.req r)

/-- In a run whose prompts are not empty and fit the pool, there is moreover something left to do for each
request under way. -/
structure Custody (n : ℕ) (e : ContinuousBatchingEngine D R G) : Prop extends Tenure n e where
  live : ∀ r ∈ e.running, (e.req r).outputIds.length < max (e.req r).maxNewTokens 1
  prompts : ∀ r, r ∈ e.prefilling ∨ r ∈ e.waiting → (e.req r).promptIds ≠ [] ∧
    e.cache.manager.blocksNeeded (e.req r).promptIds.length ≤ n

/-- Tenure reads the manager and the shape of the cache, the requests and three queues. -/
theorem Tenure.congr {e e' : ContinuousBatchingEngine D R G} {n : ℕ} (h : Tenure n e)
    (hm : e'.cache.manager = e.cache.manager) (hdims : e'.cache.dims = e.cache.dims)
    (hreq : e'.req = e.req) (hw : ∀ r ∈ e'.waiting, r ∈ e.waiting) (hp : e'.prefilling = e.prefilling)
    (hrun : e'.running = e.running) : Tenure n e' := by
  obtain ⟨h₁, h₂, h₃, h₄, h₅, h₆⟩ := h
  rw [← hm] at h₁ h₂ h₃ h₄ h₅
  rw [← hreq] at h₅ h₆
  rw [← hp] at h₄ h₅
  rw [← hrun] at h₄
  exact ⟨h₁, h₂, h₃, h₄, h₅, fun r hr => (h₆ r (hw r hr)).congr hdims⟩

/-- An action on request `r` keeps tenure if it leaves `r` as it should be. -/
theorem Tenure.act {e e' : ContinuousBatchingEngine D R G} {r n : ℕ} (h : Tenure n e)
    (hothers : ∀ r', r' ≠ r → e'.req r' = e.req r' ∧ (r' ∈ e'.prefilling ↔ r' ∈ e.prefilling) ∧
      (r' ∈ e'.running ↔ r' ∈ e.running))
    (hwait : ∀ r' ∈ e'.waiting, r' ∈ e.waiting)
    (hfits : PrefixFits e.cache (e.req r) → PrefixFits e.cache (e'.req r))
    (htouch : BlockManager.Touches e.cache.manager e'.cache.manager r) (hdims : e'.cache.dims = e.cache.dims)
    (hacc : e'.cache.manager.Accounted 0)
    (htable : (∃ t, e'.cache.manager.tables.lookup r = some t) ↔ r ∈ e'.prefilling ∨ r ∈ e'.running)
    (hroom : r ∈ e'.prefilling → ∀ t, e'.cache.manager.tables.lookup r = some t →
      (e'.req r).promptIds.length ≤ t.blockIds.length * e.cache.manager.blockSize) : Tenure n e' := by
  refine ⟨htouch.numBlocks.trans h.numBlocks, h.blockSize_pos.trans_eq htouch.blockSize.symm, hacc,
    fun r' => ?_, fun r' hr' t ht => ?_, fun r' hr' => .congr ?_ hdims⟩
  · rcases eq_or_ne r' r with rfl | hne
    · exact htable
    · obtain ⟨-, hp, hrun⟩ := hothers r' hne
      rw [htouch.others r' hne, hp, hrun]
      exact h.table r'
  · rw [htouch.blockSize]
    rcases eq_or_ne r' r with rfl | hne
    · exact hroom hr' t ht
    · obtain ⟨hreq, hp, -⟩ := hothers r' hne
      rw [hreq]
      exact h.room r' (hp.1 hr') t ((htouch.others r' hne).symm.trans ht)
  · rcases eq_or_ne r' r with rfl | hne
    · exact hfits (h.fits r' (hwait r' hr'))
    · rw [(hothers r' hne).1]
      exact h.fits r' (hwait r' hr')

/-- An action on request `r` that keeps tenure keeps custody if it leaves `r` as it should be. -/
theorem Custody.of_tenure {e e' : ContinuousBatchingEngine D R G} {r n : ℕ} (h : Custody n e)
    (ht : Tenure n e') (hbs : e'.cache.manager.blockSize = e.cache.manager.blockSize)
    (hothers : ∀ r', r' ≠ r → e'.req r' = e.req r' ∧
      (r' ∈ e'.prefilling ∨ r' ∈ e'.waiting → r' ∈ e.prefilling ∨ r' ∈ e.waiting) ∧
      (r' ∈ e'.running → r' ∈ e.running))
    (hlive : r ∈ e'.running → (e'.req r).outputIds.length < max (e'.req r).maxNewTokens 1)
    (hr : r ∈ e.prefilling ∨ r ∈ e.waiting) (hprompt : (e'.req r).promptIds = (e.req r).promptIds) :
    Custody n e' := by
  refine ⟨ht, fun r' hr' => ?_, fun r' hr' => ?_⟩
  · rcases eq_or_ne r' r with rfl | hne
    · exact hlive hr'
    · obtain ⟨hreq, -, hrun⟩ := hothers r' hne
      rw [hreq]
      exact h.live r' (hrun hr')
  · rw [BlockManager.blocksNeeded_congr hbs]
    rcases eq_or_ne r' r with rfl | hne
    · rw [hprompt]
      exact h.prompts r' hr
    · obtain ⟨hreq, hqueued, -⟩ := hothers r' hne
      rw [hreq]
      exact h.prompts r' (hqueued hr')

variable {e : ContinuousBatchingEngine D R G} {b : Batch} {r : ℕ}

/-! ### Phase 1 -/

/-- **Phase 1 in any state.**  However it ends, it has taken a decode token of the first
running requests; no queue, no request and no table but theirs has changed. -/
structure Decodes (e : ContinuousBatchingEngine D R G) (b : Batch) (rs : List ℕ) (res : Except Exc Unit)
    (e' : ContinuousBatchingEngine D R G) (b' : Batch) (new : List Slice) : Prop where
  frame : ∃ m, e' = { e.setManager m with numDecodeTokens := e.numDecodeTokens + new.length }
  blockSize : e'.cache.manager.blockSize = e.cache.manager.blockSize
  parallel : ∀ sl, Parallel b sl → Parallel b' (sl ++ new)
  slices : ∀ s ∈ new, s.len = 1 ∧ s.sampled = true
  reqs : new.map Slice.req <+: rs
  budget : b'.budget + new.length = b.budget
  grow : ∀ r t, e.cache.manager.tables.lookup r = some t →
    ∃ t', e'.cache.manager.tables.lookup r = some t' ∧ t.numTokens ≤ t'.numTokens
  custody {n : ℕ} : (∀ r ∈ rs, r ∈ e.running) → Custody n e → Custody n e'
  ok : res = .ok () → new.map Slice.req = rs.take b.budget ∧
    (rs.Nodup → e.cache.manager.freeList.length =
      e'.cache.manager.freeList.length + (rs.take b.budget).countP e.onBoundary)

/-- Nothing decoded. -/
theorem Decodes.stop {m : BlockManager} (rs : List ℕ) (res : Except Exc Unit)
    (hsize : m.blockSize = e.cache.manager.blockSize)
    (hgrow : ∀ r t, e.cache.manager.tables.lookup r = some t →
      ∃ t', m.tables.lookup r = some t' ∧ t.numTokens ≤ t'.numTokens)
    (hcustody : ∀ {n}, (∀ r ∈ rs, r ∈ e.running) → Custody n e → Custody n (e.setManager m))
    (hok : res = .ok () → rs.take b.budget = [] ∧ m = e.cache.manager) :
    Decodes e b rs res (e.setManager m) b [] := by
  refine ⟨⟨m, rfl⟩, hsize, fun sl h => by rwa [List.append_nil], by simp, List.nil_prefix, rfl, hgrow,
    hcustody, fun h => ?_⟩
  obtain ⟨hnil, rfl⟩ := hok h
  rw [hnil]
  exact ⟨rfl, fun _ => rfl⟩

/-- **The reservation of a decode token** keeps tenure, whether it raises or not. -/
theorem Tenure.appendToken {n : ℕ} (h : Tenure n e) (hr : r ∈ e.running) {t : BlockTable}
    (ht : e.cache.manager.tables.lookup r = some t) :
    Tenure n (e.setManager (e.cache.manager.appendToken r).2) ∧
      (e.cache.manager.appendToken r).2.blockSize = e.cache.manager.blockSize := by
  rcases e.cache.manager.appendToken_spec h.accounted h.blockSize_pos ht with
    ⟨-, -, herr⟩ | ⟨new, blk, m, hok, hext, -, -, hacc⟩
  · rw [herr]
    exact ⟨h, rfl⟩
  · rw [hok]
    refine ⟨h.act (r := r) (fun _ _ => ⟨rfl, Iff.rfl, Iff.rfl⟩) (fun _ h => h) (fun h => h)
      hext.toTouches rfl hacc
      (iff_of_true ⟨_, hext.table⟩ (Or.inr hr)) (fun hp t' ht' => ?_), hext.blockSize⟩
    obtain rfl := Option.some.inj (hext.table.symm.trans ht')
    refine (h.room r hp t ht).trans (Nat.mul_le_mul_right _ ?_)
    rw [List.length_append]
    exact Nat.le_add_right _ _

/-- It keeps custody too: it reads no request. -/
theorem Custody.appendToken {n : ℕ} (hc : Custody n e) (hr : r ∈ e.running) {t : BlockTable}
    (ht : e.cache.manager.tables.lookup r = some t) :
    Custody n (e.setManager (e.cache.manager.appendToken r).2) := by
  obtain ⟨h, hbs⟩ := hc.toTenure.appendToken hr ht
  exact ⟨h, hc.live, fun r' hr' => ⟨(hc.prompts r' hr').1,
    (BlockManager.blocksNeeded_congr hbs _).trans_le (hc.prompts r' hr').2⟩⟩

/-- A change of one table that does not shorten it shortens no table. -/
theorem touches_grow {m m' : BlockManager} (htouch : BlockManager.Touches m m' r) {t t' : BlockTable}
    (ht : m.tables.lookup r = some t) (ht' : m'.tables.lookup r = some t') (hle : t.numTokens ≤ t'.numTokens)
    (r' : ℕ) (t₁ : BlockTable) (ht₁ : m.tables.lookup r' = some t₁) :
    ∃ t₂, m'.tables.lookup r' = some t₂ ∧ t₁.numTokens ≤ t₂.numTokens := by
  rcases eq_or_ne r' r with rfl | hne
  · obtain rfl := Option.some.inj (ht.symm.trans ht₁)
    exact ⟨t', ht', hle⟩
  · exact ⟨t₁, (htouch.others r' hne).trans ht₁, le_rfl⟩

/-- One decode token before others. -/
theorem Decodes.cons {e₁ : ContinuousBatchingEngine D R G} {m : BlockManager} {b₁ : Batch}
    {rs ids : List ℕ} {t : BlockTable}
    (he₁ : e₁ = { e.setManager m with numDecodeTokens := e.numDecodeTokens + 1 })
    (ht : e.cache.manager.tables.lookup r = some t) (hm : m.tables.lookup r = some ⟨ids, t.numTokens + 1⟩)
    (htouch : BlockManager.Touches e.cache.manager m r)
    (hfree : e.cache.manager.freeList.length = m.freeList.length +
      if t.numTokens % e.cache.manager.blockSize = 0 then 1 else 0)
    (hpar : ∀ sl, Parallel b sl → Parallel b₁ (sl ++ [⟨r, ids, t.numTokens, 1, true⟩]))
    (hbud : b₁.budget + 1 = b.budget)
    (hkeep : ∀ {n}, (∀ r' ∈ r :: rs, r' ∈ e.running) → Custody n e → Custody n (e.setManager m))
    {res : Except Exc Unit} {e' : ContinuousBatchingEngine D R G} {b' : Batch} {new : List Slice}
    (h : Decodes e₁ b₁ rs res e' b' new) :
    Decodes e b (r :: rs) res e' b' (⟨r, ids, t.numTokens, 1, true⟩ :: new) := by
  obtain ⟨m', hframe⟩ := h.frame
  have hman : e₁.cache.manager = m := by rw [he₁]; rfl
  have hbs : e₁.cache.manager.blockSize = e.cache.manager.blockSize := by rw [hman]; exact htouch.blockSize
  refine ⟨⟨m', ?_⟩, h.blockSize.trans hbs, fun sl hsl => ?_, fun s hs => ?_, ?_, ?_,
    fun r' t' ht' => ?_, fun hrun hc => ?_, fun hres => ?_⟩
  · rw [hframe, he₁, List.length_cons]
    simp only [setManager, Nat.add_comm, Nat.add_left_comm]
  · rw [List.append_cons]
    exact h.parallel _ (hpar sl hsl)
  · rcases List.mem_cons.1 hs with rfl | hs
    · exact ⟨rfl, rfl⟩
    · exact h.slices s hs
  · exact (List.prefix_cons_inj r).2 h.reqs
  · have := h.budget
    rw [List.length_cons]
    omega
  · obtain ⟨t₁, ht₁, hle⟩ := touches_grow htouch ht hm (Nat.le_succ _) r' t' ht'
    obtain ⟨t₂, ht₂, hle'⟩ := h.grow r' t₁ (hman ▸ ht₁)
    exact ⟨t₂, ht₂, hle.trans hle'⟩
  · have hc' := hkeep hrun hc
    subst he₁
    exact h.custody (fun r' hr' => hrun r' (List.mem_cons_of_mem _ hr'))
      ⟨hc'.toTenure.congr rfl rfl rfl (fun _ hr => hr) rfl rfl, hc'.live, hc'.prompts⟩
  · obtain ⟨hreqs, hcount⟩ := h.ok hres
    have htake : (r :: rs).take b.budget = r :: rs.take b₁.budget := by
      rw [← hbud, List.take_succ_cons]
    refine ⟨by rw [htake, List.map_cons, hreqs], fun hn => ?_⟩
    rw [List.nodup_cons] at hn
    -- the others stand on a boundary iff they did before
    have hsame : (rs.take b₁.budget).countP e₁.onBoundary = (rs.take b₁.budget).countP e.onBoundary := by
      refine List.countP_congr fun r' hr' => ?_
      have hne : r' ≠ r := by
        rintro rfl
        exact hn.1 (List.mem_of_mem_take hr')
      have hlook : e₁.cache.manager.tables.lookup r' = e.cache.manager.tables.lookup r' := by
        rw [hman]
        exact htouch.others r' hne
      have hbs : e₁.cache.blockSize = e.cache.blockSize := hbs
      unfold onBoundary
      rw [hlook, hbs]
    have hone : (if e.onBoundary r then 1 else 0) = if t.numTokens % e.cache.manager.blockSize = 0
        then 1 else 0 := by
      unfold onBoundary
      rw [ht]
      simp only [decide_eq_true_eq]
      rfl
    have hfree₁ := hcount hn.2
    rw [hsame, hman] at hfree₁
    rw [htake, List.countP_cons, hone, hfree, hfree₁, Nat.add_assoc]

theorem decodeLoop_any (rs : List ℕ) (e : ContinuousBatchingEngine D R G) (b : Batch) :
    ∃ res e' b' new, e.decodeLoop b rs = (res, e', b') ∧ Decodes e b rs res e' b' new := by
  induction rs generalizing e b with
  | nil =>
    exact ⟨.ok (), e, b, [], rfl, .stop [] _ rfl (fun _ t h => ⟨t, h, le_rfl⟩) (fun _ h => h) (by simp)⟩
  | cons r rs ih =>
    by_cases hb : b.budget < 1
    · refine ⟨.ok (), e, b, [], by rw [decodeLoop, if_pos hb], .stop _ _ rfl (fun _ t h => ⟨t, h, le_rfl⟩)
        (fun _ h => h) fun _ => ⟨?_, rfl⟩⟩
      rw [show b.budget = 0 by omega, List.take_zero]
    rcases e.cache.manager.appendToken_cases r with ⟨hnone, -⟩ | ⟨t, ht, hcase⟩
    · refine ⟨.error .KeyError, e, b, [], ?_, .stop _ _ rfl (fun _ t h => ⟨t, h, le_rfl⟩) (fun _ h => h)
        (by simp)⟩
      rw [decodeLoop, if_neg hb, BlockManager.blockTable, hnone]
    have htab : e.cache.manager.blockTable r = .ok t := by rw [BlockManager.blockTable, ht]
    rcases hcase with ⟨-, -, happ⟩ | ⟨-, ids, m, htouch, hfree, hcase⟩
    · refine ⟨_, e, b, [], ?_, .stop _ (.error (.OutOfBlocksError "block pool exhausted")) rfl
        (fun _ t h => ⟨t, h, le_rfl⟩) (fun _ h => h) (by simp)⟩
      rw [decodeLoop, if_neg hb, htab]
      simp only [happ]
      rfl
    have hkeep : ∀ {n}, (∀ r' ∈ r :: rs, r' ∈ e.running) → Custody n e → Custody n (e.setManager m) := by
      intro n hrun hc
      have := hc.appendToken (hrun r List.mem_cons_self) ht
      rcases hcase with ⟨happ, -⟩ | ⟨s, happ, -⟩
      · rwa [happ] at this
      · rwa [happ] at this
    rcases hcase with ⟨happ, hm⟩ | ⟨⟨blk, off⟩, happ, hm⟩
    · refine ⟨.error .IndexError, e.setManager m, b, [], ?_, .stop _ _ htouch.blockSize
        (touches_grow htouch ht hm le_rfl) hkeep (by simp)⟩
      rw [decodeLoop, if_neg hb, htab]
      simp only [happ]
    have hmtab : m.blockTable r = .ok ⟨ids, t.numTokens + 1⟩ := by rw [BlockManager.blockTable, hm]
    cases hlast : (e.req r).outputIds.getLast? with
    | none =>
      refine ⟨.error .IndexError, e.setManager m, b, [], ?_, .stop _ _ htouch.blockSize
        (touches_grow htouch ht hm (Nat.le_succ _)) hkeep (by simp)⟩
      rw [decodeLoop, if_neg hb, htab]
      simp only [happ, hlast]
    | some token =>
      set b₁ : Batch := { b with
        tokenIds := b.tokenIds ++ [token]
        positions := b.positions ++ [t.numTokens]
        writeSlots := b.writeSlots ++ [blk * e.cache.blockSize + off]
        seqMeta := b.seqMeta ++ [⟨ids, 1, t.numTokens + 1⟩]
        cursor := b.cursor + 1
        lastIdx := b.lastIdx ++ [((b.cursor + 1 : ℕ) : ℤ) - 1]
        batch := b.batch ++ [r]
        budget := b.budget - 1 } with hb₁
      obtain ⟨res, e', b', new, heq, hrest⟩ :=
        ih { e.setManager m with numDecodeTokens := e.numDecodeTokens + 1 } b₁
      refine ⟨res, e', b', _, ?_, .cons rfl ht hm htouch hfree (fun sl hsl => ?_) ?_ hkeep hrest⟩
      · rw [decodeLoop, if_neg hb, htab]
        simp only [happ, hlast, hmtab]
        exact heq
      · exact hsl.snoc _ rfl (by rw [hb₁]; simp) (by rw [hb₁]; simp) rfl rfl
      · show b.budget - 1 + 1 = b.budget
        omega

end ContinuousBatchingEngine
end DiSpec
