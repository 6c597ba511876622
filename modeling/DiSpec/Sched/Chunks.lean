/-
# Phase 2 in any state

Phase 2 takes a chunk of one prompt after another into the batch (`Takes`).  A request whose
prompt ends with its chunk is sampled and runs; the others resume where it ended
(`Resumes`).  `schedule_any` puts both phases together: whatever state calls have led to, the
batch of a step is that of some slices, and what was taken is what was counted.
-/

import DiSpec.Sched.Admission

namespace DiSpec

open Slice

namespace ContinuousBatchingEngine

variable {X D R G : Type} {e : ContinuousBatchingEngine D R G} {b : Batch} {r : ℕ}

/-- What the slice `s` of request `r` adds to the batch and to the counters. -/
structure Chunk (e e' : ContinuousBatchingEngine D R G) (b b' : Batch) (s : Slice) : Prop where
  len : s.len = min (min ((e.req s.req).promptIds.length - resumeAt (e.req s.req)) e.chunkSize) b.budget
  sampled : s.sampled = decide (s.len = (e.req s.req).promptIds.length - resumeAt (e.req s.req))
  positive : 1 ≤ s.len
  parallel : ∀ sl, Parallel b sl → Parallel b' (sl ++ [s])
  flags : b'.sampled = b.sampled ++ [s.sampled]
  budget : b'.budget + s.len = b.budget
  running : e'.running = e.running ++ if s.sampled then [s.req] else []
  numPrefillTokens : e'.numPrefillTokens = e.numPrefillTokens + s.len
  prefillPos : (e'.req s.req).prefillPos = resumeAt (e.req s.req) + s.len

/-- A chunk of a prompt keeps the lists of the batch together, whatever slots it is given. -/
theorem parallel_chunked {sl : List Slice} (h : Parallel b sl) {promptIds : List ℕ} {start n : ℕ}
    (hend : start + n ≤ promptIds.length) (r : ℕ) (ids slots : List ℕ) (bs : ℕ) (sampled : Bool) :
    Parallel { chunked b r promptIds ids bs start n sampled with
      writeSlots := slots } (sl ++ [⟨r, ids, start, n, sampled⟩]) := by
  refine h.snoc _ rfl ?_ ?_ rfl rfl
  · exact List.map_append
  · show (b.tokenIds ++ (promptIds.drop start).take n).length = b.tokenIds.length + n
    rw [List.length_append, List.length_take, List.length_drop]
    omega

/-- The engine after a chunk of `n` tokens that ends the prompt of `r`, whose table is `t`. -/
def promptEnded (e : ContinuousBatchingEngine D R G) (r : ℕ) (t : BlockTable) (n : ℕ) :
    ContinuousBatchingEngine D R G :=
  let q := e.req r
  { e with
    cache := { e.cache with
      manager := e.cache.manager.setTable r { t with numTokens := q.prefillPos + n } }
    req := Function.update e.req r
      { q with prefillPos := q.prefillPos + n, prefilled := true, state := .RUNNING }
    numPrefillTokens := e.numPrefillTokens + n
    prefilling := e.prefilling.erase r
    running := e.running ++ [r] }

/-- The engine after a chunk of `n` tokens that leaves some of the prompt. -/
def promptAdvanced (e : ContinuousBatchingEngine D R G) (r : ℕ) (t : BlockTable) (n : ℕ) :
    ContinuousBatchingEngine D R G :=
  let q := e.req r
  { e with
    cache := { e.cache with
      manager := e.cache.manager.setTable r { t with numTokens := q.prefillPos + n } }
    req := Function.update e.req r { q with prefillPos := q.prefillPos + n }
    numPrefillTokens := e.numPrefillTokens + n }

/-- A chunk that ends its prompt keeps tenure: the request runs and keeps its blocks. -/
theorem Tenure.promptEnded {n k : ℕ} (h : Tenure n e) (hq : Queues e) (hr : r ∈ e.prefilling)
    {t : BlockTable} (ht : e.cache.manager.tables.lookup r = some t)
    (hend : (e.req r).prefillPos + k ≤ (e.req r).promptIds.length) : Tenure n (e.promptEnded r t k) := by
  have hpn : e.prefilling.Nodup := (hq.nodup.of_append_left.of_append_left).of_append_right
  have hin : r ∈ (e.promptEnded r t k).running := List.mem_append_right _ (List.mem_singleton_self r)
  refine h.act (r := r) (fun r' hne => ⟨Function.update_of_ne hne _ _, List.mem_erase_of_ne hne, ?_⟩)
    (fun _ hr' => hr') (fun hfits => ?_) BlockManager.touches_setTable rfl (h.accounted.setTokens ht (hend.trans (h.room r hr t ht)))
    (iff_of_true ⟨_, AList.lookup_insert _⟩ (Or.inr hin)) fun hm => absurd hm hpn.not_mem_erase
  · show r' ∈ e.running ++ [r] ↔ _
    simp [hne]
  · simp only [ContinuousBatchingEngine.promptEnded, Function.update_self]
    exact hfits

/-- A chunk that leaves some of its prompt keeps tenure. -/
theorem Tenure.promptAdvanced {n k : ℕ} (h : Tenure n e) (hr : r ∈ e.prefilling) {t : BlockTable}
    (ht : e.cache.manager.tables.lookup r = some t)
    (hend : (e.req r).prefillPos + k ≤ (e.req r).promptIds.length) : Tenure n (e.promptAdvanced r t k) := by
  refine h.act (r := r) (fun r' hne => ⟨Function.update_of_ne hne _ _, Iff.rfl, Iff.rfl⟩)
    (fun _ hr' => hr') (fun hfits => ?_) BlockManager.touches_setTable rfl (h.accounted.setTokens ht (hend.trans (h.room r hr t ht)))
    (iff_of_true ⟨_, AList.lookup_insert _⟩ (Or.inl hr)) fun _ t' ht' => ?_
  · simp only [ContinuousBatchingEngine.promptAdvanced, Function.update_self]
    exact hfits
  · obtain rfl := Option.some.inj ((AList.lookup_insert _).symm.trans ht')
    simp only [ContinuousBatchingEngine.promptAdvanced, Function.update_self]
    exact h.room r hr t ht

theorem Turn.promptEnded (h : Queues e) (hr : r ∈ e.prefilling) {t : BlockTable}
    (ht : e.cache.manager.tables.lookup r = some t) {n : ℕ}
    (hend : (e.req r).prefillPos + n ≤ (e.req r).promptIds.length) : Turn e (e.promptEnded r t n) r := by
  obtain ⟨-, hout, -⟩ := h.prefilling r hr
  have hpn : e.prefilling.Nodup := (h.nodup.of_append_left.of_append_left).of_append_right
  refine .of_update rfl ⟨rfl, rfl, rfl, rfl, rfl, rfl, rfl⟩ (Nat.le_add_right _ _) ?_
    (fun r' hne => ⟨Iff.rfl, List.mem_erase_of_ne hne⟩) (fun r' hr' => List.mem_append_left _ hr')
    ⟨rfl, rfl, rfl, rfl, rfl, rfl⟩ fun hc => ?_
  · refine List.Perm.append_right _ ?_
    rw [List.append_assoc, ContinuousBatchingEngine.promptEnded, List.append_assoc]
    exact (perm_admitted hr).append_left _
  · refine hc.of_tenure (r := r) (hc.toTenure.promptEnded h hr ht hend) rfl (fun r' hne =>
      ⟨Function.update_of_ne hne _ _, Or.imp_left List.mem_of_mem_erase, fun hr' => ?_⟩) (fun _ => ?_)
      (Or.inl hr) ?_
    · exact (List.mem_append.1 hr').resolve_right (by simp [hne])
    · simp only [ContinuousBatchingEngine.promptEnded, Function.update_self, hout, List.length_nil]
      omega
    · simp only [ContinuousBatchingEngine.promptEnded, Function.update_self]

theorem Turn.promptAdvanced (h : Queues e) (hr : r ∈ e.prefilling) {t : BlockTable}
    (ht : e.cache.manager.tables.lookup r = some t) {n : ℕ}
    (hend : (e.req r).prefillPos + n ≤ (e.req r).promptIds.length) : Turn e (e.promptAdvanced r t n) r := by
  obtain ⟨-, hnr, -⟩ := not_mem_of_prefilling h.nodup hr
  refine .of_update (q := { e.req r with prefillPos := (e.req r).prefillPos + n }) rfl
    ⟨rfl, rfl, rfl, rfl, rfl, rfl, rfl⟩ (Nat.le_add_right _ _) (.refl _) (fun _ _ => ⟨Iff.rfl, Iff.rfl⟩)
    (fun _ h => h) ⟨rfl, rfl, rfl, rfl, rfl, rfl⟩ fun hc => ?_
  exact hc.of_tenure (r := r) (hc.toTenure.promptAdvanced hr ht hend) rfl
    (fun r' hne => ⟨Function.update_of_ne hne _ _, fun hr' => hr', fun hr' => hr'⟩)
    (fun hm => absurd hm hnr) (Or.inl hr) (by simp [ContinuousBatchingEngine.promptAdvanced])

/-- **The next chunk of a prompt in any state.**  It raises and changes nothing, as it does where
nothing is left of the prompt, or takes some of it. -/
theorem prefillChunk_any (h : Queues e) (b : Batch) (hr : r ∈ e.prefilling) :
    (∃ x, e.prefillChunk b r = (.error x, e, b)) ∨
    ∃ e' b' s, e.prefillChunk b r = (.ok (), e', b') ∧ Turn e e' r ∧ Queues e' ∧
      e'.cache.manager.freeList = e.cache.manager.freeList ∧ s.req = r ∧
      s.len = min (min ((e.req r).promptIds.length - (e.req r).prefillPos) e.chunkSize) b.budget ∧
      s.sampled = decide (s.len = (e.req r).promptIds.length - (e.req r).prefillPos) ∧
      1 ≤ s.len ∧ (∀ sl, Parallel b sl → Parallel b' (sl ++ [s])) ∧
      b'.sampled = b.sampled ++ [s.sampled] ∧ b'.budget + s.len = b.budget ∧
      e'.running = e.running ++ (if s.sampled then [r] else []) ∧
      e'.numPrefillTokens = e.numPrefillTokens + s.len ∧
      (e'.req r).prefillPos = (e.req r).prefillPos + s.len := by
  obtain ⟨hstate, hout, -⟩ := h.prefilling r hr
  have hnw : r ∉ e.waiting := (not_mem_of_prefilling h.nodup hr).1
  set q := e.req r with hq
  set n := min (min (q.promptIds.length - q.prefillPos) e.chunkSize) b.budget with hn
  cases ht : e.cache.manager.tables.lookup r with
  | none =>
    refine Or.inl ⟨.KeyError, ?_⟩
    rw [prefillChunk, BlockManager.blockTable, ht]
  | some t =>
    have htable : e.cache.manager.blockTable r = .ok t := by rw [BlockManager.blockTable, ht]
    cases hslots : e.cache.slotsForList t.blockIds (List.range' q.prefillPos n) with
    | error x =>
      refine Or.inl ⟨x, ?_⟩
      rw [prefillChunk, htable]
      simp only [← hq, ← hn, hslots]
    | ok slots =>
      have hlen : 1 ≤ n := by
        by_contra h0
        rw [show n = 0 by omega] at hslots
        cases hslots
      have hend : q.prefillPos + n ≤ q.promptIds.length := by omega
      have hbud : b.budget - n + n = b.budget := by omega
      right
      by_cases hfin : n = q.promptIds.length - q.prefillPos
      · -- the chunk ends the prompt
        have hturn := Turn.promptEnded h hr ht hend
        have hpn : e.prefilling.Nodup := (h.nodup.of_append_left.of_append_left).of_append_right
        have hremove : remove e.prefilling r = .ok (e.prefilling.erase r) := if_pos hr
        refine ⟨e.promptEnded r t n, { chunked b r q.promptIds t.blockIds e.cache.blockSize q.prefillPos n
            true with writeSlots := b.writeSlots ++ slots }, ⟨r, t.blockIds, q.prefillPos, n, true⟩, ?_,
          hturn, ?_, rfl, rfl, rfl, (decide_eq_true hfin).symm, hlen,
          fun sl hsl => parallel_chunked hsl hend _ _ _ _ _, rfl, hbud, rfl, rfl,
          by simp only [promptEnded, Function.update_self]; rfl⟩
        · rw [prefillChunk, htable]
          simp only [← hq, ← hn, hslots]
          rw [if_pos (by omega)]
          simp only [setReq, setManager, hremove]
          rfl
        · exact h.turn hturn (fun hm => absurd hm hnw) fun hm => absurd hm hpn.not_mem_erase
      · -- more of the prompt is left
        have hturn := Turn.promptAdvanced h hr ht hend
        refine ⟨e.promptAdvanced r t n, { chunked b r q.promptIds t.blockIds e.cache.blockSize q.prefillPos
            n false with writeSlots := b.writeSlots ++ slots }, ⟨r, t.blockIds, q.prefillPos, n, false⟩, ?_,
          hturn, ?_, rfl, rfl, rfl, (decide_eq_false hfin).symm, hlen,
          fun sl hsl => parallel_chunked hsl hend _ _ _ _ _, rfl, hbud, (List.append_nil _).symm, rfl,
          by simp only [promptAdvanced, Function.update_self]; rfl⟩
        · rw [prefillChunk, htable]
          simp only [← hq, ← hn, hslots]
          rw [if_neg (by omega)]
          simp only [chunked, Bool.false_eq_true, if_false, List.append_nil]
          rfl
        · refine h.turn hturn (fun hm => absurd hm hnw) fun _ => ?_
          rw [show (e.promptAdvanced r t n).req r = { q with prefillPos := q.prefillPos + n } from
            Function.update_self _ _ _]
          refine ⟨hstate, hout, Or.inr ?_⟩
          show q.prefillPos + n < q.promptIds.length
          omega

/-- **The turn of a request of the queue in any state.**  The loop ends there, or the request
gets a slice and the loop goes on. -/
theorem prefill_turn (h : Queues e) (b : Batch) (hr : r ∈ e.prefilling ∨ r ∈ e.waiting)
    (hb : 1 ≤ b.budget) (rs : List ℕ) :
    (∃ res e' l, e.prefillLoop b (r :: rs) = (res, e', { b with imports := b.imports ++ l }) ∧
      Turn e e' r ∧ Queues e' ∧ e'.running = e.running ∧
      e'.numPrefillTokens = e.numPrefillTokens ∧
      (res = .ok () → e' = e ∧ e.cache.manager.freeList.length < e.blocksToAdmit (e.req r))) ∨
    ∃ e' b' s, e.prefillLoop b (r :: rs) = e'.prefillLoop b' rs ∧ Turn e e' r ∧ Queues e' ∧
      s.req = r ∧ Chunk e e' b b' s ∧
      e.cache.manager.freeList.length =
        e'.cache.manager.freeList.length + e.blocksToAdmit (e.req r) := by
  obtain ⟨res, e₁, l, hadm, hturn, hnum, hrun, hq, hfew, hgo⟩ := admitRequest_any h b hr
  have hb : ¬b.budget < 1 := by omega
  cases res with
  | error x =>
    refine Or.inl ⟨.error x, e₁, l, ?_, hturn, hq, hrun, hnum, by simp⟩
    rw [prefillLoop, if_neg hb, hadm]
  | ok go =>
    cases go with
    | false =>
      refine Or.inl ⟨.ok (), e₁, l, ?_, hturn, hq, hrun, hnum, fun _ => hfew rfl⟩
      rw [prefillLoop, if_neg hb, hadm]
    | true =>
      obtain ⟨hp, hres, hfree⟩ := hgo rfl
      rcases prefillChunk_any hq { b with imports := b.imports ++ l } hp with ⟨x, herr⟩ |
        ⟨e', b', s, heq, hturn', hq', hfree', hreq, hlen, hsam, hone, hpar, hflag, hbud, hrun', hnum', hpos'⟩
      · refine Or.inl ⟨.error x, e₁, l, ?_, hturn, hq, hrun, hnum, by simp⟩
        rw [prefillLoop, if_neg hb, hadm]
        simp only [herr]
      · refine Or.inr ⟨e', b', s, ?_, hturn.trans hturn', hq', hreq, ?_, ?_⟩
        · rw [prefillLoop, if_neg hb, hadm]
          simp only [heq]
        · have hprompt : (e₁.req r).promptIds = (e.req r).promptIds := (hturn.text r).promptIds
          rw [hprompt, hres] at hlen hsam
          rw [hturn.chunkSize] at hlen
          subst hreq
          exact ⟨hlen, hsam, hone, fun sl hsl => hpar sl ⟨hsl.batch, hsl.widths, hsl.tokenIds, hsl.cursor,
            hsl.lastIdx⟩, hflag, hbud, hrun ▸ hrun', hnum ▸ hnum', hres ▸ hpos'⟩
        · rw [hfree, hfree']

/-- Where the prefills stand when phase 2 did not raise: at the ends of the slices, and for the
requests without a slice where they stood. -/
structure Resumes (e e' : ContinuousBatchingEngine D R G) (new : List Slice) : Prop where
  ended : ∀ s ∈ new, s.sampled =
    decide (s.len = (e.req s.req).promptIds.length - resumeAt (e.req s.req))
  prefillPos : ∀ s ∈ new, (e'.req s.req).prefillPos = resumeAt (e.req s.req) + s.len
  rest : ∀ r, r ∉ new.map Slice.req → e'.req r = e.req r ∧ (r ∈ e'.waiting ↔ r ∈ e.waiting) ∧
    (r ∈ e'.prefilling ↔ r ∈ e.prefilling)

theorem Resumes.nil (e : ContinuousBatchingEngine D R G) : Resumes e e [] :=
  ⟨by simp, by simp, fun _ _ => ⟨rfl, Iff.rfl, Iff.rfl⟩⟩

/-- A slice before others, of requests other than its own. -/
theorem Resumes.cons {e₁ e' : ContinuousBatchingEngine D R G} {b b₁ : Batch} {s : Slice} {new : List Slice}
    (hturn : Turn e e₁ s.req) (hchunk : Chunk e e₁ b b₁ s) (h : Resumes e₁ e' new)
    (hne : ∀ s' ∈ new, s'.req ≠ s.req) : Resumes e e' (s :: new) := by
  have hnot : s.req ∉ new.map Slice.req := fun hm => by
    obtain ⟨s', hs', heq⟩ := List.mem_map.1 hm
    exact hne s' hs' heq
  refine ⟨fun s' hs' => ?_, fun s' hs' => ?_, fun r' hr' => ?_⟩
  · rcases List.mem_cons.1 hs' with rfl | hs'
    · exact hchunk.sampled
    · rw [← (hturn.others s'.req (hne s' hs')).1]
      exact h.ended s' hs'
  · rcases List.mem_cons.1 hs' with rfl | hs'
    · rw [(h.rest _ hnot).1]
      exact hchunk.prefillPos
    · rw [← (hturn.others s'.req (hne s' hs')).1]
      exact h.prefillPos s' hs'
  · rw [List.map_cons, List.mem_cons, not_or] at hr'
    obtain ⟨h₁, h₂, h₃⟩ := hturn.others r' hr'.1
    obtain ⟨h₁', h₂', h₃'⟩ := h.rest r' hr'.2
    exact ⟨h₁'.trans h₁, h₂'.trans h₂, h₃'.trans h₃⟩

/-- **Phase 2 in any state.**  However it ends, it has given slices to the first requests of the
queue; those whose prompt a slice ends run, and are sampled from. -/
structure Takes (e : ContinuousBatchingEngine D R G) (b : Batch) (rs : List ℕ) (res : Except Exc Unit)
    (e' : ContinuousBatchingEngine D R G) (b' : Batch) (new : List Slice) : Prop where
  moves : Moves e e'
  queues : Queues e'
  numDecodeTokens : e'.numDecodeTokens = e.numDecodeTokens
  custody {n : ℕ} : Custody n e → Custody n e'
  parallel : ∀ sl, Parallel b sl → Parallel b' (sl ++ new)
  flags : b'.sampled = b.sampled ++ new.map Slice.sampled
  reqs : new.map Slice.req <+: rs
  len_le : ∀ s ∈ new, s.len ≤ (e.req s.req).promptIds.length
  positive : ∀ s ∈ new, 1 ≤ s.len
  prefillPos : ∀ s ∈ new, resumeAt (e.req s.req) + s.len ≤ (e'.req s.req).prefillPos
  running : e'.running = e.running ++ (new.filter fun s => s.sampled).map Slice.req
  numPrefillTokens : e'.numPrefillTokens = e.numPrefillTokens + total new
  finishing : res = .ok () → (new.filter fun s => s.sampled).map Slice.req =
    e.finishing b.budget e.cache.manager.freeList.length rs
  stuck : res = .ok () → new = [] → 1 ≤ b.budget → ∀ r ∈ rs.head?,
    e.cache.manager.freeList.length < e.blocksToAdmit (e.req r)
  resumes : res = .ok () → Resumes e e' new

/-- Phase 2 where nothing more is taken. -/
theorem Takes.stop {res : Except Exc Unit} {e' : ContinuousBatchingEngine D R G} {rs : List ℕ}
    (l : List (ℕ × ℕ × ℕ)) (hturn : Turn e e' r) (hq : Queues e') (hrun : e'.running = e.running)
    (hnum : e'.numPrefillTokens = e.numPrefillTokens)
    (hfin : res = .ok () → e.finishing b.budget e.cache.manager.freeList.length rs = [])
    (hstuck : res = .ok () → 1 ≤ b.budget → ∀ r ∈ rs.head?,
      e.cache.manager.freeList.length < e.blocksToAdmit (e.req r)) (hsame : res = .ok () → e' = e) :
    Takes e b rs res e' { b with imports := b.imports ++ l } [] := by
  refine ⟨hturn.toMoves, hq, hturn.numDecodeTokens, hturn.custody, fun sl hsl => ?_,
    (List.append_nil _).symm, List.nil_prefix, by simp, by simp, by simp,
    hrun.trans (List.append_nil _).symm, hnum, fun hres => (hfin hres).symm,
    fun hres _ => hstuck hres, fun hres => hsame hres ▸ .nil e⟩
  rw [List.append_nil]
  exact ⟨hsl.batch, hsl.widths, hsl.tokenIds, hsl.cursor, hsl.lastIdx⟩

/-- **The rule of phase 2**: what admitting a request and taking a chunk keep, raising or not, its loop keeps. -/
theorem prefillLoop_keeps {P : ContinuousBatchingEngine D R G → Batch → Prop}
    (hadm : ∀ e b r, P e b → P (e.admitRequest b r).2.1 (e.admitRequest b r).2.2)
    (hchunk : ∀ e b r, P e b → P (e.prefillChunk b r).2.1 (e.prefillChunk b r).2.2) (rs : List ℕ)
    (h : P e b) : P (e.prefillLoop b rs).2.1 (e.prefillLoop b rs).2.2 := by
  induction rs generalizing e b with
  | nil => exact h
  | cons r rs ih =>
    rw [prefillLoop]
    split
    · exact h
    · have h₁ := hadm e b r h
      split
      next heq =>
        rw [heq] at h₁
        exact h₁
      next heq =>
        rw [heq] at h₁
        exact h₁
      next e₁ b₁ heq =>
        rw [heq] at h₁
        have h₂ := hchunk e₁ b₁ r h₁
        split
        next heq' =>
          rw [heq'] at h₂
          exact h₂
        next heq' =>
          rw [heq'] at h₂
          exact ih h₂

theorem prefillLoop_any (rs : List ℕ) {e : ContinuousBatchingEngine D R G} (h : Queues e) (b : Batch)
    (hn : rs.Nodup) (hrs : ∀ r ∈ rs, r ∈ e.prefilling ∨ r ∈ e.waiting) :
    ∃ res e' b' new, e.prefillLoop b rs = (res, e', b') ∧ Takes e b rs res e' b' new := by
  induction rs generalizing e b with
  | nil =>
    refine ⟨.ok (), e, { b with imports := b.imports ++ [] }, [], ?_, .stop [] (.refl e 0) h rfl rfl
      (fun _ => rfl) (by simp) fun _ => rfl⟩
    rw [List.append_nil]
    rfl
  | cons r rs ih =>
    rcases Nat.eq_zero_or_pos b.budget with h0 | hpos
    · refine ⟨.ok (), e, { b with imports := b.imports ++ [] }, [], ?_, .stop [] (.refl e r) h rfl rfl
        (fun _ => ?_) (fun _ hb => absurd hb (by omega)) fun _ => rfl⟩
      · rw [prefillLoop, if_pos (by omega), List.append_nil]
      · rw [ContinuousBatchingEngine.finishing, if_pos (Or.inl (by omega))]
    rw [List.nodup_cons] at hn
    have hne : ∀ r' ∈ rs, r' ≠ r := by
      rintro r' hr' rfl
      exact hn.1 hr'
    rcases prefill_turn h b (hrs r List.mem_cons_self) hpos rs with
      ⟨res, e', l, heq, hturn, hq, hrun, hnum, hfew⟩ | ⟨e₁, b₁, s, heq, hturn, hq, hreq, hchunk, hfree⟩
    · refine ⟨res, e', _, [], heq, .stop l hturn hq hrun hnum (fun hres => ?_)
        (fun hres _ r' hr' => ?_) fun hres => (hfew hres).1⟩
      · rw [ContinuousBatchingEngine.finishing, if_pos (Or.inr (hfew hres).2)]
      · obtain rfl := Option.some.inj hr'
        exact (hfew hres).2
    have hnext : ∀ r' ∈ rs, r' ∈ e₁.prefilling ∨ r' ∈ e₁.waiting := fun r' hr' => by
      obtain ⟨-, hw, hp⟩ := hturn.others r' (hne r' hr')
      rw [hw, hp]
      exact hrs r' (List.mem_cons_of_mem _ hr')
    obtain ⟨res, e', b', new, heq', hrest⟩ := ih hq b₁ hn.2 hnext
    have hmem : ∀ s' ∈ new, s'.req ∈ rs := fun s' hs' => hrest.reqs.subset (List.mem_map_of_mem hs')
    refine ⟨res, e', b', s :: new, heq.trans heq', hturn.toMoves.trans hrest.moves, hrest.queues,
      hrest.numDecodeTokens.trans hturn.numDecodeTokens, fun hc => hrest.custody (hturn.custody hc),
      fun sl hsl => ?_, ?_, ?_, fun s' hs' => ?_,
      fun s' hs' => ?_, fun s' hs' => ?_, ?_, ?_, fun hres => ?_, fun _ hnil => absurd hnil (by simp),
      fun hres => .cons (hreq ▸ hturn) hchunk (hrest.resumes hres) fun s' hs' =>
        hreq ▸ hne _ (hmem s' hs')⟩
    · rw [List.append_cons]
      exact hrest.parallel _ (hchunk.parallel sl hsl)
    · rw [hrest.flags, hchunk.flags, List.append_assoc]
      rfl
    · rw [List.map_cons, hreq]
      exact (List.prefix_cons_inj r).2 hrest.reqs
    · rcases List.mem_cons.1 hs' with rfl | hs'
      · have := hchunk.len
        omega
      · rw [← (hturn.others s'.req (hne _ (hmem s' hs'))).1]
        exact hrest.len_le s' hs'
    · rcases List.mem_cons.1 hs' with rfl | hs'
      · exact hchunk.positive
      · exact hrest.positive s' hs'
    · rcases List.mem_cons.1 hs' with rfl | hs'
      · exact hchunk.prefillPos ▸ hrest.moves.prefillPos _
      · rw [← (hturn.others s'.req (hne _ (hmem s' hs'))).1]
        exact hrest.prefillPos s' hs'
    · rw [hrest.running, hchunk.running, List.append_assoc]
      refine congrArg _ ?_
      rw [List.filter_cons]
      split <;> rfl
    · rw [hrest.numPrefillTokens, hchunk.numPrefillTokens, Nat.add_assoc]
      rfl
    · have hlen := hchunk.len
      have hsam := hchunk.sampled
      have hbud := hchunk.budget
      rw [hreq] at hlen hsam
      have hsub : e.cache.manager.freeList.length - e.blocksToAdmit (e.req r) =
          e₁.cache.manager.freeList.length := by omega
      have hbud' : b.budget - s.len = b₁.budget := by omega
      rw [ContinuousBatchingEngine.finishing, if_neg (by omega), ← hlen, hsub, hbud',
        ← finishing_congr (fun r' hr' => (hturn.others r' (hne r' hr')).1) hturn.chunkSize hturn.blockSize,
        ← hrest.finishing hres, List.filter_cons, hsam]
      split
      next heq => rw [if_pos (of_decide_eq_true heq), List.map_cons, hreq]; rfl
      next heq => rw [if_neg fun hm => heq (decide_eq_true hm), List.nil_append]

/-- **Phases 1 and 2 in any state**: `dec` are the slices of the running requests, `new` those
of the queue. -/
structure Schedules (e : ContinuousBatchingEngine D R G) (res : Except Exc Unit)
    (e' : ContinuousBatchingEngine D R G) (b : Batch) (dec new : List Slice) : Prop where
  moves : Moves e e'
  queues : Queues e'
  custody {n : ℕ} : Custody n e → Custody n e'
  parallel : Parallel b (dec ++ new)
  decodes : dec.map Slice.req <+: e.running
  one : ∀ s ∈ dec, s.len = 1 ∧ s.sampled = true
  takes : ∀ s ∈ new, s.req ∈ e.prefilling ∨ s.req ∈ e.waiting
  nodup : ((dec ++ new).map Slice.req).Nodup
  len_le : ∀ s ∈ new, s.len ≤ (e.req s.req).promptIds.length
  positive : ∀ s ∈ new, 1 ≤ s.len
  prefillPos : ∀ s ∈ new, resumeAt (e.req s.req) + s.len ≤ (e'.req s.req).prefillPos
  running : e'.running = e.running ++ (new.filter fun s => s.sampled).map Slice.req
  numDecodeTokens : e'.numDecodeTokens = e.numDecodeTokens + dec.length
  numPrefillTokens : e'.numPrefillTokens = e.numPrefillTokens + total new
  flags : res = .ok () → b.sampled = (dec ++ new).map Slice.sampled
  toSample : res = .ok () → ((dec ++ new).filter fun s => s.sampled).map Slice.req = e.toSample
  idle : res = .ok () → dec = [] → new = [] → 1 ≤ e.maxBatchTokens → e.running = [] ∧
    ∀ r ∈ (e.prefilling ++ e.waiting.insertionSort e.admissionOrder).head?,
      e.cache.manager.freeList.length < e.blocksToAdmit (e.req r)
  resumes : res = .ok () → Resumes e e' new

/-- **Between the phases**: what phase 1 leaves, with the queue in the order of admission. -/
structure Between (e e₂ : ContinuousBatchingEngine D R G) (b₂ : Batch) (dec : List Slice) : Prop where
  moves : Moves e e₂
  queues : Queues e₂
  custody {n : ℕ} : Custody n e → Custody n e₂
  req : e₂.req = e.req
  running : e₂.running = e.running
  prefilling : e₂.prefilling = e.prefilling
  waiting : e₂.waiting = e.waiting.insertionSort e.admissionOrder
  parallel : Parallel b₂ dec
  flags : b₂.sampled = dec.map Slice.sampled
  reqs : dec.map Slice.req = e.decoding
  one : ∀ s ∈ dec, s.len = 1 ∧ s.sampled = true
  numDecodeTokens : e₂.numDecodeTokens = e.numDecodeTokens + dec.length
  numPrefillTokens : e₂.numPrefillTokens = e.numPrefillTokens
  budget : b₂.budget + dec.length = e.maxBatchTokens
  freeList : e.cache.manager.freeList.length =
    e₂.cache.manager.freeList.length + e.decoding.countP e.onBoundary

section

variable {e₁ e₂ e' : ContinuousBatchingEngine D R G} {b₁ b₂ b' : Batch} {dec new : List Slice}
  {rs : List ℕ} {res : Except Exc Unit}

/-- Phase 1 moves nothing. -/
theorem Decodes.moves (hdec : Decodes e b rs res e₁ b₁ dec) : Moves e e₁ := by
  obtain ⟨m, hframe⟩ := hdec.frame
  have hbs := hdec.blockSize
  rw [hframe] at hbs ⊢
  exact ⟨fun _ => .refl _, fun _ => le_rfl, .refl _, fun _ h => h, rfl, rfl, rfl, rfl, hbs⟩

theorem Decodes.queues (hdec : Decodes e b rs res e₁ b₁ dec) (h : Queues e) : Queues e₁ := by
  obtain ⟨m, hframe⟩ := hdec.frame
  rw [hframe]
  exact h.congr rfl (.refl _) rfl rfl rfl rfl rfl rfl

/-- Phase 1 alone, when it raised. -/
theorem Decodes.schedules {x : Exc} (hdec : Decodes e e.emptyBatch e.running (.error x) e₁ b₁ dec)
    (h : Queues e) : Schedules e (.error x) e₁ b₁ dec [] := by
  have hrun : e.running.Nodup := (h.nodup.of_append_left).of_append_right
  have hpar := hdec.parallel [] ⟨rfl, rfl, rfl, rfl, rfl⟩
  obtain ⟨m, hframe⟩ := hdec.frame
  refine ⟨hdec.moves, hdec.queues h, hdec.custody fun _ h => h, ?_, hdec.reqs, hdec.slices, by simp, ?_,
    by simp, by simp, by simp, ?_, by rw [hframe], ?_, by simp, by simp, by simp, by simp⟩
  · rwa [List.append_nil]
  · rw [List.append_nil]
    exact hrun.sublist hdec.reqs.sublist
  · rw [hframe]
    exact (List.append_nil _).symm
  · rw [hframe]
    rfl

theorem Decodes.between (hdec : Decodes e e.emptyBatch e.running (.ok ()) e₁ b₁ dec) (h : Queues e) :
    Between e { e₁ with waiting := e₁.waiting.insertionSort e₁.admissionOrder }
      { b₁ with sampled := List.replicate b₁.batch.length true } dec := by
  have hrun : e.running.Nodup := (h.nodup.of_append_left).of_append_right
  obtain ⟨hreqs, hfree⟩ := hdec.ok rfl
  have hpar := hdec.parallel [] ⟨rfl, rfl, rfl, rfl, rfl⟩
  rw [List.nil_append] at hpar
  have hperm : (e₁.waiting.insertionSort e₁.admissionOrder).Perm e₁.waiting := List.perm_insertionSort _ _
  obtain ⟨m, hframe⟩ := hdec.frame
  refine ⟨hdec.moves.trans ⟨fun _ => .refl _, fun _ => le_rfl,
      ((hperm.append_right _).append_right _).append_right _, fun _ h => h, rfl, rfl, rfl, rfl, rfl⟩,
    (hdec.queues h).congr rfl hperm rfl rfl rfl rfl rfl rfl, fun hc => ?_, by rw [hframe]; rfl,
    by rw [hframe]; rfl, by rw [hframe]; rfl, ?_,
    ⟨hpar.batch, hpar.widths, hpar.tokenIds, hpar.cursor, hpar.lastIdx⟩, ?_, hreqs, hdec.slices,
    by rw [hframe], by rw [hframe]; rfl, hdec.budget, hfree hrun⟩
  · have hc₁ := hdec.custody (fun _ h => h) hc
    exact ⟨hc₁.toTenure.congr rfl rfl rfl (fun r hr => hperm.mem_iff.1 hr) rfl rfl, hc₁.live,
      fun r hr => hc₁.prompts r (hr.imp_right hperm.mem_iff.1)⟩
  · rw [hframe]
    exact admissionQueue_congr rfl _
  · rw [hpar.batch, List.length_map]
    refine List.ext_getElem (by simp) fun i h₁ h₂ => ?_
    rw [List.getElem_replicate, List.getElem_map, (hdec.slices _ (List.getElem_mem _)).2]

/-- The requests sampled from are known before the step. -/
theorem Between.toSample (hbt : Between e e₂ b₂ dec) (hnew : (new.filter fun s => s.sampled).map Slice.req =
    e₂.finishing b₂.budget e₂.cache.manager.freeList.length (e₂.prefilling ++ e₂.waiting)) :
    ((dec ++ new).filter fun s => s.sampled).map Slice.req = e.toSample := by
  have hall : dec.filter (fun s => s.sampled) = dec := List.filter_eq_self.2 fun s hs => (hbt.one s hs).2
  have hlen : dec.length = min e.maxBatchTokens e.running.length := by
    rw [← List.length_map Slice.req, hbt.reqs]
    exact List.length_take
  have hbud : b₂.budget = e.maxBatchTokens - e.running.length := by
    have := hbt.budget
    omega
  have hleft : e₂.cache.manager.freeList.length =
      e.cache.manager.freeList.length - e.decoding.countP e.onBoundary := by
    rw [hbt.freeList, Nat.add_sub_cancel]
  rw [List.filter_append, List.map_append, hall, hbt.reqs, hnew, ContinuousBatchingEngine.toSample, hleft,
    hbud, hbt.prefilling, hbt.waiting]
  exact congrArg _
    (finishing_congr (fun r _ => by rw [hbt.req]) hbt.moves.chunkSize hbt.moves.blockSize _ _)

/-- With nothing decoded nothing runs, and what phase 2 lacks is lacking before the step. -/
theorem Between.idle (hbt : Between e e₂ b₂ dec) (hnil : dec = []) (hmax : 1 ≤ e.maxBatchTokens)
    (hstuck : 1 ≤ b₂.budget → ∀ r ∈ (e₂.prefilling ++ e₂.waiting).head?,
      e₂.cache.manager.freeList.length < e₂.blocksToAdmit (e₂.req r)) :
    e.running = [] ∧ ∀ r ∈ (e.prefilling ++ e.waiting.insertionSort e.admissionOrder).head?,
      e.cache.manager.freeList.length < e.blocksToAdmit (e.req r) := by
  have hrun : e.running = [] := by
    have := congrArg List.length hbt.reqs
    rw [hnil, decoding, List.map_nil, List.length_nil, List.length_take] at this
    exact List.length_eq_zero_iff.1 (by omega)
  refine ⟨hrun, fun r hr => ?_⟩
  have hbud : 1 ≤ b₂.budget := by
    have := hbt.budget
    rw [hnil, List.length_nil] at this
    omega
  have hfree := hbt.freeList
  rw [decoding, hrun, List.take_nil, List.countP_nil, Nat.add_zero] at hfree
  have hneed : e₂.blocksToAdmit (e₂.req r) = e.blocksToAdmit (e.req r) := by
    unfold blocksToAdmit
    rw [hbt.req, BlockManager.blocksNeeded_congr hbt.moves.blockSize]
  rw [hbt.prefilling, hbt.waiting] at hstuck
  rw [hfree, ← hneed]
  exact hstuck hbud r hr

/-- **Both phases**, when phase 1 did not raise. -/
theorem Between.schedules (hbt : Between e e₂ b₂ dec) (h : Queues e)
    (hnew : Takes e₂ b₂ (e₂.prefilling ++ e₂.waiting) res e' b' new) : Schedules e res e' b' dec new := by
  have hwait : ∀ r, r ∈ e₂.waiting ↔ r ∈ e.waiting := fun r => by
    rw [hbt.waiting]
    exact (List.perm_insertionSort _ _).mem_iff
  have hmem : ∀ s ∈ new, s.req ∈ e.prefilling ∨ s.req ∈ e.waiting := fun s hs => by
    have := List.mem_append.1 (hnew.reqs.subset (List.mem_map_of_mem hs))
    rwa [hbt.prefilling, hwait] at this
  have hdec : dec.map Slice.req <+: e.running := hbt.reqs ▸ List.take_prefix _ _
  have hdn : (dec.map Slice.req).Nodup := (h.nodup.of_append_left).of_append_right.sublist hdec.sublist
  have hnn : (new.map Slice.req).Nodup := by
    refine List.Nodup.sublist hnew.reqs.sublist (List.nodup_append_comm.1 ?_)
    exact hbt.queues.nodup.of_append_left.of_append_left
  refine ⟨hbt.moves.trans hnew.moves, hnew.queues, fun hc => hnew.custody (hbt.custody hc),
    hnew.parallel _ hbt.parallel, hdec, hbt.one, hmem, ?_, fun s hs => ?_, hnew.positive, fun s hs => ?_,
    ?_, ?_, ?_, fun _ => ?_, fun hres => hbt.toSample (hnew.finishing hres),
    fun hres hnil hnil' hmax => hbt.idle hnil hmax (hnew.stuck hres hnil'), fun hres => ?_⟩
  · rw [List.map_append, List.nodup_append]
    refine ⟨hdn, hnn, fun x hx y hy hxy => ?_⟩
    obtain ⟨hnw, hnp, -⟩ := not_mem_of_running h.nodup (hdec.subset hx)
    obtain ⟨s, hs, rfl⟩ := List.mem_map.1 hy
    exact (hmem s hs).elim (fun hm => hnp (hxy ▸ hm)) fun hm => hnw (hxy ▸ hm)
  · rw [← hbt.req]
    exact hnew.len_le s hs
  · rw [← hbt.req]
    exact hnew.prefillPos s hs
  · rw [hnew.running, hbt.running]
  · rw [hnew.numDecodeTokens, hbt.numDecodeTokens]
  · rw [hnew.numPrefillTokens, hbt.numPrefillTokens]
  · rw [hnew.flags, hbt.flags, List.map_append]
  · obtain ⟨hended, hpos, hrest⟩ := hnew.resumes hres
    rw [hbt.req] at hended hpos hrest
    refine ⟨hended, hpos, fun r hr => ?_⟩
    obtain ⟨hreq, hw, hp⟩ := hrest r hr
    exact ⟨hreq, hw.trans (hwait r), hbt.prefilling ▸ hp⟩

/-- Phase 2 goes over its queue once. -/
theorem Between.turns (hbt : Between e e₂ b₂ dec) : (e₂.prefilling ++ e₂.waiting).Nodup :=
  List.nodup_append_comm.1 hbt.queues.nodup.of_append_left.of_append_left

end

/-- **The two phases of `schedule` in any state**: it ends in phase 1, or between the phases phase 2
goes on. -/
theorem schedule_phases (h : Queues e) :
    (∃ x e₁ b dec, e.schedule = (.error x, e₁, b) ∧
      Decodes e e.emptyBatch e.running (.error x) e₁ b dec) ∨
    ∃ res e₂ b₂ e' b' dec new, e.schedule = (res, e', b') ∧ Between e e₂ b₂ dec ∧
      e₂.prefillLoop b₂ (e₂.prefilling ++ e₂.waiting) = (res, e', b') ∧
      Takes e₂ b₂ (e₂.prefilling ++ e₂.waiting) res e' b' new := by
  obtain ⟨res, e₁, b₁, dec, heq, hdec⟩ := decodeLoop_any e.running e e.emptyBatch
  cases res with
  | error x => exact Or.inl ⟨x, e₁, b₁, dec, by rw [schedule, heq], hdec⟩
  | ok =>
    have hbt := hdec.between h
    set e₂ : ContinuousBatchingEngine D R G :=
      { e₁ with waiting := e₁.waiting.insertionSort e₁.admissionOrder }
    set b₂ : Batch := { b₁ with sampled := List.replicate b₁.batch.length true }
    obtain ⟨res, e', b', new, heq', hnew⟩ := prefillLoop_any (e₂.prefilling ++ e₂.waiting) hbt.queues b₂
      hbt.turns fun r hr => List.mem_append.1 hr
    refine Or.inr ⟨res, e₂, b₂, e', b', dec, new, ?_, hbt, heq', hnew⟩
    rw [schedule, heq]
    exact heq'

theorem schedule_any (h : Queues e) :
    ∃ res e' b dec new, e.schedule = (res, e', b) ∧ Schedules e res e' b dec new := by
  rcases schedule_phases h with ⟨x, e₁, b, dec, heq, hdec⟩ |
    ⟨res, e₂, b₂, e', b', dec, new, heq, hbt, -, hnew⟩
  · exact ⟨.error x, e₁, b, dec, [], heq, hdec.schedules h⟩
  · exact ⟨res, e', b', dec, new, heq, hbt.schedules h hnew⟩

end ContinuousBatchingEngine
end DiSpec
