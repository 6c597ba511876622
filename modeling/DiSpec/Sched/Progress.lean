/-
# The scheduler cannot spin

`has_work` and `run_until_done` of `dispec/sched/scheduler.py`.

Progress rests on who holds the blocks (`Custody`): with nothing prefilling and
nothing running the whole pool is free, so the first waiting request is admitted;
otherwise somebody decodes or prefills.  Custody holds in every state that calls
lead to, those after an exception included, because phases 3 to 5 raise before they
touch a table or not at all.

`tokensLeft` is what a request may still be given.  A step that returns takes some
from one request and gives none back, so `run_until_done` ends by itself.
-/

import DiSpec.Sched.Outputs
import DiSpec.Sched.Sampled
import Mathlib.Algebra.Order.BigOperators.Group.List

namespace DiSpec

open Slice

/-! ### Phases 3 to 5 -/

theorem length_lastIdxs (off : ℕ) (sl : List Slice) :
    (lastIdxs off sl).length = (sl.filter fun s => s.sampled).length := by
  induction sl generalizing off with
  | nil => rfl
  | cons s sl ih =>
    rw [lastIdxs, List.filter_cons]
    split
    · rw [List.length_cons, List.length_cons, ih]
    · exact ih _

theorem length_indexRows {Y : Type} (hidden : List Y) (is : List ℤ) {rows : List Y}
    (h : indexRows hidden is = .ok rows) : rows.length = is.length := by
  induction is generalizing rows with
  | nil =>
    obtain rfl := Except.ok.inj h
    rfl
  | cons i is ih =>
    rw [indexRows] at h
    split at h
    next x xs hx hxs =>
      split at h
      · cases h
      · obtain rfl := Except.ok.inj h
        rw [List.length_cons, List.length_cons, ih hxs]
    · cases h

namespace ContinuousBatchingEngine

variable {X D R G : Type} {e e' : ContinuousBatchingEngine D R G} {r n : ℕ}

/-- **The loop over the drawn tokens**, when every request has a table, reaches them all, and calls finished
those that are done. -/
theorem appendOutputs_ok (drawn : List (ℕ × ℕ)) (e : ContinuousBatchingEngine D R G)
    (hn : (drawn.map Prod.fst).Nodup)
    (htab : ∀ r ∈ drawn.map Prod.fst, ∃ t, e.cache.manager.tables.lookup r = some t) :
    ∃ fin e', e.appendOutputs drawn = (.ok fin, e') ∧ Appends e drawn (.ok fin) e' drawn ∧
      ∀ r ∈ drawn.map Prod.fst, r ∈ fin ↔ (e'.req r).done = true := by
  obtain ⟨res, e', taken, heq, hap⟩ := appendOutputs_any drawn e
  suffices h : ∃ fin, res = .ok fin ∧ ∀ r ∈ drawn.map Prod.fst, r ∈ fin ↔ (e'.req r).done = true by
    obtain ⟨fin, rfl, hlive⟩ := h
    obtain ⟨rfl, -⟩ := hap.ok fin rfl
    exact ⟨fin, e', heq, hap, hlive⟩
  clear hap
  induction drawn generalizing e res e' with
  | nil =>
    obtain ⟨rfl, -⟩ := Prod.mk.inj heq
    exact ⟨[], rfl, by simp⟩
  | cons d drawn ih =>
    obtain ⟨r, tid⟩ := d
    rw [List.map_cons, List.nodup_cons] at hn
    rw [List.map_cons] at htab
    obtain ⟨t, ht⟩ := htab r List.mem_cons_self
    have htail : ∀ r' ∈ drawn.map Prod.fst, ∃ t, e.cache.manager.tables.lookup r' = some t := fun r' hr' =>
      htab r' (List.mem_cons_of_mem _ hr')
    rw [appendOutputs, BlockManager.blockTable, ht] at heq
    simp only at heq
    set q : Request D R := { e.req r with
      outputIds := (e.req r).outputIds ++ [tid], curLen := t.numTokens } with hq
    split at heq
    next hdone =>
      obtain ⟨res₁, e₁, taken, heq₁, hap⟩ :=
        appendOutputs_any drawn (e.setReq r { q with state := .FINISHED })
      rw [heq₁] at heq
      obtain ⟨fin, rfl, hiff⟩ := ih (e.setReq r _) hn.2 htail _ _ heq₁
      obtain ⟨rfl, rfl⟩ := Prod.mk.inj heq
      have hsame : e₁.req r = { q with state := .FINISHED } :=
        (hap.others r hn.1).trans (Function.update_self _ _ _)
      refine ⟨r :: fin, rfl, fun r' hr' => ?_⟩
      rw [List.map_cons, List.mem_cons] at hr'
      rcases eq_or_ne r' r with rfl | hne
      · rw [hsame]
        exact iff_of_true List.mem_cons_self hdone
      · rw [List.mem_cons, or_iff_right hne]
        exact hiff r' (hr'.resolve_left hne)
    next hdone =>
      obtain ⟨res₁, e₁, taken, heq₁, hap⟩ := appendOutputs_any drawn (e.setReq r q)
      obtain ⟨fin, rfl, hiff⟩ := ih (e.setReq r _) hn.2 htail _ _ heq
      obtain ⟨hok, rfl⟩ := Prod.mk.inj (heq₁.symm.trans heq)
      obtain ⟨-, hsub⟩ := hap.ok fin hok
      have hsame : e₁.req r = q := (hap.others r hn.1).trans (Function.update_self _ _ _)
      refine ⟨fin, rfl, fun r' hr' => ?_⟩
      rw [List.map_cons, List.mem_cons] at hr'
      rcases eq_or_ne r' r with rfl | hne
      · rw [hsame]
        exact iff_of_false (fun hm => hn.1 (hsub.subset hm)) hdone
      · exact hiff r' (hr'.resolve_left hne)

/-- **The loop over the finished requests**, when they run and the blocks are accounted for, frees
the table of each. -/
theorem retire_ok (fin : List ℕ) (e : ContinuousBatchingEngine D R G) (hacc : e.cache.manager.Accounted 0)
    (hrun : e.running.Nodup) (hn : fin.Nodup) (hfin : ∀ r ∈ fin, r ∈ e.running) :
    ∃ m running, e.retire fin = (.ok (), { e.setManager m with
        running := running
        finished := e.finished ++ fin }) ∧
      m.Accounted 0 ∧ m.numBlocks = e.cache.manager.numBlocks ∧ m.blockSize = e.cache.manager.blockSize ∧
      (∀ r, r ∈ running ↔ r ∈ e.running ∧ r ∉ fin) ∧
      ∀ r, m.tables.lookup r = if r ∈ fin then none else e.cache.manager.tables.lookup r := by
  induction fin generalizing e with
  | nil =>
    refine ⟨e.cache.manager, e.running, ?_, hacc, rfl, rfl, by simp, by simp⟩
    rw [List.append_nil]
    rfl
  | cons r rs ih =>
    rw [List.nodup_cons] at hn
    have hr := hfin r List.mem_cons_self
    obtain ⟨m, hfree, htouch, -, hgone, hacc'⟩ := BlockManager.free_spec hacc r
    obtain ⟨m', running, heq, hacc₂, hnb, hbs, hmem, hlook⟩ := ih { e.setManager m with
        running := e.running.erase r, finished := e.finished ++ [r] } hacc' (hrun.erase r) hn.2
      fun r' hr' => (List.mem_erase_of_ne (by rintro rfl; exact hn.1 hr')).2
        (hfin r' (List.mem_cons_of_mem _ hr'))
    refine ⟨m', running, ?_, hacc₂, hnb.trans htouch.numBlocks, hbs.trans htouch.blockSize, fun r' => ?_,
      fun r' => ?_⟩
    · rw [retire, show remove e.running r = .ok (e.running.erase r) from if_pos hr]
      simp only [hfree]
      refine heq.trans ?_
      rw [List.append_assoc]
      rfl
    · rw [hmem r', hrun.mem_erase_iff, List.mem_cons, not_or]
      constructor
      · rintro ⟨⟨hne, hin⟩, hnot⟩
        exact ⟨hin, hne, hnot⟩
      · rintro ⟨hin, hne, hnot⟩
        exact ⟨⟨hne, hin⟩, hnot⟩
    · rw [hlook r']
      by_cases hm : r' ∈ rs
      · rw [if_pos hm, if_pos (List.mem_cons_of_mem _ hm)]
      · rw [if_neg hm]
        rcases eq_or_ne r' r with rfl | hne
        · rw [if_pos List.mem_cons_self]
          exact hgone
        · rw [if_neg (by simp [hne, hm])]
          exact htouch.others r' hne

/-- A request drawn for once gets one token. -/
theorem length_drawnFor {drawn : List (ℕ × ℕ)} (hn : (drawn.map Prod.fst).Nodup)
    (hr : r ∈ drawn.map Prod.fst) : (drawnFor drawn r).length = 1 := by
  induction drawn with
  | nil => exact absurd hr List.not_mem_nil
  | cons d drawn ih =>
    rw [List.map_cons, List.nodup_cons] at hn
    rw [List.map_cons, List.mem_cons] at hr
    rw [drawnFor_cons]
    rcases eq_or_ne d.1 r with rfl | hne
    · rw [if_pos rfl, drawnFor_of_notMem hn.1]
      rfl
    · rw [if_neg hne, List.nil_append]
      exact ih hn.2 (hr.resolve_left hne.symm)

/-- In a step, raising or not, a request drawn for gets one token. -/
theorem Steps.drawn {taken : List (ℕ × ℕ)} {done : List ℕ} (h : Steps e e' taken done)
    (hr : r ∈ taken.map Prod.fst) : ∃ t, (e'.req r).outputIds = (e.req r).outputIds ++ [t] := by
  obtain ⟨t, ht⟩ := List.length_eq_one_iff.1 (length_drawnFor h.nodup hr)
  exact ⟨t, by rw [(h.text r).outputIds, Request.emit, ht]⟩

theorem Steps.undrawn {taken : List (ℕ × ℕ)} {done : List ℕ} (h : Steps e e' taken done)
    (hr : r ∉ taken.map Prod.fst) : (e'.req r).outputIds = (e.req r).outputIds := by
  rw [(h.text r).outputIds, Request.emit, drawnFor_of_notMem hr, List.append_nil]

/-- Who runs after a step has not finished, before it or in it; who was finished before it gets
nothing in it. -/
theorem Steps.apart {taken : List (ℕ × ℕ)} {done : List ℕ} (h : Steps e e' taken done) :
    (∀ r ∈ e'.running, r ∉ e.finished ∧ r ∉ done) ∧
      ∀ r ∈ e.finished, r ∉ done ∧ r ∉ taken.map Prod.fst := by
  have hnodup : (e'.running ++ (e.finished ++ done)).Nodup := by
    rw [← h.finished]
    have hids := h.queues.nodup
    unfold ContinuousBatchingEngine.ids at hids
    rw [List.append_assoc] at hids
    exact hids.of_append_right
  rw [List.nodup_append, List.nodup_append] at hnodup
  obtain ⟨-, ⟨-, -, hold⟩, hdisj⟩ := hnodup
  have hrun : ∀ r ∈ e'.running, r ∉ e.finished ∧ r ∉ done := fun r hr =>
    ⟨fun hf => hdisj r hr r (List.mem_append_left _ hf) rfl,
      fun hd => hdisj r hr r (List.mem_append_right _ hd) rfl⟩
  refine ⟨hrun, fun r hf => ⟨fun hd => hold r hf r hd rfl, fun hm => ?_⟩⟩
  rcases h.emits r hm with hr | hd
  · exact (hrun r hr).1 hf
  · exact hold r hf r hd rfl

/-- **Phase 5 keeps tenure**: the loops over the drawn tokens and over the finished requests
return; each request drawn for has one token more, and runs on iff it is not done. -/
theorem outputs_tenure (h : Tenure n e) (hq : Queues e) {drawn : List (ℕ × ℕ)}
    (hn : (drawn.map Prod.fst).Nodup) (hs : ∀ r ∈ drawn.map Prod.fst, r ∈ e.running) :
    ∃ fin e₂ e', e.appendOutputs drawn = (.ok fin, e₂) ∧ e₂.retire fin = (.ok (), e') ∧ Tenure n e' ∧
      e'.cache.manager.blockSize = e.cache.manager.blockSize ∧
      (∀ r ∈ drawn.map Prod.fst, (e'.req r).outputIds.length = (e.req r).outputIds.length + 1 ∧
        (r ∈ e'.running ↔ (e'.req r).done = false)) ∧
      ∀ r ∉ drawn.map Prod.fst, e'.req r = e.req r := by
  obtain ⟨fin, e₂, happ, hap, hiff⟩ :=
    appendOutputs_ok drawn e hn fun r hr => (h.table r).2 (Or.inr (hs r hr))
  obtain ⟨-, hsub⟩ := hap.ok fin rfl
  have hframe := hap.frame
  have hfin : ∀ r ∈ fin, r ∈ e.running := fun r hr => hs r (hsub.subset hr)
  have hrn : e.running.Nodup := hq.nodup.of_append_left.of_append_right
  have hcache₂ : e₂.cache = e.cache := by rw [hframe]
  have hrun₂ : e₂.running = e.running := by rw [hframe]
  obtain ⟨m, running, hret, hacc, hnb, hbs, hmem, hlook⟩ := retire_ok fin e₂
    (by rw [hcache₂]; exact h.accounted) (by rwa [hrun₂]) (hn.sublist hsub) (by rwa [hrun₂])
  rw [hcache₂] at hnb hbs hlook
  rw [hrun₂] at hmem
  set e₃ : ContinuousBatchingEngine D R G := { e₂.setManager m with
    running := running
    finished := e₂.finished ++ fin } with he₃
  have hp₃ : e₃.prefilling = e.prefilling := by rw [he₃, hframe]; rfl
  refine ⟨fin, e₂, e₃, happ, hret, ⟨hnb.trans h.numBlocks, h.blockSize_pos.trans_eq hbs.symm, hacc,
    fun r => ?_, fun r hr t ht => ?_, fun r hr => ?_⟩, hbs, fun r hr => ⟨?_, ?_⟩, fun r hr => hap.others r hr⟩
  · show (∃ t, m.tables.lookup r = some t) ↔ r ∈ e₃.prefilling ∨ r ∈ running
    rw [hp₃, hmem r, hlook r]
    by_cases hr : r ∈ fin
    · rw [if_pos hr]
      refine iff_of_false (by simp) fun h => h.elim (fun hp => ?_) fun h => h.2 hr
      exact (not_mem_of_running hq.nodup (hfin r hr)).2.1 hp
    · rw [if_neg hr, and_iff_left hr]
      exact h.table r
  · show (e₂.req r).promptIds.length ≤ t.blockIds.length * m.blockSize
    rw [hp₃] at hr
    have hnot : r ∉ fin := fun hm => (not_mem_of_running hq.nodup (hfin r hm)).2.1 hr
    have ht : m.tables.lookup r = some t := ht
    rw [hlook r, if_neg hnot] at ht
    rw [show (e₂.req r).promptIds = (e.req r).promptIds from (hap.text r).promptIds, hbs]
    exact h.room r hr t ht
  · have hr : r ∈ e.waiting := by
      rw [he₃, hframe] at hr
      exact hr
    have hnot : r ∉ drawn.map Prod.fst := fun hm => (not_mem_of_running hq.nodup (hs r hm)).1 hr
    show PrefixFits e₂.cache (e₂.req r)
    rw [hap.others r hnot, hcache₂]
    exact h.fits r hr
  · show (e₂.req r).outputIds.length = _
    rw [(hap.text r).outputIds, Request.emit, List.length_append, length_drawnFor hn hr]
  · show r ∈ running ↔ (e₂.req r).done = false
    rw [hmem r, and_iff_right (hs r hr), hiff r hr, Bool.not_eq_true]

section

variable [Zero D] [Add X] [Field R] [LinearOrder R]

/-- **Phases 3 to 5 keep tenure**, raising or not, for a batch with one row for each sampled request.  A
request that got a token runs on iff it is not done; if they return, each sampled request has got one. -/
theorem execute_tenure (torch : Torch R) (src : Source R G) (T : Transformer X D R) (h : Tenure n e)
    (hq : Queues e) {b : Batch} (hn : (sampleBatch b).Nodup) (hs : ∀ r ∈ sampleBatch b, r ∈ e.running)
    (hlen : b.lastIdx.length = (sampleBatch b).length) :
    ∃ res e', e.execute torch src T.runner b = (res, e') ∧ Tenure n e' ∧
      e'.cache.manager.blockSize = e.cache.manager.blockSize ∧
      (∀ r, (e'.req r).outputIds ≠ (e.req r).outputIds → (r ∈ e'.running ↔ (e'.req r).done = false)) ∧
      (res = .ok () → ∀ r ∈ sampleBatch b, (e'.req r).outputIds.length = (e.req r).outputIds.length + 1) := by
  unfold execute
  have hframe := (T.forward_frame b.tokenIds b.positions b.writeSlots b.seqMeta e.cache).1
  have hmgr : (T.runner.forward b.tokenIds b.positions b.writeSlots b.seqMeta e.cache).2.manager =
      e.cache.manager := congrArg (·.manager) hframe
  have hdims : (T.runner.forward b.tokenIds b.positions b.writeSlots b.seqMeta e.cache).2.dims =
      e.cache.dims := congrArg (·.dims) hframe
  rcases hfwd : T.runner.forward b.tokenIds b.positions b.writeSlots b.seqMeta e.cache with
    ⟨x | hidden, cache⟩
  · rw [hfwd] at hmgr hdims
    exact ⟨_, _, rfl, h.congr hmgr hdims rfl (fun _ hr => hr) rfl rfl, congrArg _ hmgr, fun r hr => absurd rfl hr, by simp⟩
  rw [hfwd] at hmgr hdims
  simp only
  by_cases hlast : b.lastIdx = []
  · refine ⟨_, _, if_pos hlast, h.congr hmgr hdims rfl (fun _ hr => hr) rfl rfl, congrArg _ hmgr,
      fun r hr => absurd rfl hr, fun _ r hr => ?_⟩
    rw [hlast, List.length_nil] at hlen
    rw [List.length_eq_zero_iff.1 hlen.symm] at hr
    exact absurd hr List.not_mem_nil
  rw [if_neg hlast]
  cases hrows : indexRows hidden b.lastIdx with
  | error x =>
    exact ⟨_, _, rfl, h.congr hmgr hdims rfl (fun _ hr => hr) rfl rfl, congrArg _ hmgr,
      fun r hr => absurd rfl hr, by simp⟩
  | ok rows =>
    cases hbatch : sampleBatch b with
    | nil =>
      exact ⟨_, _, rfl, h.congr hmgr hdims rfl (fun _ hr => hr) rfl rfl, congrArg _ hmgr,
        fun r hr => absurd rfl hr, by simp⟩
    | cons first rest =>
      simp only
      set toks := (sample torch (e.req first).params (T.runner.logits rows)).run src e.rng with htoks
      have hcount : toks.1.length = (first :: rest).length := by
        rw [htoks, sample_eq, RandM.length_run_sequence, List.length_map, ← hbatch, ← hlen]
        exact (List.length_map _).trans (length_indexRows hidden _ hrows)
      have hfst : ((first :: rest).zip toks.1).map Prod.fst = first :: rest := List.map_fst_zip hcount.ge
      rw [hbatch] at hn hs
      obtain ⟨fin, e₂, e', happ, hret, h', hbs, hgot, hrest⟩ := outputs_tenure
        (e := { e with cache, numSteps := e.numSteps + 1, rng := toks.2 })
        (h.congr hmgr hdims rfl (fun _ hr => hr) rfl rfl) (hq.congr rfl (.refl _) rfl rfl rfl rfl rfl rfl)
        (show (((first :: rest).zip toks.1).map Prod.fst).Nodup by rwa [hfst]) (by rwa [hfst])
      rw [hfst] at hgot hrest
      refine ⟨.ok (), e', ?_, h', hbs.trans (congrArg _ hmgr), fun r hr => ?_, fun _ r hr => (hgot r hr).1⟩
      · rw [happ]
        exact hret
      · have hin : r ∈ first :: rest := by
          by_contra hnot
          exact hr (by rw [hrest r hnot])
        exact (hgot r hin).2

/-- They keep custody too. -/
theorem execute_custody (torch : Torch R) (src : Source R G) (T : Transformer X D R) (hc : Custody n e)
    (hq : Queues e) {b : Batch} (hn : (sampleBatch b).Nodup) (hs : ∀ r ∈ sampleBatch b, r ∈ e.running)
    (hlen : b.lastIdx.length = (sampleBatch b).length) :
    ∃ res e', e.execute torch src T.runner b = (res, e') ∧ Custody n e' ∧
      e'.cache.manager.blockSize = e.cache.manager.blockSize ∧
      (res = .ok () → ∀ r ∈ sampleBatch b, (e'.req r).outputIds.length = (e.req r).outputIds.length + 1) := by
  obtain ⟨res, e', hexec, h', hbs, hrun, hgot⟩ := execute_tenure torch src T hc.toTenure hq hn hs hlen
  obtain ⟨res₂, e₂, taken, done, hexec₂, hd, -, -⟩ := execute_any torch src T.runner e hs
  obtain ⟨-, rfl⟩ := Prod.mk.inj (hexec.symm.trans hexec₂)
  refine ⟨res, e', hexec, ⟨h', fun r hr => ?_, fun r hr => ?_⟩, hbs, hgot⟩
  · by_cases hout : (e'.req r).outputIds = (e.req r).outputIds
    · rw [hout, show (e'.req r).maxNewTokens = (e.req r).maxNewTokens from (hd.text r).maxNewTokens]
      exact hc.live r (hd.running.subset (List.mem_append_left _ hr))
    · have := (not_done ((hrun r hout).1 hr)).1
      omega
  · rw [show (e'.req r).promptIds = (e.req r).promptIds from (hd.text r).promptIds,
      BlockManager.blocksNeeded_congr hbs]
    rw [hd.prefilling, hd.waiting] at hr
    exact hc.prompts r hr

/-! ### A step -/

/-- `has_work`. -/
def hasWork (e : ContinuousBatchingEngine D R G) : Bool :=
  decide (e.waiting ≠ [] ∨ e.prefilling ≠ [] ∨ e.running ≠ [])

/-- The requests that are not finished. -/
def queued (e : ContinuousBatchingEngine D R G) : List ℕ := e.waiting ++ e.prefilling ++ e.running

/-- The tokens that request `r` may still be given: those of its prompt, unless it runs, and
those of its output. -/
def tokensLeft (e : ContinuousBatchingEngine D R G) (r : ℕ) : ℕ :=
  (if r ∈ e.running then 0 else (e.req r).promptIds.length - (e.req r).prefillPos) +
    (max (e.req r).maxNewTokens 1 - (e.req r).outputIds.length)

/-- The measure of a run without arrivals. -/
def workLeft (e : ContinuousBatchingEngine D R G) : ℕ := (e.queued.map e.tokensLeft).sum

omit [Zero D] [Add X] [Field R] [LinearOrder R] in
theorem hasWork_iff : e.hasWork = true ↔ e.queued ≠ [] := by
  simp only [hasWork, queued, decide_eq_true_eq, ne_eq, List.append_eq_nil_iff]
  tauto

omit [Zero D] [Add X] [Field R] [LinearOrder R] in
/-- A request of the queue has some of its prompt ahead of it. -/
theorem Custody.prompt_left (hc : Custody n e) (hq : Queues e) (hr : r ∈ e.prefilling ∨ r ∈ e.waiting) :
    (e.req r).prefillPos < (e.req r).promptIds.length := by
  have hpos := List.length_pos_iff.2 (hc.prompts r hr).1
  rcases hr with hp | hw
  · exact (hq.prefilling r hp).2.2.elim (fun h0 => h0.trans_lt hpos) id
  · exact (hq.waiting r hw).2.2.1.trans_lt hpos

omit [Zero D] [Add X] [Field R] [LinearOrder R] in
/-- A request that is not finished may still be given something. -/
theorem Custody.tokensLeft_pos (hc : Custody n e) (hq : Queues e) (hr : r ∈ e.queued) :
    0 < e.tokensLeft r := by
  unfold tokensLeft
  simp only [queued, List.mem_append] at hr
  by_cases hrun : r ∈ e.running
  · have := hc.live r hrun
    omega
  · rw [if_neg hrun]
    have := hc.prompt_left hq ((hr.resolve_right hrun).symm)
    omega

omit [Zero D] [Add X] [Field R] [LinearOrder R] in
/-- **Something is scheduled**, if there is work: with nothing running the head of the queue is
admitted, as all blocks are free when nothing prefills either. -/
theorem Schedules.scheduled {e₁ : ContinuousBatchingEngine D R G} {b : Batch} {dec new : List Slice}
    (h : Schedules e (.ok ()) e₁ b dec new) (hc : Custody n e) (hq : Queues e)
    (hmax : 1 ≤ e.maxBatchTokens) (hwork : e.hasWork = true) : dec ++ new ≠ [] := by
  intro hnil
  obtain ⟨hdec, hnew⟩ := List.append_eq_nil_iff.1 hnil
  obtain ⟨hrun, hstuck⟩ := h.idle rfl hdec hnew hmax
  set queue := e.waiting.insertionSort e.admissionOrder with hqueue
  have hperm : queue.Perm e.waiting := List.perm_insertionSort _ _
  cases hp : e.prefilling with
  | cons r rs =>
    have hr : r ∈ e.prefilling := hp ▸ List.mem_cons_self
    have hfew := hstuck r (by rw [hp]; rfl)
    rw [blocksToAdmit, if_neg (by rw [(hq.prefilling r hr).1]; decide)] at hfew
    omega
  | nil =>
    cases hw : queue with
    | nil =>
      rw [hasWork_iff, queued, hp, hrun, List.append_nil, List.append_nil] at hwork
      exact hwork (List.perm_nil.1 (hw ▸ hperm.symm))
    | cons r rs =>
      have hr : r ∈ e.waiting := hperm.mem_iff.1 (hw ▸ List.mem_cons_self)
      have hfew := hstuck r (by rw [hp, hw]; rfl)
      rw [blocksToAdmit, if_pos (hq.waiting r hr).1] at hfew
      have hfree := hc.accounted.free_all fun r' => by
        cases hlook : e.cache.manager.tables.lookup r' with
        | none => rfl
        | some t =>
          have hin := (hc.table r').1 ⟨t, hlook⟩
          rw [hp, hrun] at hin
          simp at hin
      rw [hfree, hc.numBlocks] at hfew
      exact absurd (hc.prompts r (Or.inr hr)).2 (not_le.2 hfew)

omit [Zero D] [Add X] [Field R] [LinearOrder R] in
/-- One row for each sampled request. -/
theorem Schedules.length_lastIdx {e₁ : ContinuousBatchingEngine D R G} {b : Batch} {dec new : List Slice}
    (h : Schedules e (.ok ()) e₁ b dec new) :
    b.lastIdx.length = (ContinuousBatchingEngine.sampleBatch b).length := by
  rw [h.parallel.lastIdx, length_lastIdxs, sampleBatch_eq h.parallel.batch (h.flags rfl), List.length_map]

/-- **A step keeps custody**, raising or not. -/
theorem step_custody (torch : Torch R) (src : Source R G) (T : Transformer X D R) (hc : Custody n e)
    (hq : Queues e) :
    ∃ res e', e.step torch src T.runner = (res, e') ∧ Custody n e' ∧
      e'.cache.manager.blockSize = e.cache.manager.blockSize := by
  obtain ⟨res, e₁, b, dec, new, heq, hs⟩ := schedule_any hq
  rw [step, heq]
  cases res with
  | error x => exact ⟨_, e₁, rfl, hs.custody hc, hs.moves.blockSize⟩
  | ok =>
    by_cases hb : b.batch = []
    · exact ⟨_, e₁, if_pos hb, hs.custody hc, hs.moves.blockSize⟩
    · obtain ⟨hnodup, hrunning⟩ := hs.toSample_running
      rw [← hs.sampleBatch] at hnodup hrunning
      obtain ⟨res, e', hexec, hc', hbs, -⟩ := execute_custody torch src T (hs.custody hc) hs.queues hnodup
        hrunning hs.length_lastIdx
      exact ⟨res, e', (if_neg hb).trans hexec, hc', hbs.trans hs.moves.blockSize⟩

section

omit [Zero D] [Add X] [Field R] [LinearOrder R]

variable {e₁ : ContinuousBatchingEngine D R G} {b : Batch} {dec new : List Slice} {taken : List (ℕ × ℕ)}
  {done : List ℕ}

/-- What is scheduled is counted. -/
theorem Schedules.count_lt (hs : Schedules e (.ok ()) e₁ b dec new) (hsome : dec ++ new ≠ []) :
    e.numPrefillTokens + e.numDecodeTokens < e₁.numPrefillTokens + e₁.numDecodeTokens := by
  rw [hs.numPrefillTokens, hs.numDecodeTokens]
  cases hdec : dec with
  | cons s dec =>
    rw [List.length_cons]
    omega
  | nil =>
    cases hnew : new with
    | nil => exact absurd (by rw [hdec, hnew]; rfl) hsome
    | cons s new =>
      have := hs.positive s (hnew ▸ List.mem_cons_self)
      rw [total, List.map_cons, List.sum_cons]
      omega

/-- A step moves requests from the queues to the finished ones and loses none. -/
theorem Schedules.queued_perm (hs : Schedules e (.ok ()) e₁ b dec new) (hd : Delivers e₁ e' taken done) :
    (e'.queued ++ done).Perm e.queued := by
  have hall : (e₁.queued ++ e₁.finished).Perm (e.queued ++ e.finished) := hs.moves.ids
  rw [hs.moves.finished, List.perm_append_right_iff] at hall
  refine List.Perm.trans ?_ hall
  unfold queued
  rw [hd.waiting, hd.prefilling, List.append_assoc _ e'.running]
  exact hd.running.append_left _

/-- The measure after a step, over the requests that were queued before it. -/
theorem workLeft_eq (hperm : (e'.queued ++ done).Perm e.queued) (hn : e.queued.Nodup) :
    e'.workLeft = (e.queued.map fun r => if r ∈ done then 0 else e'.tokensLeft r).sum := by
  have hnd := List.nodup_append.1 (hperm.nodup_iff.2 hn)
  set cost : ℕ → ℕ := fun r => if r ∈ done then 0 else e'.tokensLeft r with hcost
  have hzero : (done.map cost).sum = 0 := List.sum_eq_zero fun x hx => by
    obtain ⟨r, hr, rfl⟩ := List.mem_map.1 hx
    exact if_pos hr
  have hsame : e'.queued.map cost = e'.queued.map e'.tokensLeft := List.map_congr_left fun r hr =>
    if_neg fun hd => hnd.2.2 r hr r hd rfl
  rw [workLeft, ← hsame, ← (hperm.map cost).sum_eq, List.map_append, List.sum_append, hzero, Nat.add_zero]

/-- A request of the queue resumes no earlier than it stands. -/
theorem Queues.prefillPos_le_resumeAt (hq : Queues e) (hr : r ∈ e.prefilling ∨ r ∈ e.waiting) :
    (e.req r).prefillPos ≤ resumeAt (e.req r) := by
  rw [resumeAt]
  split
  next hw =>
    rcases hr with hp | hwait
    · rw [(hq.prefilling r hp).1] at hw
      cases hw
    · rw [(hq.waiting r hwait).2.2.1]
      exact Nat.zero_le _
  · exact le_rfl

/-- A request that is not done and does not run after a step did not run before it, and phases 3
to 5 left it alone. -/
theorem Schedules.stays {res : Except Exc Unit} (hs : Schedules e res e₁ b dec new)
    (hd : Delivers e₁ e' taken done) (hdone : r ∉ done) (hnot : r ∉ e'.running) : r ∉ e.running ∧ e'.req r = e₁.req r := by
  have hnot₁ : r ∉ e₁.running := fun hm => (List.mem_append.1 (hd.running.mem_iff.2 hm)).elim hnot hdone
  exact ⟨fun hm => hnot₁ (hs.moves.running r hm), hd.others r hnot₁⟩

/-- A step keeps the prompt and the limit of a request, and its output does not shrink. -/
theorem Schedules.text {res : Except Exc Unit} (hs : Schedules e res e₁ b dec new)
    (hd : Delivers e₁ e' taken done) (r : ℕ) :
    (e'.req r).promptIds = (e.req r).promptIds ∧ (e'.req r).maxNewTokens = (e.req r).maxNewTokens ∧
      (e.req r).outputIds.length ≤ (e'.req r).outputIds.length := by
  have htext := hd.text r
  refine ⟨htext.promptIds.trans (hs.moves.text r).promptIds,
    htext.maxNewTokens.trans (hs.moves.text r).maxNewTokens, ?_⟩
  rw [htext.outputIds, ← (hs.moves.text r).outputIds, Request.emit, List.length_append]
  exact Nat.le_add_right _ _

/-- **No step adds to the tokens left** of a request. -/
theorem Schedules.tokensLeft_le {res : Except Exc Unit} (hs : Schedules e res e₁ b dec new)
    (hd : Delivers e₁ e' taken done) (hdone : r ∉ done) : e'.tokensLeft r ≤ e.tokensLeft r := by
  obtain ⟨hprompt, hmax, hout⟩ := hs.text hd r
  rw [tokensLeft, tokensLeft, hprompt, hmax]
  by_cases hrun : r ∈ e'.running
  · rw [if_pos hrun]
    omega
  · obtain ⟨hnot, hsame⟩ := hs.stays hd hdone hrun
    have := hs.moves.prefillPos r
    rw [if_neg hrun, if_neg hnot, hsame]
    rw [hsame] at hout
    omega

/-- A decode token is one less: the output grows. -/
theorem Schedules.tokensLeft_decode (hs : Schedules e (.ok ()) e₁ b dec new)
    (hd : Delivers e₁ e' taken done) (hc : Custody n e) (hdone : r ∉ done) (hr : r ∈ dec.map Slice.req)
    (hgot : ∀ r ∈ ContinuousBatchingEngine.sampleBatch b,
      (e'.req r).outputIds.length = (e₁.req r).outputIds.length + 1) :
    e'.tokensLeft r < e.tokensLeft r := by
  obtain ⟨hprompt, hmax, -⟩ := hs.text hd r
  have hrun : r ∈ e.running := hs.decodes.subset hr
  have hin : r ∈ ContinuousBatchingEngine.sampleBatch b := by
    rw [hs.sampleBatch, ← hs.toSample rfl]
    obtain ⟨s, hdec, rfl⟩ := List.mem_map.1 hr
    exact List.mem_map_of_mem (List.mem_filter.2 ⟨List.mem_append_left _ hdec, (hs.one s hdec).2⟩)
  have hmore := hgot r hin
  rw [(hs.moves.text r).outputIds] at hmore
  have hlive := hc.live r hrun
  have hrun' : r ∈ e'.running := by
    by_contra hnot
    exact (hs.stays hd hdone hnot).1 hrun
  rw [tokensLeft, tokensLeft, hprompt, hmax, if_pos hrun, if_pos hrun']
  omega

/-- A chunk of the prompt is that much less. -/
theorem Schedules.tokensLeft_chunk (hs : Schedules e (.ok ()) e₁ b dec new)
    (hd : Delivers e₁ e' taken done) (hc : Custody n e) (hq : Queues e) {s : Slice} (hnew : s ∈ new)
    (hdone : s.req ∉ done) : e'.tokensLeft s.req < e.tokensLeft s.req := by
  obtain ⟨hprompt, hmax, hout⟩ := hs.text hd s.req
  have hqueue := hs.takes s hnew
  have hahead := hc.prompt_left hq hqueue
  have hnot : s.req ∉ e.running := fun hm => by
    obtain ⟨hnw, hnp, -⟩ := not_mem_of_running hq.nodup hm
    exact hqueue.elim hnp hnw
  have hfrom := hq.prefillPos_le_resumeAt hqueue
  have hmore := hs.prefillPos s hnew
  have hlen := hs.positive s hnew
  rw [tokensLeft, tokensLeft, hprompt, hmax, if_neg hnot]
  by_cases hrun' : s.req ∈ e'.running
  · rw [if_pos hrun']
    omega
  · obtain ⟨-, hsame⟩ := hs.stays hd hdone hrun'
    rw [if_neg hrun', hsame]
    rw [hsame] at hout
    omega

end

/-- **What a step does to the measure and the counters**, if it returns and there is work. -/
theorem step_progress (torch : Torch R) (src : Source R G) (T : Transformer X D R) (hc : Custody n e)
    (hq : Queues e) (hmax : 1 ≤ e.maxBatchTokens) (hwork : e.hasWork = true)
    (hstep : e.step torch src T.runner = (.ok (), e')) :
    e.numPrefillTokens + e.numDecodeTokens < e'.numPrefillTokens + e'.numDecodeTokens ∧
      e'.workLeft < e.workLeft := by
  obtain ⟨res, e₁, b, dec, new, heq, hs⟩ := schedule_any hq
  rw [step, heq] at hstep
  cases res with
  | error x => cases hstep
  | ok =>
    have hsome := hs.scheduled hc hq hmax hwork
    have hb : b.batch ≠ [] := by
      rw [hs.parallel.batch]
      exact fun h => hsome (List.map_eq_nil_iff.1 h)
    simp only [if_neg hb] at hstep
    obtain ⟨hnodup, hrunning⟩ := hs.toSample_running
    rw [← hs.sampleBatch] at hnodup hrunning
    obtain ⟨res, e₂, taken, done, hexec, hd, -, -⟩ := execute_any torch src T.runner e₁ hrunning
    obtain ⟨rfl, rfl⟩ := Prod.mk.inj (hstep.symm.trans hexec)
    obtain ⟨res, e₂, hexec', -, -, hgot⟩ := execute_custody torch src T (hs.custody hc) hs.queues hnodup
      hrunning hs.length_lastIdx
    obtain ⟨rfl, rfl⟩ := Prod.mk.inj (hstep.symm.trans hexec')
    constructor
    · rw [hd.numPrefillTokens, hd.numDecodeTokens]
      exact hs.count_lt hsome
    · rw [workLeft_eq (hs.queued_perm hd) hq.nodup.of_append_left, workLeft]
      refine List.sum_lt_sum _ _ (fun r _ => ?_) ?_
      · split
        next => exact Nat.zero_le _
        next hdone => exact hs.tokensLeft_le hd hdone
      · obtain ⟨s, hs'⟩ := List.exists_mem_of_ne_nil _ hsome
        have hin : s.req ∈ e.queued := by
          unfold queued
          rcases List.mem_append.1 hs' with hdec | hnew
          · exact List.mem_append_right _ (hs.decodes.subset (List.mem_map_of_mem hdec))
          · exact List.mem_append_left _ (List.mem_append.2 (hs.takes s hnew).symm)
        refine ⟨s.req, hin, ?_⟩
        split
        next => exact hc.tokensLeft_pos hq hin
        next hdone =>
          rcases List.mem_append.1 hs' with hdec | hnew
          · exact hs.tokensLeft_decode hd hc hdone (List.mem_map_of_mem hdec) (hgot rfl)
          · exact hs.tokensLeft_chunk hd hc hq hnew hdone

/-! ### Runs -/

omit [Add X] [LinearOrder R] in
theorem Tenure.init (T : Transformer X D R) (numBlocks : ℕ) {blockSize : ℕ} (hbs : 1 ≤ blockSize)
    (maxBatchTokens : ℕ) (chunkSize : Option ℕ) (rng : G) :
    Tenure numBlocks (ContinuousBatchingEngine.init T numBlocks blockSize maxBatchTokens chunkSize rng) := by
  have hnil : ∀ {r : ℕ}, r ∉ ([] : List ℕ) := List.not_mem_nil
  refine ⟨rfl, hbs, BlockManager.init_accounted numBlocks blockSize, fun r => ?_, fun r hr => absurd hr hnil,
    fun r hr => absurd hr hnil⟩
  refine iff_of_false ?_ fun h => h.elim hnil hnil
  rintro ⟨t, ht⟩
  cases ht

omit [Zero D] [Add X] [Field R] [LinearOrder R] in
/-- A submission, accepted or not, keeps tenure. -/
theorem Tenure.submit (h : Tenure n e) (hq : Queues e) (s : Submission D R) :
    Tenure n (e.addRequest s).2 := by
  rcases addRequest_spec e s with ⟨msg, herr⟩ | ⟨hok, hfits⟩
  · rw [herr]
    exact h
  rw [hok]
  refine ⟨h.numBlocks, h.blockSize_pos, h.accounted, h.table, fun r hr t ht => ?_, fun r hr => ?_⟩
  · have hr : r ∈ e.prefilling := hr
    have hne : r ≠ e.nextId := (hq.bound r (by simp [ids, hr])).ne
    show (Function.update e.req e.nextId _ r).promptIds.length ≤ _
    rw [Function.update_of_ne hne]
    exact h.room r hr t ht
  · show PrefixFits e.cache (Function.update e.req e.nextId _ r)
    rcases List.mem_append.1 hr with hr | hr
    · have hne : r ≠ e.nextId := (hq.bound r (by simp [ids, hr])).ne
      rw [Function.update_of_ne hne]
      exact h.fits r hr
    · rw [List.mem_singleton.1 hr, Function.update_self]
      exact hfits

/-- **What progress rests on**, in every state that calls lead to. -/
structure Going (numBlocks blockSize : ℕ) (e : ContinuousBatchingEngine D R G) : Prop where
  queues : Queues e
  custody : Custody numBlocks e
  blockSize : e.cache.manager.blockSize = blockSize
  budget : 1 ≤ e.maxBatchTokens
  created : ∀ r < e.nextId, r ∈ e.ids

variable {numBlocks blockSize : ℕ}

omit [Add X] [LinearOrder R] in
theorem Going.init (T : Transformer X D R) (numBlocks : ℕ) {blockSize : ℕ} (hbs : 1 ≤ blockSize)
    {maxBatchTokens : ℕ} (hmax : 1 ≤ maxBatchTokens) (chunkSize : Option ℕ) (rng : G) :
    Going numBlocks blockSize
      (ContinuousBatchingEngine.init T numBlocks blockSize maxBatchTokens chunkSize rng) := by
  exact ⟨init_queues T numBlocks blockSize maxBatchTokens chunkSize rng,
    ⟨Tenure.init T numBlocks hbs maxBatchTokens chunkSize rng, fun r hr => absurd hr List.not_mem_nil, fun r hr =>
      hr.elim (fun hp => absurd hp List.not_mem_nil) fun hw => absurd hw List.not_mem_nil⟩, rfl, hmax,
    fun r hr => absurd hr (Nat.not_lt_zero r)⟩

omit [Zero D] [Add X] [Field R] [LinearOrder R] in
/-- An accepted submission that fits the pool. -/
theorem Going.submit (h : Going numBlocks blockSize e) {s : Submission D R}
    (hfit : s.promptIds ≠ [] ∧
      (BlockManager.init numBlocks blockSize).blocksNeeded s.promptIds.length ≤ numBlocks)
    (heq : e.addRequest s = (.ok r, e')) : Going numBlocks blockSize e' := by
  have hq' := h.queues.submit s
  have h' := h.custody.toTenure.submit h.queues s
  rw [heq] at hq' h'
  rcases addRequest_spec e s with ⟨msg, herr⟩ | ⟨hok, -⟩
  · cases heq.symm.trans herr
  obtain ⟨-, rfl⟩ := Prod.mk.inj (heq.symm.trans hok)
  have hne : ∀ r ∈ e.ids, r ≠ e.nextId := fun r hr => (h.queues.bound r hr).ne
  refine ⟨hq', ⟨h', fun r hr => ?_, fun r hr => ?_⟩, h.blockSize, h.budget, fun r hr => ?_⟩
  · show (Function.update e.req e.nextId _ r).outputIds.length <
      max (Function.update e.req e.nextId _ r).maxNewTokens 1
    have hr : r ∈ e.running := hr
    rw [Function.update_of_ne (hne r (by simp [ids, hr]))]
    exact h.custody.live r hr
  · show (Function.update e.req e.nextId _ r).promptIds ≠ [] ∧
      e.cache.manager.blocksNeeded (Function.update e.req e.nextId _ r).promptIds.length ≤ numBlocks
    by_cases hold : r ∈ e.prefilling ∨ r ∈ e.waiting
    · rw [Function.update_of_ne (hne r (by simp only [ids, List.mem_append]; tauto))]
      exact h.custody.prompts r hold
    · obtain rfl : r = e.nextId := by
        have hr : r ∈ e.prefilling ∨ r ∈ e.waiting ++ [e.nextId] := hr
        simp only [List.mem_append, List.mem_singleton] at hr
        tauto
      rw [Function.update_self, BlockManager.blocksNeeded_congr (m := .init numBlocks blockSize) h.blockSize]
      exact hfit
  · show r ∈ e.waiting ++ [e.nextId] ++ e.prefilling ++ e.running ++ e.finished
    have hr : r < e.nextId + 1 := hr
    rcases Nat.lt_succ_iff_lt_or_eq.1 hr with hlt | rfl
    · have := h.created r hlt
      simp only [ids, List.mem_append] at this ⊢
      tauto
    · simp

/-- A step, raising or not. -/
theorem Going.step (h : Going numBlocks blockSize e) (torch : Torch R) (src : Source R G)
    (T : Transformer X D R) : Going numBlocks blockSize (e.step torch src T.runner).2 := by
  obtain ⟨res, e', taken, done, heq, hs⟩ := step_any torch src T.runner h.queues
  obtain ⟨res, e', heq', hc, hbs⟩ := step_custody torch src T h.custody h.queues
  obtain ⟨rfl, rfl⟩ := Prod.mk.inj (heq.symm.trans heq')
  rw [heq]
  refine ⟨hs.queues, hc, hbs.trans h.blockSize, h.budget.trans_eq hs.maxBatchTokens.symm, fun r hr => ?_⟩
  rw [hs.nextId] at hr
  exact hs.ids.mem_iff.2 (h.created r hr)

/-- **Every state that calls lead to**, raising or not. -/
theorem Going.leaves (h : Going numBlocks blockSize e) (torch : Torch R) (src : Source R G)
    (T : Transformer X D R) (cs : List (Call D R))
    (hfit : ∀ s ∈ accepted torch src T.runner e cs, s.promptIds ≠ [] ∧
      (BlockManager.init numBlocks blockSize).blocksNeeded s.promptIds.length ≤ numBlocks) :
    Going numBlocks blockSize (leaves torch src T.runner e cs) := by
  induction cs generalizing e with
  | nil => exact h
  | cons c cs ih =>
    show Going numBlocks blockSize
      (ContinuousBatchingEngine.leaves torch src T.runner (leave torch src T.runner e c) cs)
    cases c with
    | step =>
      rw [accepted] at hfit
      exact ih (h.step torch src T) hfit
    | addRequest s =>
      rw [accepted] at hfit
      rw [leave]
      rcases hres : e.addRequest s with ⟨x | r, e₁⟩
      · rw [hres] at hfit
        rcases addRequest_spec e s with ⟨msg, herr⟩ | ⟨hok, -⟩
        · obtain rfl := (Prod.mk.inj (herr.symm.trans hres)).2
          exact ih h hfit
        · cases hok.symm.trans hres
      · rw [hres] at hfit
        exact ih (h.submit (hfit s List.mem_cons_self) hres) fun s' hs' =>
          hfit s' (List.mem_cons_of_mem _ hs')

/-- `run_until_done` with at most `maxSteps` steps. -/
def runUntilDone (torch : Torch R) (src : Source R G) (runner : ModelRunner X D R) :
    ContinuousBatchingEngine D R G → (maxSteps : ℕ) → Except Exc Unit × ContinuousBatchingEngine D R G
  | e, 0 => (.ok (), e)
  | e, maxSteps + 1 =>
    if e.hasWork then
      match e.step torch src runner with
      | (.error x, e) => (.error x, e)
      | (.ok (), e) => runUntilDone torch src runner e maxSteps
    else (.ok (), e)

omit [Zero D] [Add X] [Field R] [LinearOrder R] in
theorem Going.workLeft_pos (h : Going numBlocks blockSize e) (hwork : e.hasWork = true) : 0 < e.workLeft := by
  obtain ⟨r, hr⟩ := List.exists_mem_of_ne_nil _ (hasWork_iff.1 hwork)
  exact (h.custody.tokensLeft_pos h.queues hr).trans_le
    (List.single_le_sum (fun _ _ => Nat.zero_le _) _ (List.mem_map_of_mem hr))

omit [Zero D] [Add X] [Field R] [LinearOrder R] in
/-- Without work every request is finished. -/
theorem Going.finished (h : Going numBlocks blockSize e) (hwork : e.hasWork = false) :
    ∀ r < e.nextId, r ∈ e.finished := by
  intro r hr
  have hnil : e.queued = [] := by
    by_contra hne
    rw [hasWork_iff.2 hne] at hwork
    cases hwork
  have hin : r ∈ e.queued ++ e.finished := h.created r hr
  rwa [hnil, List.nil_append] at hin

/-- A step without work leaves none. -/
theorem Going.step_idle (h : Going numBlocks blockSize e) (torch : Torch R) (src : Source R G)
    (T : Transformer X D R) (hwork : e.hasWork = false) :
    (e.step torch src T.runner).2.hasWork = false := by
  obtain ⟨res, e', taken, done, heq, hs⟩ := step_any torch src T.runner h.queues
  rw [heq]
  by_contra hne
  obtain ⟨r, hr⟩ := List.exists_mem_of_ne_nil _ (hasWork_iff.1 (eq_true_of_ne_false hne))
  have hold : r ∈ e.finished := by
    have hin : r ∈ e.ids := hs.ids.mem_iff.1 (List.mem_append_left _ hr)
    exact h.finished hwork r (h.queues.bound r hin)
  have hnew : r ∈ e'.finished := by
    rw [hs.finished]
    exact List.mem_append_left _ hold
  exact (List.nodup_append.1 hs.queues.nodup).2.2 r hr r hnew rfl

/-- **As many steps as there are tokens left** leave no work. -/
theorem Going.drain {torch : Torch R} {src : Source R G} {T : Transformer X D R} (k : ℕ)
    {e e' : ContinuousBatchingEngine D R G} (h : Going numBlocks blockSize e) (hk : e.workLeft ≤ k)
    (hrun : calls torch src T.runner e (List.replicate k .step) = .ok e') :
    Going numBlocks blockSize e' ∧ e'.hasWork = false := by
  induction k generalizing e with
  | zero =>
    obtain rfl := Except.ok.inj hrun
    refine ⟨h, ?_⟩
    by_contra hne
    have := h.workLeft_pos (eq_true_of_ne_false hne)
    omega
  | succ k ih =>
    rw [List.replicate_succ, calls.eq_def] at hrun
    have hnext := h.step torch src T
    have hidle := h.step_idle torch src T
    rcases hres : e.step torch src T.runner with ⟨x | ⟨⟩, e₁⟩
    · simp only [hres] at hrun
      cases hrun
    · simp only [hres] at hrun
      rw [hres] at hnext hidle
      refine ih (e := e₁) hnext ?_ hrun
      by_cases hwork : e.hasWork = true
      · have := (step_progress torch src T h.custody h.queues h.budget hwork hres).2
        omega
      · by_contra hne
        have hno := hidle (eq_false_of_ne_true hwork)
        have hzero : e₁.workLeft = 0 := by
          by_contra hpos
          have hq : e₁.queued = [] := by
            by_contra hq
            rw [hasWork_iff.2 hq] at hno
            cases hno
          rw [workLeft, hq] at hpos
          exact hpos rfl
        omega

/-- **The bound of `run_until_done` plays no part** once it is at least the tokens left. -/
theorem Going.runUntilDone_eq (torch : Torch R) (src : Source R G) (T : Transformer X D R) (k k' : ℕ)
    {e : ContinuousBatchingEngine D R G} (h : Going numBlocks blockSize e) (hk : e.workLeft ≤ k)
    (hk' : e.workLeft ≤ k') :
    e.runUntilDone torch src T.runner k = e.runUntilDone torch src T.runner k' ∧
      ((e.runUntilDone torch src T.runner k).1 = .ok () →
        (e.runUntilDone torch src T.runner k).2.hasWork = false ∧
        Going numBlocks blockSize (e.runUntilDone torch src T.runner k).2) := by
  by_cases hwork : e.hasWork = true
  · have hpos := h.workLeft_pos hwork
    induction k generalizing k' e with
    | zero => omega
    | succ k ih =>
      cases k' with
      | zero => omega
      | succ k' =>
        rw [runUntilDone, runUntilDone, if_pos hwork, if_pos hwork]
        have hnext := h.step torch src T
        rcases hres : e.step torch src T.runner with ⟨x | ⟨⟩, e₁⟩
        · exact ⟨rfl, by simp⟩
        · rw [hres] at hnext
          have hless := (step_progress torch src T h.custody h.queues h.budget hwork hres).2
          by_cases hwork₁ : e₁.hasWork = true
          · exact ih k' (e := e₁) hnext (by omega) (by omega) hwork₁ (hnext.workLeft_pos hwork₁)
          · have hstop : ∀ k, e₁.runUntilDone torch src T.runner k = (.ok (), e₁) := fun k => by
              cases k with
              | zero => rfl
              | succ k => exact if_neg hwork₁
            simp only [hstop]
            exact ⟨trivial, fun _ => ⟨eq_false_of_ne_true hwork₁, hnext⟩⟩
  · have hstop : ∀ k, e.runUntilDone torch src T.runner k = (.ok (), e) := fun k => by
      cases k with
      | zero => rfl
      | succ k => exact if_neg hwork
    rw [hstop, hstop]
    exact ⟨rfl, fun _ => ⟨eq_false_of_ne_true hwork, h⟩⟩

omit [Zero D] [Add X] [Field R] [LinearOrder R] in
/-- The measure is at most the length of what was asked for. -/
theorem workLeft_le (e : ContinuousBatchingEngine D R G) :
    e.workLeft ≤ (e.queued.map fun r => (e.req r).promptIds.length + max (e.req r).maxNewTokens 1).sum := by
  refine List.sum_le_sum fun r _ => ?_
  unfold tokensLeft
  split
  · omega
  · omega

end

end ContinuousBatchingEngine

open ContinuousBatchingEngine

variable {X D R G : Type} [Zero D] [Add X] [Field R] [LinearOrder R]

/-- **The scheduler cannot spin.**  In every state that calls lead to, raising or not, a step that
returns while there is work takes tokens off it; so after as many steps as the queued
requests have tokens nothing is left and every request is finished, and
`run_until_done` ends without the help of its bound. -/
theorem scheduler_progress (torch : Torch R) (src : Source R G) (T : Transformer X D R)
    (numBlocks : ℕ) {blockSize : ℕ} (hbs : 1 ≤ blockSize) {maxBatchTokens : ℕ} (hmax : 1 ≤ maxBatchTokens)
    (chunkSize : Option ℕ) (rng : G) (cs : List (Call D R)) :
    let e₀ := init T numBlocks blockSize maxBatchTokens chunkSize rng
    let e := leaves torch src T.runner e₀ cs
    let asked := (e.queued.map fun r => (e.req r).promptIds.length + max (e.req r).maxNewTokens 1).sum
    (∀ s ∈ accepted torch src T.runner e₀ cs, s.promptIds ≠ [] ∧
      (BlockManager.init numBlocks blockSize).blocksNeeded s.promptIds.length ≤ numBlocks) →
    (∀ e', e.hasWork = true → e.step torch src T.runner = (.ok (), e') →
      e.numPrefillTokens + e.numDecodeTokens < e'.numPrefillTokens + e'.numDecodeTokens) ∧
    (∀ k e', asked ≤ k → calls torch src T.runner e (List.replicate k .step) = .ok e' →
      e'.hasWork = false ∧ ∀ r < e'.nextId, r ∈ e'.finished) ∧
    ∀ k, asked ≤ k → e.runUntilDone torch src T.runner k = e.runUntilDone torch src T.runner asked ∧
      ∀ e', e.runUntilDone torch src T.runner k = (.ok (), e') →
        e'.hasWork = false ∧ ∀ r < e'.nextId, r ∈ e'.finished := by
  intro e₀ e asked hfit
  have hg : Going numBlocks blockSize e :=
    (Going.init T numBlocks hbs hmax chunkSize rng).leaves torch src T cs hfit
  have hle : e.workLeft ≤ asked := e.workLeft_le
  refine ⟨fun e' hwork hstep => (step_progress torch src T hg.custody hg.queues hg.budget hwork hstep).1,
    fun k e' hk hrun => ?_, fun k hk => ?_⟩
  · obtain ⟨hg', hno⟩ := hg.drain k (hle.trans hk) hrun
    exact ⟨hno, hg'.finished hno⟩
  · obtain ⟨heq, hend⟩ := hg.runUntilDone_eq torch src T k asked (hle.trans hk) hle
    refine ⟨heq, fun e' hres => ?_⟩
    rw [hres] at hend
    obtain ⟨hno, hg'⟩ := hend rfl
    exact ⟨hno, hg'.finished hno⟩

/-- The hypotheses are satisfiable: a short prompt of higher priority and a chunked one. -/
theorem scheduler_progress_two :
    let torch : Torch ℚ := ⟨id, fun _ => []⟩
    let src : Source ℚ Unit := ⟨fun g => (0, g), fun _ g => (0, g)⟩
    let e := leaves torch src sumModel.runner (init sumModel 4 2 2 (some 2) () :
      ContinuousBatchingEngine ℤ ℚ Unit) [.addRequest ⟨[0, 1, 2], 2, .default, none, 0, none⟩,
        .addRequest ⟨[1], 1, .default, none, 5, none⟩, .step]
    e.numPrefillTokens + e.numDecodeTokens = 2 ∧
      (∀ e', e.step torch src sumModel.runner = (.ok (), e') → 2 < e'.numPrefillTokens + e'.numDecodeTokens) ∧
      (e.runUntilDone torch src sumModel.runner 100000).2.finished = [1, 0] ∧
      e.runUntilDone torch src sumModel.runner 100000 = e.runUntilDone torch src sumModel.runner 5 := by
  intro torch src e
  have h := scheduler_progress torch src sumModel 4 (by decide : 1 ≤ 2) (by decide : 1 ≤ 2) (some 2) ()
    [.addRequest ⟨[0, 1, 2], 2, .default, none, 0, none⟩, .addRequest ⟨[1], 1, .default, none, 5, none⟩,
      .step] (by simp [accepted, addRequest]; decide)
  have hcount : e.numPrefillTokens + e.numDecodeTokens = 2 := by decide +kernel
  have hasked :
      (e.queued.map fun r => (e.req r).promptIds.length + max (e.req r).maxNewTokens 1).sum = 5 := by
    decide +kernel
  have hlimit := (h.2.2 100000 (by rw [hasked]; decide)).1
  rw [hasked] at hlimit
  refine ⟨hcount, fun e' hstep => hcount ▸ h.1 e' (by decide +kernel) hstep, ?_, hlimit⟩
  rw [hlimit]
  decide +kernel

end DiSpec
