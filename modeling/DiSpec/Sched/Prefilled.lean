/-
# How many prompt tokens a request prefills

`num_prefill_tokens` counts the prompt tokens of all requests.  The tokens of one request
among them are those of its rows in the batches it is in before it runs (`prefilledIn`), and
`prefilled` adds them up over a run.  A request that was given the KV of its first `n` tokens
starts at `n`, and each chunk starts where the one before ended, so `prefilled` is how far
into its prompt it is (`progress`), less `n`.

All of it holds in any state, whatever the runner computes.
-/

import DiSpec.Sched.Outputs
import Mathlib.Algebra.BigOperators.Group.Finset.Piecewise

namespace DiSpec

open Slice

/-- The request of each row of a batch of slices. -/
theorem Parallel.owners {b : Batch} {sl : List Slice} (h : Parallel b sl) :
    b.owners = sl.flatMap fun s => List.replicate s.len s.req := by
  have hzip : b.batch.zip (b.seqMeta.map SeqMeta.qLen) = sl.map fun s => (s.req, s.len) := by
    rw [h.batch, h.widths, List.zip_map']
  have hflat := congrArg (List.flatMap fun p : ℕ × ℕ => List.replicate p.2 p.1) hzip
  rw [List.zip_map_right, List.flatMap_map, List.flatMap_map] at hflat
  exact hflat

/-- The rows of request `r` among those of slices. -/
theorem count_owners (sl : List Slice) (r : ℕ) :
    (sl.flatMap fun s => List.replicate s.len s.req).count r =
      (sl.map fun s => if s.req = r then s.len else 0).sum := by
  induction sl with
  | nil => rfl
  | cons s sl ih =>
    rw [List.flatMap_cons, List.count_append, ih, List.map_cons, List.sum_cons, List.count_replicate]
    simp only [beq_iff_eq]

/-- A request without a slice has no rows. -/
theorem sum_len_of_notMem {sl : List Slice} {r : ℕ} (hr : r ∉ sl.map Slice.req) :
    (sl.map fun s => if s.req = r then s.len else 0).sum = 0 :=
  List.sum_eq_zero fun x hx => by
    obtain ⟨s, hs, rfl⟩ := List.mem_map.1 hx
    exact if_neg fun heq => hr (List.mem_map.2 ⟨s, hs, heq⟩)

/-- A slice is all that its request has, if no request has two. -/
theorem sum_len_of_nodup {sl : List Slice} (hn : (sl.map Slice.req).Nodup) {s : Slice} (hs : s ∈ sl) :
    (sl.map fun s' => if s'.req = s.req then s'.len else 0).sum = s.len := by
  induction sl with
  | nil => exact absurd hs List.not_mem_nil
  | cons s' sl ih =>
    rw [List.map_cons, List.nodup_cons] at hn
    rw [List.map_cons, List.sum_cons]
    rcases List.mem_cons.1 hs with rfl | hs
    · rw [if_pos rfl, sum_len_of_notMem hn.1, Nat.add_zero]
    · have hne : s'.req ≠ s.req := fun heq => hn.1 (List.mem_map.2 ⟨s, hs, heq.symm⟩)
      rw [if_neg hne, Nat.zero_add]
      exact ih hn.2 hs

namespace ContinuousBatchingEngine

variable {X D R G : Type} {e e₁ e' : ContinuousBatchingEngine D R G} {b : Batch} {dec new : List Slice}
  {r : ℕ}

/-- The prompt tokens of request `r` that the next step takes into its batch. -/
def prefilledIn (e : ContinuousBatchingEngine D R G) (r : ℕ) : ℕ :=
  if r ∈ e.running then 0 else e.schedule.2.2.owners.count r

/-- How far into its prompt a request is. -/
def progress (e : ContinuousBatchingEngine D R G) (r : ℕ) : ℕ :=
  if r ∈ e.waiting then prefixLen (e.req r).prefixKv
  else if r ∈ e.prefilling then (e.req r).prefillPos
  else (e.req r).promptIds.length

/-- What is prefilled is in the slices of phase 2. -/
theorem Schedules.prefilledIn (hs : Schedules e (.ok ()) e₁ b dec new) (hq : Queues e)
    (heq : e.schedule = (.ok (), e₁, b)) (r : ℕ) :
    e.prefilledIn r = (new.map fun s => if s.req = r then s.len else 0).sum := by
  unfold ContinuousBatchingEngine.prefilledIn
  rw [heq]
  split
  next hr =>
    obtain ⟨hnw, hnp, -⟩ := not_mem_of_running hq.nodup hr
    refine (sum_len_of_notMem fun hm => ?_).symm
    obtain ⟨s, hs', rfl⟩ := List.mem_map.1 hm
    exact (hs.takes s hs').elim hnp hnw
  next hr =>
    rw [hs.parallel.owners, count_owners, List.map_append, List.sum_append,
      sum_len_of_notMem fun hm => hr (hs.decodes.subset hm), Nat.zero_add]

/-- **What phase 2 takes into the batch is counted**, request by request. -/
theorem Schedules.sum_prefilledIn (hs : Schedules e (.ok ()) e₁ b dec new) (hq : Queues e)
    (heq : e.schedule = (.ok (), e₁, b)) :
    ∑ r ∈ Finset.range e.nextId, e.prefilledIn r = total new := by
  have hlt : ∀ s ∈ new, s.req < e.nextId := fun s hs' => hq.bound _ <| by
    have := hs.takes s hs'
    simp only [ContinuousBatchingEngine.ids, List.mem_append]
    tauto
  rw [Finset.sum_congr rfl fun r _ => hs.prefilledIn hq heq r]
  clear hs
  induction new with
  | nil => simp [total]
  | cons s new ih =>
    simp only [List.map_cons, List.sum_cons, Finset.sum_add_distrib]
    rw [ih fun s' hs' => hlt s' (List.mem_cons_of_mem _ hs'), Finset.sum_ite_eq,
      if_pos (Finset.mem_range.2 (hlt s List.mem_cons_self)), total, total, List.map_cons, List.sum_cons]

/-! ### One step -/

/-- A request of the queue is where its prefill resumes, inside its prompt. -/
theorem Queues.progress_eq (hq : Queues e) (hr : r ∈ e.prefilling ∨ r ∈ e.waiting) :
    e.progress r = resumeAt (e.req r) ∧ e.progress r ≤ (e.req r).promptIds.length := by
  rw [progress, resumeAt]
  rcases hr with hp | hw
  · obtain ⟨hstate, -, hlt⟩ := hq.prefilling r hp
    rw [if_neg (not_mem_of_prefilling hq.nodup hp).1, if_pos hp, if_neg (by rw [hstate]; decide)]
    exact ⟨rfl, by omega⟩
  · obtain ⟨hstate, -, -, hcover⟩ := hq.waiting r hw
    rw [if_pos hw, if_pos hstate]
    exact ⟨rfl, by omega⟩

/-- **Phases 1 and 2 advance each request** by what they take of its prompt. -/
theorem Schedules.progress (hs : Schedules e (.ok ()) e₁ b dec new) (hq : Queues e)
    (heq : e.schedule = (.ok (), e₁, b)) (r : ℕ) : e₁.progress r = e.progress r + e.prefilledIn r := by
  obtain ⟨hended, hpos, hrest⟩ := hs.resumes rfl
  have hnodup : (new.map Slice.req).Nodup := by
    have := hs.nodup
    rw [List.map_append] at this
    exact this.of_append_right
  rw [hs.prefilledIn hq heq]
  by_cases hr : r ∈ new.map Slice.req
  · obtain ⟨s, hs', rfl⟩ := List.mem_map.1 hr
    obtain ⟨hwas, hle⟩ := hq.progress_eq (hs.takes s hs')
    have hlen : (e₁.req s.req).promptIds.length = (e.req s.req).promptIds.length :=
      congrArg List.length (hs.moves.text _).promptIds
    have hin : s.req ∈ e₁.ids := by
      refine hs.moves.ids.mem_iff.2 ?_
      have := hs.takes s hs'
      simp only [ContinuousBatchingEngine.ids, List.mem_append]
      tauto
    rw [sum_len_of_nodup hnodup hs', hwas]
    cases hsam : s.sampled with
    | true =>
      have hrun : s.req ∈ e₁.running := by
        rw [hs.running]
        exact List.mem_append_right _ (List.mem_map_of_mem (List.mem_filter.2 ⟨hs', hsam⟩))
      obtain ⟨hnw, hnp, -⟩ := not_mem_of_running hs.queues.nodup hrun
      have hend := hended s hs'
      rw [hsam, eq_comm, decide_eq_true_eq] at hend
      rw [ContinuousBatchingEngine.progress, if_neg hnw, if_neg hnp]
      omega
    | false =>
      have hend := hended s hs'
      rw [hsam, eq_comm, decide_eq_false_iff_not] at hend
      have hone := hs.positive s hs'
      have hnr : s.req ∉ e₁.running := fun hm => by
        rw [hs.running] at hm
        rcases List.mem_append.1 hm with hm | hm
        · obtain ⟨hnw, hnp, -⟩ := not_mem_of_running hq.nodup hm
          exact (hs.takes s hs').elim hnp hnw
        · obtain ⟨s', hs'', heq'⟩ := List.mem_map.1 hm
          obtain ⟨hmem, hsam'⟩ := List.mem_filter.1 hs''
          rw [List.inj_on_of_nodup_map hnodup hmem hs' heq', hsam] at hsam'
          cases hsam'
      have hnf : s.req ∉ e₁.finished := fun hm => by
        rw [hs.moves.finished] at hm
        rcases hs.takes s hs' with hp | hw
        · exact (not_mem_of_prefilling hq.nodup hp).2.2 hm
        · exact (not_mem_of_waiting hq.nodup hw).2.2 hm
      have hnw : s.req ∉ e₁.waiting := fun hm => by
        have := (hs.queues.waiting _ hm).2.2.1
        rw [hpos s hs'] at this
        omega
      have hp : s.req ∈ e₁.prefilling := by
        simp only [ContinuousBatchingEngine.ids, List.mem_append] at hin
        tauto
      rw [ContinuousBatchingEngine.progress, if_neg hnw, if_pos hp, hpos s hs']
  · obtain ⟨hreq, hw, hp⟩ := hrest r hr
    rw [sum_len_of_notMem hr, Nat.add_zero, ContinuousBatchingEngine.progress,
      ContinuousBatchingEngine.progress, hreq]
    simp only [hw, hp]

/-- Phases 3 to 5 leave every request where it is in its prompt. -/
theorem Delivers.progress {taken : List (ℕ × ℕ)} {done : List ℕ} (hd : Delivers e₁ e' taken done)
    (hq : Queues e₁) (r : ℕ) : e'.progress r = e₁.progress r := by
  have hprompt : (e'.req r).promptIds = (e₁.req r).promptIds := (hd.text r).promptIds
  unfold ContinuousBatchingEngine.progress
  rw [hd.waiting, hd.prefilling, hprompt]
  split
  next hw => rw [hd.others r (not_mem_of_waiting hq.nodup hw).2.1]
  next =>
    split
    next hp => rw [hd.others r (not_mem_of_prefilling hq.nodup hp).2.1]
    next => rfl

variable [Field R] [LinearOrder R] {torch : Torch R} {src : Source R G} {runner : ModelRunner X D R}

/-- **A step that returns** advances each request by what it prefills of it, and counts that. -/
theorem step_prefilled (hq : Queues e) (hstep : e.step torch src runner = (.ok (), e')) :
    (∀ r, e'.progress r = e.progress r + e.prefilledIn r) ∧
      e'.numPrefillTokens = e.numPrefillTokens + ∑ r ∈ Finset.range e.nextId, e.prefilledIn r ∧
      ∀ r, e.nextId ≤ r → e.prefilledIn r = 0 := by
  obtain ⟨res, e₁, b, dec, new, heq, hs⟩ := schedule_any hq
  rw [step, heq] at hstep
  cases res with
  | error x => cases hstep
  | ok =>
    obtain ⟨taken, done, hd⟩ : ∃ taken done, Delivers e₁ e' taken done := by
      by_cases hb : b.batch = []
      · simp only [if_pos hb] at hstep
        obtain rfl := (Prod.mk.inj hstep).2
        exact ⟨[], [], .none e₁ e₁.cache e₁.numSteps⟩
      · simp only [if_neg hb] at hstep
        obtain ⟨-, hrunning⟩ := hs.toSample_running
        rw [← hs.sampleBatch] at hrunning
        obtain ⟨res, e₂, taken, done, hexec, hd, -, -⟩ := execute_any torch src runner e₁ hrunning
        obtain ⟨rfl, rfl⟩ := Prod.mk.inj (hstep.symm.trans hexec)
        exact ⟨taken, done, hd⟩
    refine ⟨fun r => (hd.progress hs.queues r).trans (hs.progress hq heq r), ?_, fun r hr => ?_⟩
    · rw [hd.numPrefillTokens, hs.numPrefillTokens, hs.sum_prefilledIn hq heq]
    · rw [hs.prefilledIn hq heq]
      refine List.sum_eq_zero fun x hx => ?_
      obtain ⟨s, hs', rfl⟩ := List.mem_map.1 hx
      refine if_neg fun hreq => ?_
      have hlt := hq.bound s.req (by
        have := hs.takes s hs'
        simp only [ContinuousBatchingEngine.ids, List.mem_append]
        tauto)
      omega

/-! ### Runs -/

/-- The prompt tokens of request `r` that a run prefills. -/
def prefilled (torch : Torch R) (src : Source R G) (runner : ModelRunner X D R) :
    ContinuousBatchingEngine D R G → List (Call D R) → ℕ → ℕ
  | _, [], _ => 0
  | e, .addRequest s :: cs, r => prefilled torch src runner (e.addRequest s).2 cs r
  | e, .step :: cs, r => e.prefilledIn r + prefilled torch src runner (e.step torch src runner).2 cs r

/-- What holds after a run that submitted `subs` and prefilled `count r` tokens of request `r`. -/
structure Prefilled (subs : List (Submission D R)) (count : ℕ → ℕ) (e : ContinuousBatchingEngine D R G) :
    Prop where
  queues : Queues e
  submitted : Submitted subs e
  progress : ∀ (r : ℕ) s, subs[r]? = some s → e.progress r = prefixLen s.prefixKv + count r
  numPrefillTokens : e.numPrefillTokens = ∑ r ∈ Finset.range e.nextId, count r
  unborn : ∀ r, e.nextId ≤ r → count r = 0

variable {subs : List (Submission D R)} {count : ℕ → ℕ}

omit [Field R] [LinearOrder R] in
theorem Prefilled.submit (h : Prefilled subs count e) {s : Submission D R}
    (heq : e.addRequest s = (.ok r, e')) : Prefilled (subs ++ [s]) count e' := by
  have hq := h.queues.submit s
  have hsub := (h.submitted.submit heq).1
  rw [heq] at hq
  rcases addRequest_spec e s with ⟨msg, herr⟩ | ⟨hok, -⟩
  · rw [herr] at heq
    cases heq
  obtain rfl := (Prod.mk.inj (hok.symm.trans heq)).2
  have hcount := h.submitted.count
  refine ⟨hq, hsub, fun r' s' hs' => ?_, ?_, fun r' hr' => h.unborn r' ?_⟩
  · show (if r' ∈ e.waiting ++ [e.nextId] then prefixLen (Function.update e.req e.nextId _ r').prefixKv
      else if r' ∈ e.prefilling then (Function.update e.req e.nextId _ r').prefillPos
      else (Function.update e.req e.nextId _ r').promptIds.length) = _
    have hlt := (List.getElem?_eq_some_iff.1 hs').1
    rw [List.length_append, List.length_singleton] at hlt
    rcases eq_or_ne r' e.nextId with rfl | hne
    · rw [hcount, List.getElem?_concat_length] at hs'
      obtain rfl := Option.some.inj hs'
      rw [if_pos (by simp), Function.update_self, h.unborn _ le_rfl]
      rfl
    · rw [List.getElem?_append_left (by omega)] at hs'
      rw [Function.update_of_ne hne, ← h.progress r' s' hs', ContinuousBatchingEngine.progress]
      simp only [List.mem_append, List.mem_singleton, hne, or_false]
  · show e.numPrefillTokens = ∑ r ∈ Finset.range (e.nextId + 1), count r
    rw [Finset.sum_range_succ, h.unborn _ le_rfl, Nat.add_zero, h.numPrefillTokens]
  · have : e.nextId + 1 ≤ r' := hr'
    omega

theorem Prefilled.step (h : Prefilled subs count e) (hstep : e.step torch src runner = (.ok (), e')) :
    Prefilled subs (fun r => count r + e.prefilledIn r) e' := by
  obtain ⟨hprog, hnum, hzero⟩ := step_prefilled h.queues hstep
  obtain ⟨res, e₂, taken, done, heq, hs⟩ := step_any torch src runner h.queues
  obtain ⟨rfl, rfl⟩ := Prod.mk.inj (hstep.symm.trans heq)
  refine ⟨hs.queues, h.submitted.step hs, fun r s hr => ?_, ?_, fun r hr => ?_⟩
  · rw [hprog, h.progress r s hr, Nat.add_assoc]
  · rw [hnum, h.numPrefillTokens, hs.nextId, ← Finset.sum_add_distrib]
  · rw [hs.nextId] at hr
    rw [h.unborn r hr, hzero r hr]

/-- **A run** none of whose calls raises. -/
theorem Prefilled.run (h : Prefilled subs count e) (cs : List (Call D R))
    (hrun : calls torch src runner e cs = .ok e') :
    Prefilled (subs ++ submissions cs) (fun r => count r + prefilled torch src runner e cs r) e' := by
  induction cs generalizing e subs count with
  | nil =>
    obtain rfl := Except.ok.inj hrun
    rw [submissions, List.append_nil]
    exact h
  | cons c cs ih =>
    cases c with
    | addRequest s =>
      rw [calls] at hrun
      rcases hres : e.addRequest s with ⟨x | r, e₁⟩
      · rw [hres] at hrun
        cases hrun
      · rw [hres] at hrun
        have := ih (h.submit hres) hrun
        rw [List.append_assoc] at this
        simp only [prefilled, hres]
        exact this
    | step =>
      rw [calls] at hrun
      rcases hres : e.step torch src runner with ⟨x | ⟨⟩, e₁⟩
      · rw [hres] at hrun
        cases hrun
      · rw [hres] at hrun
        have := ih (h.step hres) hrun
        simp only [prefilled, hres, ← Nat.add_assoc]
        exact this

end ContinuousBatchingEngine
end DiSpec
