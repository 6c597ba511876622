/-
# Nobody waits forever

A request is finished after as many steps as the requests ahead of it may still be given
tokens, whatever arrives in the meantime, as long as what arrives stands behind it.

`Leads` is what a set `A` of requests keeps against later ones: it stands before them in both
queues, no later one is admitted while one of `A` waits, and the later ones that run leave
at least one token of the budget.  The last is the point.  A later request starts to run only
in a step that has given something to each of `A` (`Leads.schedule`), so there is always room for one of
them, and every step takes tokens off `A` (`Leads.scheduled`).
-/

import DiSpec.Sched.Budget
import DiSpec.Sched.Priority
import DiSpec.Sched.Progress

namespace DiSpec

open Slice

namespace ContinuousBatchingEngine

variable {X D R G : Type} {e e' : ContinuousBatchingEngine D R G} {b : Batch} {r r' : ℕ}

/-! ### The order of the prefilling queue -/

theorem importPrefix_queues (e : ContinuousBatchingEngine D R G) (b : Batch) (r : ℕ) (t : BlockTable) :
    (e.importPrefix b r t).2.1.prefilling = e.prefilling ∧
      ∀ r', r' ≠ r → (e.importPrefix b r t).2.1.req r' = e.req r' := by
  unfold importPrefix
  split
  · exact ⟨rfl, fun _ _ => rfl⟩
  · split
    · exact ⟨rfl, fun _ _ => rfl⟩
    · exact ⟨rfl, fun r' hne => Function.update_of_ne hne _ _⟩

/-- Admission puts a waiting request at the end. -/
theorem admitRequest_queues (e : ContinuousBatchingEngine D R G) (b : Batch) (r : ℕ) :
    ((e.admitRequest b r).2.1.prefilling.Sublist
        (e.prefilling ++ if (e.req r).state = .WAITING then [r] else [])) ∧
      ∀ r', r' ≠ r → (e.admitRequest b r).2.1.req r' = e.req r' := by
  unfold admitRequest
  by_cases hw : (e.req r).state = .WAITING
  swap
  · rw [if_pos hw, if_neg hw, List.append_nil]
    exact ⟨.refl _, fun _ _ => rfl⟩
  rw [if_neg (not_not.2 hw), if_pos hw]
  split
  · split <;> exact ⟨List.sublist_append_left _ _, fun _ _ => rfl⟩
  next table m halloc =>
    have himp := importPrefix_queues (e.setManager (m.setTable r { table with numTokens := 0 })) b r
      { table with numTokens := 0 }
    dsimp only
    split
    next heq =>
      rw [heq] at himp
      exact ⟨himp.1 ▸ List.sublist_append_left _ _, himp.2⟩
    next e₁ b₁ heq =>
      rw [heq] at himp
      have hreq : ∀ r', r' ≠ r → (e₁.setReq r { e₁.req r with state := .PREFILLING }).req r' = e.req r' :=
        fun r' hne => (Function.update_of_ne hne _ _).trans (himp.2 r' hne)
      split
      · exact ⟨himp.1 ▸ List.sublist_append_left _ _, hreq⟩
      · refine ⟨?_, hreq⟩
        show (e₁.prefilling ++ [r]).Sublist _
        rw [himp.1]
        exact .refl _

/-- A chunk takes a request out at most. -/
theorem prefillChunk_queues (e : ContinuousBatchingEngine D R G) (b : Batch) (r : ℕ) :
    ((e.prefillChunk b r).2.1.prefilling.Sublist e.prefilling) ∧
      ∀ r', r' ≠ r → (e.prefillChunk b r).2.1.req r' = e.req r' := by
  unfold prefillChunk
  split
  · exact ⟨.refl _, fun _ _ => rfl⟩
  dsimp only
  split
  · exact ⟨.refl _, fun _ _ => rfl⟩
  split
  · unfold remove
    split
    · exact ⟨.refl _, fun r' hne => Function.update_of_ne hne _ _⟩
    next heq =>
      split at heq
      · obtain rfl := Except.ok.inj heq
        exact ⟨List.erase_sublist, fun r' hne => Function.update_of_ne hne _ _⟩
      · cases heq
  · exact ⟨.refl _, fun r' hne => Function.update_of_ne hne _ _⟩

/-- **The prefilling queue after phase 2** is in the order of the queue that phase 2 went over. -/
theorem prefillLoop_prefilling (rs : List ℕ) (e : ContinuousBatchingEngine D R G) (b : Batch) (hn : rs.Nodup) :
    (e.prefillLoop b rs).2.1.prefilling.Sublist
      (e.prefilling ++ rs.filter fun r => (e.req r).state = .WAITING) := by
  induction rs generalizing e b with
  | nil =>
    rw [List.filter_nil, List.append_nil]
    exact .refl _
  | cons r rs ih =>
    rw [List.nodup_cons] at hn
    have hadm := admitRequest_queues e b r
    have hfirst : (e.prefilling ++ if (e.req r).state = .WAITING then [r] else []).Sublist
        (e.prefilling ++ (r :: rs).filter fun r => (e.req r).state = .WAITING) := by
      refine List.Sublist.append_left ?_ _
      by_cases hw : (e.req r).state = .WAITING
      · simp [hw]
      · simp [hw]
    rw [prefillLoop]
    split
    · exact List.sublist_append_left _ _
    split
    next heq =>
      rw [heq] at hadm
      exact hadm.1.trans hfirst
    next heq =>
      rw [heq] at hadm
      exact hadm.1.trans hfirst
    next e₁ b₁ heq =>
      rw [heq] at hadm
      have hchunk := prefillChunk_queues e₁ b₁ r
      split
      next heq' =>
        rw [heq'] at hchunk
        exact (hchunk.1.trans hadm.1).trans hfirst
      next e₂ b₂ heq' =>
        rw [heq'] at hchunk
        have hrest := ih e₂ b₂ hn.2
        have hsame : (rs.filter fun r => (e₂.req r).state = .WAITING) =
            rs.filter fun r => (e.req r).state = .WAITING := by
          refine List.filter_congr fun r' hr' => ?_
          have hne : r' ≠ r := fun h => hn.1 (h ▸ hr')
          rw [hchunk.2 r' hne, hadm.2 r' hne]
        rw [hsame] at hrest
        refine hrest.trans (((hchunk.1.trans hadm.1).append_right _).trans ?_)
        rw [List.append_assoc]
        refine List.Sublist.append_left ?_ _
        by_cases hw : (e.req r).state = .WAITING
        · simp [hw]
        · simp [hw]

/-- **What phases 1 and 2 do to the queues**, raising or not: the slices `new` are of the first requests of
the queue, which stays in its order; and they come out of what decoding left of the budget. -/
structure Serves (e : ContinuousBatchingEngine D R G) (res : Except Exc Unit)
    (e₁ : ContinuousBatchingEngine D R G) (b : Batch) (dec new : List Slice) : Prop
    extends Schedules e res e₁ b dec new where
  line : new.map Slice.req <+: e.prefilling ++ e.admissionQueue
  prefilling : e₁.prefilling.Sublist (e.prefilling ++ e.admissionQueue)
  budget : dec.length + total new ≤ e.maxBatchTokens
  decoded : res = .ok () ∨ new ≠ [] → dec.map Slice.req = e.decoding
  stuck : res = .ok () → new = [] → dec.length < e.maxBatchTokens →
    ∀ r ∈ (e.prefilling ++ e.admissionQueue).head?, r ∈ e.waiting ∧
      (e.running = [] → e.cache.manager.freeList.length < e.blocksToAdmit (e.req r))

theorem schedule_serves (h : Queues e) :
    ∃ res e₁ b dec new, e.schedule = (res, e₁, b) ∧ Serves e res e₁ b dec new := by
  rcases schedule_phases h with ⟨x, e₁, b, dec, heq, hdec⟩ |
    ⟨res, e₂, b₂, e', b', dec, new, heq, hbt, hloop, hnew⟩
  · obtain ⟨m, hframe⟩ := hdec.frame
    have hbudget := hdec.budget
    refine ⟨.error x, e₁, b, dec, [], heq, hdec.schedules h, List.nil_prefix, ?_, ?_, by simp, by simp⟩
    · rw [hframe]
      exact List.sublist_append_left _ _
    · rw [show e.emptyBatch.budget = e.maxBatchTokens from rfl] at hbudget
      simp only [total, List.map_nil, List.sum_nil]
      omega
  have hqueue : e₂.waiting = e.admissionQueue := hbt.waiting
  have hpre := prefillLoop_prefilling (e₂.prefilling ++ e₂.waiting) e₂ b₂ hbt.turns
  have hspend := (prefillLoop_spends (e₂.prefilling ++ e₂.waiting) e₂ b₂).budget
  rw [hloop] at hpre hspend
  dsimp only at hpre hspend
  have hone : total dec = dec.length := by
    rw [total, List.map_congr_left fun s hs => (hbt.one s hs).1]
    simp
  refine ⟨res, e', b', dec, new, heq, hbt.schedules h hnew, ?_, hpre.trans ?_, ?_, fun _ => hbt.reqs,
    fun hres hnil hlt r hr => ?_⟩
  · rw [← hbt.prefilling, ← hqueue]
    exact hnew.reqs
  · -- a request that prefills does not wait
    rw [List.filter_append, List.filter_eq_nil_iff.2 fun r hr => ?_, List.nil_append, hbt.prefilling, hqueue]
    · exact List.filter_sublist.append_left _
    · rw [(hbt.queues.prefilling r hr).1]
      simp
  · have hcur := (hnew.parallel dec hbt.parallel).cursor
    have hcur₂ := hbt.parallel.cursor
    have hbud := hbt.budget
    rw [total_append, hone] at hcur
    rw [hone] at hcur₂
    omega
  · have hbud : 1 ≤ b₂.budget := by
      have := hbt.budget
      omega
    rw [← hbt.prefilling, ← hqueue] at hr
    have hfew := hnew.stuck hres hnil hbud r hr
    have hneed : e₂.blocksToAdmit (e₂.req r) = e.blocksToAdmit (e.req r) := by
      unfold blocksToAdmit
      rw [hbt.req, BlockManager.blocksNeeded_congr hbt.moves.blockSize]
    rw [hneed] at hfew
    have hmem := List.mem_of_mem_head? hr
    constructor
    · rcases List.mem_append.1 hmem with hp | hw
      · rw [hbt.prefilling] at hp
        rw [blocksToAdmit, if_neg (by rw [(h.prefilling r hp).1]; decide)] at hfew
        omega
      · exact mem_admissionQueue.1 (hqueue ▸ hw)
    · intro hrun
      have hfree := hbt.freeList
      rw [decoding, hrun, List.take_nil, List.countP_nil, Nat.add_zero] at hfree
      rwa [hfree]

/-! ### Those in front -/

/-- **`A` leads**: its requests stand in front of all others, in the waiting queue even of those still to
come with a priority in `P`; no other is admitted while one of them waits, and those others that run
leave a token of the budget. -/
structure Leads (A : ℕ → Prop) [DecidablePred A] (P : ℤ → Prop) (e : ContinuousBatchingEngine D R G) :
    Prop where
  waiting : ∀ a ∈ e.waiting, A a → ∀ x ∈ e.waiting, ¬A x → e.Before a x
  arrivals : ∀ a ∈ e.waiting, A a → ∀ p, P p → p ≤ (e.req a).priority
  admitted : (∃ a ∈ e.waiting, A a) → ∀ x, x ∈ e.prefilling ∨ x ∈ e.running → A x
  prefilling : e.prefilling.Pairwise fun x y => A y → A x
  running : e.running.countP (fun x => ¬A x) < e.maxBatchTokens

section

variable {A : ℕ → Prop} [DecidablePred A] {P : ℤ → Prop} {e₁ : ContinuousBatchingEngine D R G}
  {res : Except Exc Unit} {dec new : List Slice} {n : ℕ}

/-- The queue of phase 2 has `A` in front. -/
theorem Leads.line (h : Leads A P e) (hq : Queues e) :
    (e.prefilling ++ e.admissionQueue).Pairwise fun x y => A y → A x := by
  refine List.pairwise_append.2 ⟨h.prefilling, ?_, fun x hx y hy hA => ?_⟩
  · refine (List.pairwise_iff_forall_sublist.2 fun {x y} hsub hA => ?_)
    have hx := mem_admissionQueue.1 (hsub.subset List.mem_cons_self)
    have hy := mem_admissionQueue.1 (hsub.subset (List.mem_cons_of_mem _ List.mem_cons_self))
    have hxy := (List.pairwise_iff_forall_sublist.1 (admissionQueue_before hq)) hsub
    by_contra hnot
    exact hxy.asymm (h.waiting y hy hA x hx hnot)
  · exact h.admitted ⟨y, mem_admissionQueue.1 hy, hA⟩ x (Or.inl hx)

omit [DecidablePred A] in
theorem countP_add_not (A : ℕ → Prop) [DecidablePred A] (l : List ℕ) :
    l.countP (fun x => A x) + l.countP (fun x => ¬A x) = l.length := by
  have h := List.length_eq_countP_add_countP (fun x => decide (A x)) (l := l)
  simp only [decide_eq_true_eq] at h
  exact h.symm

/-- Who is in front of somebody served is served. -/
theorem mem_of_prefix {α : Type} {p : α → α → Prop} {l rs : List α} (hpre : l <+: rs) (hp : rs.Pairwise p)
    {x y : α} (hx : x ∈ l) (hy : y ∈ rs) (hxy : ¬p x y) : y ∈ l := by
  obtain ⟨t, rfl⟩ := hpre
  rcases List.mem_append.1 hy with hy | hy
  · exact hy
  · exact absurd ((List.pairwise_append.1 hp).2.2 x hx y hy) hxy

/-- A slice of a later request comes after one of every request of `A` in the queue. -/
theorem Leads.served (h : Leads A P e) (hq : Queues e) (hs : Serves e res e₁ b dec new) {x a : ℕ}
    (hx : x ∈ new.map Slice.req) (hnot : ¬A x) (ha : a ∈ e.prefilling ∨ a ∈ e.waiting) (hA : A a) :
    a ∈ new.map Slice.req :=
  mem_of_prefix hs.line (h.line hq) hx
    (List.mem_append.2 (ha.imp id mem_admissionQueue.2)) fun hp => hnot (hp hA)

/-- **The later requests that run leave room**, after phases 1 and 2: one that joins them does so in a
step that gave a token to each of `A`. -/
theorem Leads.room (h : Leads A P e) (hq : Queues e) (hs : Serves e res e₁ b dec new)
    {a : ℕ} (ha : a ∈ e.queued) (hA : A a) :
    e₁.running.countP (fun x => ¬A x) < e.maxBatchTokens := by
  rw [hs.running, List.countP_append]
  set joins := (new.filter fun s => s.sampled).map Slice.req with hjoins
  have hsub : joins.Sublist (new.map Slice.req) := List.filter_sublist.map _
  by_cases hlate : ∃ x ∈ joins, ¬A x
  swap
  · have hnone : joins.countP (fun x => ¬A x) = 0 := List.countP_eq_zero.2 fun x hx => by
      simpa using fun hnot => hlate ⟨x, hx, hnot⟩
    rw [hnone, Nat.add_zero]
    exact h.running
  obtain ⟨x, hx, hnot⟩ := hlate
  have hxnew := hsub.subset hx
  have hnew : new ≠ [] := by
    rintro rfl
    exact List.not_mem_nil hxnew
  -- all that run were decoded, as some of the budget was left
  have hlen : new.length ≤ total new := length_le_total hs.positive
  have hpos : 0 < new.length := List.length_pos_iff.2 hnew
  have hbudget := hs.budget
  have hdec : dec.length = e.running.length := by
    have hreqs := congrArg List.length (hs.decoded (Or.inr hnew))
    rw [List.length_map, decoding, List.length_take] at hreqs
    omega
  have hall := countP_add_not A e.running
  have hnewall := countP_add_not A (new.map Slice.req)
  rw [List.length_map] at hnewall
  have hjoin : joins.countP (fun x => ¬A x) ≤ (new.map Slice.req).countP (fun x => ¬A x) :=
    hsub.countP_le
  have hsome : 0 < e.running.countP (fun x => A x) + (new.map Slice.req).countP (fun x => A x) := by
    by_cases hrun : a ∈ e.running
    · have := List.countP_pos_iff (p := fun x => decide (A x)).2 ⟨a, hrun, decide_eq_true hA⟩
      omega
    · have hqueue : a ∈ e.prefilling ∨ a ∈ e.waiting := by
        simp only [queued, List.mem_append] at ha
        exact (ha.resolve_right hrun).symm
      have := List.countP_pos_iff (p := fun x => decide (A x)).2
        ⟨a, h.served hq hs hxnew hnot hqueue hA, decide_eq_true hA⟩
      omega
  omega

end

section

variable [Zero D] [Add X] [Field R] [LinearOrder R]

/-- **A step by its parts**, raising or not; if it returns, each sampled request has got a token. -/
theorem step_serves (torch : Torch R) (src : Source R G) (T : Transformer X D R) {n : ℕ} (hq : Queues e)
    (hc : Custody n e) :
    ∃ res e' res₁ e₁ b dec new taken done, e.step torch src T.runner = (res, e') ∧
      e.schedule = (res₁, e₁, b) ∧ Serves e res₁ e₁ b dec new ∧ Delivers e₁ e' taken done ∧
      (res = .ok () → res₁ = .ok () ∧ ∀ r ∈ sampleBatch b,
        (e'.req r).outputIds.length = (e₁.req r).outputIds.length + 1) := by
  obtain ⟨res₁, e₁, b, dec, new, heq, hs⟩ := schedule_serves hq
  rw [step, heq]
  cases res₁ with
  | error x => exact ⟨_, e₁, _, e₁, b, dec, new, [], [], rfl, rfl, hs, .none e₁ e₁.cache e₁.numSteps, by simp⟩
  | ok =>
    by_cases hb : b.batch = []
    · refine ⟨_, e₁, _, e₁, b, dec, new, [], [], if_pos hb, rfl, hs, .none e₁ e₁.cache e₁.numSteps,
        fun _ => ⟨rfl, fun r hr => ?_⟩⟩
      rw [sampleBatch, hb] at hr
      exact absurd hr List.not_mem_nil
    · obtain ⟨hnodup, hrunning⟩ := hs.toSample_running
      rw [← hs.sampleBatch] at hnodup hrunning
      obtain ⟨res, e', taken, done, hexec, hd, -, -⟩ := execute_any torch src T.runner e₁ hrunning
      obtain ⟨res', e'', hexec', -, -, hgot⟩ := execute_custody torch src T (hs.custody hc) hs.queues hnodup
        hrunning hs.length_lastIdx
      obtain ⟨rfl, rfl⟩ := Prod.mk.inj (hexec.symm.trans hexec')
      exact ⟨res, e', _, e₁, b, dec, new, taken, done, (if_neg hb).trans hexec, rfl, hs, hd,
        fun hres => ⟨rfl, hgot hres⟩⟩

variable {A : ℕ → Prop} [DecidablePred A] {P : ℤ → Prop} {n : ℕ}

omit [Zero D] [Add X] [Field R] [LinearOrder R] in
/-- **`A` goes on leading** through a step, raising or not, before which one of it is unfinished. -/
theorem Leads.delivers (h : Leads A P e) (hq : Queues e) {res₁ : Except Exc Unit}
    {e₁ : ContinuousBatchingEngine D R G} {dec new : List Slice} {taken : List (ℕ × ℕ)} {done : List ℕ}
    (heq : e.schedule = (res₁, e₁, b)) (hs : Serves e res₁ e₁ b dec new) (hd : Delivers e₁ e' taken done)
    {a : ℕ} (ha : a ∈ e.queued) (hA : A a) : Leads A P e' := by
  obtain ⟨k, hwait, -⟩ := schedule_line hq
  rw [heq] at hwait
  dsimp only at hwait
  rw [← hd.waiting] at hwait
  have hmoves := hs.moves
  have hprio : ∀ r, (e'.req r).priority = (e.req r).priority := fun r =>
    (hd.text r).priority.trans (hmoves.text r).priority
  have hid : ∀ r, (e'.req r).id = (e.req r).id := fun r => (hd.text r).id.trans (hmoves.text r).id
  have hold : ∀ r ∈ e'.waiting, r ∈ e.waiting := fun r hr => ((hwait r).1 hr).1
  refine ⟨fun a ha hA x hx hnot => ?_, fun a ha hA p hp => ?_, fun hsome x hx => ?_, ?_, ?_⟩
  · have hb := h.waiting a (hold a ha) hA x (hold x hx) hnot
    unfold Before at hb ⊢
    rwa [hprio, hprio, hid, hid]
  · rw [hprio]
    exact h.arrivals a (hold a ha) hA p hp
  · obtain ⟨a, ha, hA⟩ := hsome
    obtain ⟨hin, hout⟩ := (hwait a).1 ha
    rw [hd.prefilling] at hx
    have hx₁ : x ∈ e₁.prefilling ∨ x ∈ e₁.running := hx.imp id fun hrun =>
      hd.running.subset (List.mem_append_left _ hrun)
    have hids : x ∈ e.ids := hmoves.ids.mem_iff.1 (by
      rcases hx₁ with hp | hrun
      · simp [ids, hp]
      · simp [ids, hrun])
    by_contra hnot
    have hnw : x ∉ e₁.waiting := fun hw => by
      obtain ⟨hnp, hnr, -⟩ := not_mem_of_waiting hs.queues.nodup hw
      exact hx₁.elim hnp hnr
    simp only [ids, List.mem_append] at hids
    rcases hids with ((hw | hp) | hrun) | hfin
    · -- admitted in this step, so everything before it was
      have htake : x ∈ e.admissionQueue.take k := by
        by_contra hnt
        exact hnw (hd.waiting ▸ (hwait x).2 ⟨hw, hnt⟩)
      exact hout (mem_take_of_before hq hin (h.waiting a hin hA x hw hnot) htake)
    · exact hnot (h.admitted ⟨a, hin, hA⟩ x (Or.inl hp))
    · exact hnot (h.admitted ⟨a, hin, hA⟩ x (Or.inr hrun))
    · rw [← hmoves.finished] at hfin
      have hdup := hs.queues.nodup
      unfold ids at hdup
      rw [List.nodup_append] at hdup
      refine hdup.2.2 x ?_ x hfin rfl
      rcases hx₁ with hp | hrun
      · exact List.mem_append_left _ (List.mem_append_right _ hp)
      · exact List.mem_append_right _ hrun
  · rw [hd.prefilling]
    exact (h.line hq).sublist hs.prefilling
  · rw [hd.maxBatchTokens, hmoves.maxBatchTokens]
    refine lt_of_le_of_lt ?_ (h.room hq hs ha hA)
    rw [← hd.running.countP_eq, List.countP_append]
    exact Nat.le_add_right _ _

omit [Zero D] [Add X] [Field R] [LinearOrder R] in
/-- **One of `A` is scheduled** in every step that gets through phases 1 and 2. -/
theorem Leads.scheduled (h : Leads A P e) (hq : Queues e) (hc : Custody n e)
    {e₁ : ContinuousBatchingEngine D R G} {dec new : List Slice} (hs : Serves e (.ok ()) e₁ b dec new)
    {a : ℕ} (ha : a ∈ e.queued) (hA : A a) : ∃ s ∈ dec ++ new, A s.req := by
  have hreqs := hs.decoded (Or.inl rfl)
  suffices hin : ∃ r ∈ dec.map Slice.req ++ new.map Slice.req, A r by
    obtain ⟨r, hr, hAr⟩ := hin
    rw [← List.map_append] at hr
    obtain ⟨s, hs', rfl⟩ := List.mem_map.1 hr
    exact ⟨s, hs', hAr⟩
  by_contra hnone
  have hdecno : ∀ r ∈ e.decoding, ¬A r := fun r hr hAr =>
    hnone ⟨r, List.mem_append_left _ (hreqs ▸ hr), hAr⟩
  have hlen : dec.length = min e.maxBatchTokens e.running.length := by
    rw [← List.length_map Slice.req, hreqs]
    exact List.length_take
  -- all that is decoded is later, so there is room in the budget and all that runs is later
  have hlate : e.decoding.length ≤ e.running.countP (fun x => ¬A x) := by
    have hcount : e.decoding.countP (fun x => ¬A x) = e.decoding.length :=
      List.countP_eq_length.2 fun r hr => decide_eq_true (hdecno r hr)
    rw [← hcount]
    exact (List.take_sublist _ _).countP_le
  have hroom : dec.length < e.maxBatchTokens := by
    rw [← List.length_map Slice.req, hreqs]
    exact hlate.trans_lt h.running
  have hrunno : ∀ r ∈ e.running, ¬A r := fun r hr => hdecno r (by
    rw [decoding, List.take_of_length_le (by omega)]
    exact hr)
  have hqueue : a ∈ e.prefilling ++ e.admissionQueue := by
    simp only [queued, List.mem_append] at ha
    rcases ha with (hw | hp) | hrun
    · exact List.mem_append_right _ (mem_admissionQueue.2 hw)
    · exact List.mem_append_left _ hp
    · exact absurd hA (hrunno a hrun)
  -- the head of the queue is of `A`
  obtain ⟨r, rs, hhead⟩ := List.exists_cons_of_ne_nil (List.ne_nil_of_mem hqueue)
  have hAr : A r := by
    have hline := h.line hq
    rw [hhead] at hline hqueue
    rcases List.mem_cons.1 hqueue with rfl | hm
    · exact hA
    · exact List.rel_of_pairwise_cons hline hm hA
  rcases eq_or_ne new [] with hnil | hne
  · obtain ⟨hw, hfew⟩ := hs.stuck rfl hnil hroom r (by rw [hhead]; rfl)
    -- nothing is admitted besides `A`, so with nothing of it running all blocks are free
    have hadm := h.admitted ⟨r, hw, hAr⟩
    have hrun : e.running = [] := List.eq_nil_iff_forall_not_mem.2 fun x hx =>
      hrunno x hx (hadm x (Or.inr hx))
    have hp : e.prefilling = [] := by
      by_contra hp
      obtain ⟨x, xs, hx⟩ := List.exists_cons_of_ne_nil hp
      rw [hx, List.cons_append] at hhead
      obtain ⟨rfl, -⟩ := List.cons.inj hhead
      exact (not_mem_of_waiting hq.nodup hw).1 (hx ▸ List.mem_cons_self)
    have hfree := hc.accounted.free_all fun r' => by
      cases hlook : e.cache.manager.tables.lookup r' with
      | none => rfl
      | some t =>
        have hin := (hc.table r').1 ⟨t, hlook⟩
        rw [hp, hrun] at hin
        simp at hin
    have hfew := hfew hrun
    rw [hfree, hc.numBlocks, blocksToAdmit, if_pos (hq.waiting r hw).1] at hfew
    exact absurd (hc.prompts r (Or.inr hw)).2 (not_le.2 hfew)
  · obtain ⟨s, rest, rfl⟩ := List.exists_cons_of_ne_nil hne
    have hline := hs.line
    rw [hhead, List.map_cons] at hline
    obtain ⟨rfl, -⟩ := List.cons_prefix_cons.1 hline
    exact hnone ⟨s.req, List.mem_append_right _ List.mem_cons_self, hAr⟩

/-! ### What is owed to those in front -/

omit [Zero D] [Add X] [Field R] [LinearOrder R] in
/-- The tokens that the requests of a list may still be given. -/
def owed (e : ContinuousBatchingEngine D R G) (as : List ℕ) : ℕ :=
  (as.map fun a => if a ∈ e.finished then 0 else e.tokensLeft a).sum

variable {as : List ℕ} {numBlocks blockSize : ℕ}

omit [Zero D] [Add X] [Field R] [LinearOrder R] in
/-- Nothing is owed to requests that are finished, and something to each that is not. -/
theorem Going.owed_eq_zero_iff (h : Going numBlocks blockSize e) (has : ∀ a ∈ as, a ∈ e.ids) :
    e.owed as = 0 ↔ ∀ a ∈ as, a ∈ e.finished := by
  rw [owed, List.sum_eq_zero_iff]
  constructor
  · intro hall a ha
    by_contra hnot
    have hq : a ∈ e.queued := (List.mem_append.1 (has a ha)).resolve_right hnot
    have hpos := h.custody.tokensLeft_pos h.queues hq
    have hzero := hall _ (List.mem_map_of_mem ha)
    rw [if_neg hnot] at hzero
    omega
  · intro hall x hx
    obtain ⟨a, ha, rfl⟩ := List.mem_map.1 hx
    exact if_pos (hall a ha)

/-- **A step that returns pays** something to one of those in front, and one that raises takes nothing
back. -/
theorem Leads.pays (h : Leads (· ∈ as) P e) (torch : Torch R) (src : Source R G) (T : Transformer X D R)
    (hq : Queues e) (hc : Custody n e) {a : ℕ} (ha : a ∈ as) (hqueued : a ∈ e.queued) :
    Leads (· ∈ as) P (e.step torch src T.runner).2 ∧
      (e.step torch src T.runner).2.owed as ≤ e.owed as ∧
      ((e.step torch src T.runner).1 = .ok () → (e.step torch src T.runner).2.owed as < e.owed as) := by
  obtain ⟨res, e', res₁, e₁, b, dec, new, taken, done, heq, hsched, hs, hd, hok⟩ :=
    step_serves torch src T hq hc
  rw [heq]
  have hfin : e'.finished = e.finished ++ done := by rw [hd.finished, hs.moves.finished]
  have hle : ∀ a ∈ as, (if a ∈ e'.finished then 0 else e'.tokensLeft a) ≤
      if a ∈ e.finished then 0 else e.tokensLeft a := fun a _ => by
    rw [hfin]
    by_cases hold : a ∈ e.finished
    · rw [if_pos (List.mem_append_left _ hold)]
      exact Nat.zero_le _
    · rw [if_neg hold]
      split
      · exact Nat.zero_le _
      next hnot => exact hs.tokensLeft_le hd fun hdone => hnot (List.mem_append_right _ hdone)
  refine ⟨h.delivers hq hsched hs hd hqueued ha, List.sum_le_sum hle, fun hres => ?_⟩
  obtain ⟨rfl, hgot⟩ := hok hres
  obtain ⟨s, hs', hA⟩ := h.scheduled hq hc hs hqueued ha
  refine List.sum_lt_sum _ _ hle ⟨s.req, hA, ?_⟩
  have hin : s.req ∈ e.queued := by
    unfold queued
    rcases List.mem_append.1 hs' with hdec | hnew
    · exact List.mem_append_right _ (hs.decodes.subset (List.mem_map_of_mem hdec))
    · exact List.mem_append_left _ (List.mem_append.2 (hs.takes s hnew).symm)
  have hnotfin : s.req ∉ e.finished := fun hf => (List.nodup_append.1 hq.nodup).2.2 s.req hin s.req hf rfl
  rw [if_neg hnotfin, hfin]
  split
  · exact hc.tokensLeft_pos hq hin
  next hnot =>
    have hdone : s.req ∉ done := fun hdone => hnot (List.mem_append_right _ hdone)
    rcases List.mem_append.1 hs' with hdec | hnew
    · exact hs.tokensLeft_decode hd hc hdone (List.mem_map_of_mem hdec) hgot
    · exact hs.tokensLeft_chunk hd hc hq hnew hdone

omit [Zero D] [Add X] [Field R] [LinearOrder R] in
/-- **An arrival stands behind** those in front, and they are owed what they were. -/
theorem Leads.submit (h : Leads (· ∈ as) P e) (hq : Queues e) (has : ∀ a ∈ as, a ∈ e.ids)
    {s : Submission D R} (hP : P s.priority) (heq : e.addRequest s = (.ok r, e')) :
    Leads (· ∈ as) P e' ∧ e'.owed as = e.owed as := by
  rcases addRequest_spec e s with ⟨msg, herr⟩ | ⟨hok, -⟩
  · cases heq.symm.trans herr
  obtain ⟨-, rfl⟩ := Prod.mk.inj (heq.symm.trans hok)
  have hne : ∀ r ∈ e.ids, r ≠ e.nextId := fun r hr => (hq.bound r hr).ne
  have hnew : e.nextId ∉ as := fun hm => hne _ (has _ hm) rfl
  have hreq : ∀ r q, r ∈ e.ids → (e.setReq e.nextId q).req r = e.req r := fun r q hr =>
    Function.update_of_ne (hne r hr) _ _
  have hself : ∀ q, (e.setReq e.nextId q).req e.nextId = q := fun q => Function.update_self _ _ _
  have hids : ∀ r ∈ e.waiting, r ∈ e.ids := fun r hr => by simp [ids, hr]
  have hmem : ∀ a ∈ e.waiting ++ [e.nextId], a ∈ as → a ∈ e.waiting := fun a ha hA =>
    (List.mem_append.1 ha).resolve_right fun h => hnew (List.mem_singleton.1 h ▸ hA)
  refine ⟨⟨fun a ha hA x hx hnot => ?_, fun a ha hA p hp => ?_, fun hsome => ?_, h.prefilling, h.running⟩, ?_⟩
  · have ha := hmem a ha hA
    unfold Before
    simp only [hreq a _ (hids a ha)]
    rcases List.mem_append.1 hx with hx | hx
    · simp only [hreq x _ (hids x hx)]
      exact h.waiting a ha hA x hx hnot
    · obtain rfl := List.mem_singleton.1 hx
      simp only [hself]
      have hle := h.arrivals a ha hA _ hP
      have hlt := hq.bound a (hids a ha)
      rw [← hq.id a] at hlt
      omega
  · have ha := hmem a ha hA
    simp only [hreq a _ (hids a ha)]
    exact h.arrivals a ha hA p hp
  · obtain ⟨a, ha, hA⟩ := hsome
    exact h.admitted ⟨a, hmem a ha hA, hA⟩
  · refine congrArg List.sum (List.map_congr_left fun a ha => ?_)
    simp only [tokensLeft, hreq a _ (has a ha)]
    rfl

/-! ### Runs -/

/-- The number of steps of a run that return. -/
def stepsReturned (torch : Torch R) (src : Source R G) (runner : ModelRunner X D R) :
    ContinuousBatchingEngine D R G → List (Call D R) → ℕ
  | _, [] => 0
  | e, .addRequest s :: cs => stepsReturned torch src runner (e.addRequest s).2 cs
  | e, .step :: cs =>
    match e.step torch src runner with
    | (.error _, e) => stepsReturned torch src runner e cs
    | (.ok (), e) => stepsReturned torch src runner e cs + 1

/-- A finished request stays finished. -/
theorem leave_finished (hq : Queues e) (torch : Torch R) (src : Source R G) (T : Transformer X D R)
    (c : Call D R) {a : ℕ} (ha : a ∈ e.finished) : a ∈ (leave torch src T.runner e c).finished := by
  cases c with
  | step =>
    obtain ⟨res, e', taken, done, heq, hs⟩ := step_any torch src T.runner hq
    rw [leave, heq, hs.finished]
    exact List.mem_append_left _ ha
  | addRequest s =>
    rcases addRequest_spec e s with ⟨msg, herr⟩ | ⟨hok, -⟩
    · rw [leave, herr]
      exact ha
    · rw [leave, hok]
      exact ha

theorem leaves_finished (hq : Queues e) (torch : Torch R) (src : Source R G) (T : Transformer X D R)
    (cs : List (Call D R)) {a : ℕ} (ha : a ∈ e.finished) : a ∈ (leaves torch src T.runner e cs).finished := by
  induction cs generalizing e with
  | nil => exact ha
  | cons c cs ih => exact ih (hq.leave torch src T.runner c) (leave_finished hq torch src T c ha)

omit [Zero D] [Add X] [Field R] [LinearOrder R] in
theorem addRequest_nextId_le {s : Submission D R} (h : e.addRequest s = (.ok r, e')) : e.nextId ≤ e'.nextId := by
  rcases addRequest_spec e s with ⟨msg, herr⟩ | ⟨hok, -⟩
  · cases h.symm.trans herr
  · obtain ⟨-, rfl⟩ := Prod.mk.inj (h.symm.trans hok)
    exact Nat.le_succ _

/-- **Those in front are finished** after as many steps that return as they are owed tokens. -/
theorem Leads.finished (h : Leads (· ∈ as) P e) (hg : Going numBlocks blockSize e) (torch : Torch R)
    (src : Source R G) (T : Transformer X D R) (has : ∀ a ∈ as, a ∈ e.ids) (cs : List (Call D R))
    (hfit : ∀ s ∈ accepted torch src T.runner e cs, (s.promptIds ≠ [] ∧
      (BlockManager.init numBlocks blockSize).blocksNeeded s.promptIds.length ≤ numBlocks) ∧ P s.priority)
    (hk : e.owed as ≤ stepsReturned torch src T.runner e cs) :
    ∀ a ∈ as, a ∈ (leaves torch src T.runner e cs).finished := by
  induction cs generalizing e with
  | nil => exact (hg.owed_eq_zero_iff has).1 (Nat.le_zero.1 hk)
  | cons c cs ih =>
    by_cases hall : ∀ a ∈ as, a ∈ e.finished
    · exact fun a ha => leaves_finished hg.queues torch src T (c :: cs) (hall a ha)
    obtain ⟨a, ha, hnot⟩ : ∃ a ∈ as, a ∉ e.finished := by
      by_contra hno
      exact hall fun a ha => by_contra fun hnot => hno ⟨a, ha, hnot⟩
    have hqueued : a ∈ e.queued := (List.mem_append.1 (has a ha)).resolve_right hnot
    rw [show ContinuousBatchingEngine.leaves torch src T.runner e (c :: cs) =
      ContinuousBatchingEngine.leaves torch src T.runner (leave torch src T.runner e c) cs from rfl]
    cases c with
    | addRequest s =>
      rw [accepted] at hfit
      rw [stepsReturned] at hk
      rw [leave]
      rcases hres : e.addRequest s with ⟨x | r, e₁⟩
      · rw [hres] at hfit hk
        rcases addRequest_spec e s with ⟨msg, herr⟩ | ⟨hok, -⟩
        · obtain rfl := (Prod.mk.inj (herr.symm.trans hres)).2
          exact ih h hg has hfit hk
        · cases hok.symm.trans hres
      · rw [hres] at hfit hk
        obtain ⟨hs, hP⟩ := hfit s List.mem_cons_self
        obtain ⟨hleads, howed⟩ := h.submit hg.queues has hP hres
        refine ih hleads (hg.submit hs hres) (fun a ha => ?_)
          (fun s' hs' => hfit s' (List.mem_cons_of_mem _ hs')) (howed.trans_le hk)
        exact (hg.submit hs hres).created a
          ((hg.queues.bound a (has a ha)).trans_le (addRequest_nextId_le hres))
    | step =>
      rw [accepted] at hfit
      obtain ⟨hleads, hle, hless⟩ := h.pays torch src T hg.queues hg.custody ha hqueued
      have hg' := hg.step torch src T
      refine ih hleads hg' (fun a ha => hg'.created a ?_) hfit ?_
      · obtain ⟨res, e', taken, done, heq, hs⟩ := step_any torch src T.runner hg.queues
        rw [heq, hs.nextId]
        exact hg.queues.bound a (has a ha)
      · rw [stepsReturned] at hk
        rcases hres : e.step torch src T.runner with ⟨x | ⟨⟩, e₁⟩
        · rw [hres] at hk hle
          rw [leave, hres]
          exact hle.trans hk
        · rw [hres] at hk hless
          rw [leave, hres]
          exact Nat.le_of_lt_succ ((hless rfl).trans_le hk)

end

/-! ### Those ahead of a request -/

/-- The requests that are served before `r`, and `r`: all that run, and unless `r` does those that prefill
and those that wait, in the order of admission, as far as `r`. -/
def ahead (e : ContinuousBatchingEngine D R G) (r : ℕ) : List ℕ :=
  let line := e.prefilling ++ e.admissionQueue
  e.running ++ if r ∈ e.running then [] else line.take (line.idxOf r + 1)

theorem line_before (hq : Queues e) : (e.prefilling ++ e.admissionQueue).Pairwise fun x y =>
    x ∈ e.waiting → y ∈ e.waiting ∧ e.Before x y := by
  have hno : ∀ x ∈ e.prefilling, x ∉ e.waiting := fun x hx => (not_mem_of_prefilling hq.nodup hx).1
  refine List.pairwise_append.2 ⟨List.pairwise_of_forall_mem_list fun x hx y _ hw => absurd hw (hno x hx), ?_,
    fun x hx y _ hw => absurd hw (hno x hx)⟩
  exact (admissionQueue_before hq).imp_of_mem fun _ hy hxy _ => ⟨mem_admissionQueue.1 hy, hxy⟩

theorem line_nodup (hq : Queues e) : (e.prefilling ++ e.admissionQueue).Nodup := by
  have hn := hq.nodup
  unfold ids at hn
  have hn : (e.waiting ++ e.prefilling).Nodup := hn.of_append_left.of_append_left
  exact ((e.admissionQueue_perm.append_left e.prefilling).trans List.perm_append_comm).nodup_iff.2 hn

/-- A request that does not run divides the queue. -/
theorem ahead_of_queue (hq : Queues e) (hr : r ∈ e.queued) (hnot : r ∉ e.running) :
    ∃ l₁ l₂, e.prefilling ++ e.admissionQueue = l₁ ++ r :: l₂ ∧ e.ahead r = e.running ++ (l₁ ++ [r]) := by
  have hin : r ∈ e.prefilling ++ e.admissionQueue := by
    simp only [queued, List.mem_append] at hr
    exact List.mem_append.2 ((hr.resolve_right hnot).symm.imp id mem_admissionQueue.2)
  obtain ⟨l₁, l₂, heq⟩ := List.append_of_mem hin
  have hn := line_nodup hq
  rw [heq] at hn
  have hnew : r ∉ l₁ := fun hm => (List.nodup_append.1 hn).2.2 r hm r List.mem_cons_self rfl
  refine ⟨l₁, l₂, heq, ?_⟩
  rw [ahead, if_neg hnot, heq, List.idxOf_append_of_notMem hnew, List.idxOf_cons_self, Nat.add_zero,
    List.take_length_add_append, List.take_succ_cons, List.take_zero]

/-- **Those ahead of a request lead**, against what does not come with a higher priority while it waits. -/
theorem Going.leads {numBlocks blockSize : ℕ} (h : Going numBlocks blockSize e) (hr : r ∈ e.queued) :
    Leads (· ∈ e.ahead r) (fun p => r ∈ e.waiting → p ≤ (e.req r).priority) e ∧ r ∈ e.ahead r ∧
      ∀ a ∈ e.ahead r, a ∈ e.queued := by
  have hq := h.queues
  have hlead : ∀ l, e.running.countP (fun x => ¬x ∈ e.running ++ l) < e.maxBatchTokens := fun l => by
    rw [List.countP_eq_zero.2 fun x hx => by simp [hx]]
    exact h.budget
  have hwait : ∀ x ∈ e.waiting, x ∉ e.running := fun x hx => (not_mem_of_waiting hq.nodup hx).2.1
  by_cases hrun : r ∈ e.running
  · have hahead : e.ahead r = e.running := by rw [ahead, if_pos hrun, List.append_nil]
    have hno : ∀ x ∈ e.prefilling, x ∉ e.running := fun x hx => (not_mem_of_prefilling hq.nodup hx).2.1
    rw [hahead]
    refine ⟨⟨fun a ha hA => absurd hA (hwait a ha), fun a ha hA => absurd hA (hwait a ha), ?_, ?_, ?_⟩,
      hrun, fun a ha => List.mem_append_right _ ha⟩
    · rintro ⟨a, ha, hA⟩
      exact absurd hA (hwait a ha)
    · exact List.pairwise_of_forall_mem_list fun x _ y hy hA => absurd hA (hno y hy)
    · simpa using hlead []
  obtain ⟨l₁, l₂, hline, hahead⟩ := ahead_of_queue hq hr hrun
  have hbefore := line_before hq
  have hin : ∀ x ∈ l₁ ++ r :: l₂, x ∈ e.prefilling ∨ x ∈ e.waiting := fun x hx => by
    rw [← hline] at hx
    exact (List.mem_append.1 hx).imp id mem_admissionQueue.1
  have hof : ∀ x, x ∈ e.prefilling ∨ x ∈ e.waiting → x ∉ e.running ++ (l₁ ++ [r]) → x ∈ l₂ := by
    intro x hx hnot
    have hx : x ∈ l₁ ++ r :: l₂ := hline ▸ List.mem_append.2 (hx.imp id mem_admissionQueue.2)
    rw [List.append_cons] at hx
    exact (List.mem_append.1 hx).resolve_left fun hm => hnot (List.mem_append_right _ hm)
  have hn := line_nodup hq
  rw [hline, List.append_cons] at hbefore hn
  obtain ⟨hfirst, -, hacross⟩ := List.pairwise_append.1 hbefore
  have hmem : ∀ a ∈ e.waiting, a ∈ e.running ++ (l₁ ++ [r]) → a ∈ l₁ ++ [r] := fun a ha hA =>
    (List.mem_append.1 hA).resolve_left (hwait a ha)
  rw [hahead]
  refine ⟨⟨fun a ha hA x hx hnot => ?_, fun a ha hA p hp => ?_, fun hsome x hx => ?_, ?_, hlead _⟩,
    by simp, fun a ha => ?_⟩
  · exact (hacross a (hmem a ha hA) x (hof x (Or.inr hx) hnot) ha).2
  · rcases List.mem_append.1 (hmem a ha hA) with hl | hl
    · obtain ⟨hr, hbefore⟩ := (List.pairwise_append.1 hfirst).2.2 a hl r List.mem_cons_self ha
      have := hp hr
      unfold Before at hbefore
      omega
    · obtain rfl := List.mem_singleton.1 hl
      exact hp ha
  · obtain ⟨a, ha, hA⟩ := hsome
    by_contra hnot
    rcases hx with hx | hx
    · have hw := (hacross a (hmem a ha hA) x (hof x (Or.inl hx) hnot) ha).1
      exact (not_mem_of_prefilling hq.nodup hx).1 hw
    · exact hnot (List.mem_append_left _ hx)
  · have hsub : e.prefilling.Sublist (l₁ ++ [r] ++ l₂) := by
      rw [← List.append_cons, ← hline]
      exact List.sublist_append_left _ _
    refine List.Pairwise.sublist hsub (List.pairwise_append.2
      ⟨List.pairwise_of_forall_mem_list fun x hx y _ _ => List.mem_append_right _ hx,
        List.pairwise_of_forall_mem_list fun x _ y hy hA => ?_,
        fun x hx y _ _ => List.mem_append_right _ hx⟩)
    exfalso
    rcases List.mem_append.1 hA with hrun | hm
    · rcases hin y (by simp [hy]) with hp | hw
      · exact (not_mem_of_prefilling hq.nodup hp).2.1 hrun
      · exact hwait y hw hrun
    · exact (List.nodup_append.1 hn).2.2 y hm y hy rfl
  · unfold queued
    rcases List.mem_append.1 ha with hrun | hm
    · exact List.mem_append_right _ hrun
    · have hm : a ∈ l₁ ++ r :: l₂ := by
        rw [List.append_cons]
        exact List.mem_append_left _ hm
      exact List.mem_append_left _ (List.mem_append.2 (hin a hm).symm)

/-- What is owed is at most what was asked for. -/
theorem owed_le (e : ContinuousBatchingEngine D R G) (as : List ℕ) :
    e.owed as ≤ (as.map fun a => (e.req a).promptIds.length + max (e.req a).maxNewTokens 1).sum := by
  refine List.sum_le_sum fun a _ => ?_
  unfold tokensLeft
  split
  · exact Nat.zero_le _
  · split <;> omega

/-- **A queued request is finished, and those ahead of it**, after as many steps that return as they asked
for tokens. -/
theorem Going.finishes [Zero D] [Add X] [Field R] [LinearOrder R] {numBlocks blockSize : ℕ}
    (h : Going numBlocks blockSize e) (torch : Torch R) (src : Source R G) (T : Transformer X D R)
    (hr : r ∈ e.queued) (cs : List (Call D R))
    (hfit : ∀ s ∈ accepted torch src T.runner e cs, (s.promptIds ≠ [] ∧
      (BlockManager.init numBlocks blockSize).blocksNeeded s.promptIds.length ≤ numBlocks) ∧
        (r ∈ e.waiting → s.priority ≤ (e.req r).priority))
    (hk : ((e.ahead r).map fun a => (e.req a).promptIds.length + max (e.req a).maxNewTokens 1).sum ≤
      stepsReturned torch src T.runner e cs) :
    r ∈ (ContinuousBatchingEngine.leaves torch src T.runner e cs).finished ∧
      ∀ a ∈ e.ahead r, a ∈ (ContinuousBatchingEngine.leaves torch src T.runner e cs).finished := by
  obtain ⟨hleads, hself, hof⟩ := h.leads hr
  have hall := hleads.finished h torch src T (fun a ha => List.mem_append_left _ (hof a ha)) cs hfit
    ((e.owed_le _).trans hk)
  exact ⟨hall r hself, hall⟩

end ContinuousBatchingEngine

open ContinuousBatchingEngine

variable {X D R G : Type} [Zero D] [Add X] [Field R] [LinearOrder R]

end DiSpec
