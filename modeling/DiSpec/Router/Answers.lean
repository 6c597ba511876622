/-
# Every request is answered once, with its own output

`Serving` says that every future and queue holds exactly what its client is owed
(`reply`), that the pending entries are those of the queued requests, and that no
finished request is left unreaped.

A submission and an iteration keep `Serving`.  For the iteration the engine's step is
described by `Steps`, whatever the runner computes, and `_reap` by what it does for one
request (`reap_spec`).
-/

import DiSpec.Router.Reap

namespace DiSpec
namespace InferenceServer

open ContinuousBatchingEngine

variable {X D R G : Type} {s s' : InferenceServer D R G} {r : ℕ}

/-! ### The invariant -/

/-- **What holds of a server** that was asked `asks` and has reaped `done`. -/
structure Serving (tok : Tokenizer) (asks : List (Bool × Ask R)) (done : List ℕ) [Field R]
    (s : InferenceServer D R G) : Prop where
  tokenizer : s.tok = tok
  queues : Queues s.engine
  finished : s.engine.finished = []
  requests : (s.engine.queued ++ done).Perm (List.range asks.length)
  submitted : Submitted (asks.map fun a => submission tok a.2) s.engine
  pending : ∀ r, s.pending.lookup r =
    if r ∈ s.engine.queued then asks[r]?.map fun a => entry tok a.1 (s.engine.req r).outputIds else none
  sent : ∀ r, s.sent r = match asks[r]? with
    | some a => reply tok a.1 (decide (r ∈ s.engine.queued)) (s.engine.req r).outputIds
    | none => []

section

variable [Field R] {tok : Tokenizer} {asks : List (Bool × Ask R)} {done : List ℕ}

/-- A request is queued iff it was submitted and not reaped. -/
theorem Serving.mem_queued (h : Serving tok asks done s) (r : ℕ) :
    r ∈ s.engine.queued ↔ r < asks.length ∧ r ∉ done := by
  have hmem := h.requests.mem_iff (a := r)
  have hn : (s.engine.queued ++ done).Nodup := h.requests.nodup_iff.2 List.nodup_range
  rw [List.mem_append, List.mem_range] at hmem
  have hdisj := (List.nodup_append.1 hn).2.2
  constructor
  · exact fun hr => ⟨hmem.1 (Or.inl hr), fun hd => hdisj r hr r hd rfl⟩
  · exact fun hr => (hmem.2 hr.1).resolve_right hr.2

/-- A pending entry exists for each queued request. -/
theorem Serving.mem_pending (h : Serving tok asks done s) (r : ℕ) :
    r ∈ s.pending ↔ r ∈ s.engine.queued := by
  rw [← AList.lookup_isSome, h.pending r]
  constructor
  · intro hr
    by_contra hq
    rw [if_neg hq] at hr
    exact absurd hr Bool.false_ne_true
  · intro hr
    rw [if_pos hr, List.getElem?_eq_getElem ((h.mem_queued r).1 hr).1]
    rfl

/-- A server at its start. -/
theorem init_serving [Zero D] [LinearOrder R] (T : Transformer X D R) (tok : Tokenizer)
    (numBlocks blockSize maxBatchTokens : ℕ) (chunkSize : Option ℕ) (rng : G) :
    Serving tok [] [] (init T tok numBlocks blockSize maxBatchTokens chunkSize rng) where
  tokenizer := rfl
  queues := init_queues T numBlocks blockSize maxBatchTokens chunkSize rng
  finished := rfl
  requests := .nil
  submitted := ⟨rfl, fun r s hs => absurd hs (by simp)⟩
  pending _ := rfl
  sent _ := rfl

/-- **A submission.** -/
theorem Serving.submit (h : Serving tok asks done s) (queue : Bool) (a : Ask R) :
    (s.submit queue a).1 = .ok asks.length ∧
      Serving tok (asks ++ [(queue, a)]) done (s.submit queue a).2 := by
  have hcount : s.engine.nextId = asks.length := by
    rw [h.submitted.count, List.length_map]
  obtain ⟨msg, herr⟩ | ⟨hok, -⟩ := addRequest_spec s.engine (submission s.tok a)
  · rw [addRequest] at herr
    exact absurd herr (by simp [submission])
  have hq := h.queues.submit (submission s.tok a)
  have hsub := (h.submitted.submit hok).1
  rw [InferenceServer.submit, hok]
  rw [hok] at hq
  simp only at hq ⊢
  have hqueued : ∀ r, r ∈ s.engine.waiting ++ [s.engine.nextId] ++ s.engine.prefilling ++ s.engine.running ↔
      r ∈ s.engine.queued ∨ r = asks.length := fun r => by
    rw [queued, hcount]
    simp only [List.mem_append, List.mem_singleton]
    tauto
  have hold : ∀ r, r ∈ s.engine.queued → r ≠ asks.length := fun r hr =>
    ((h.mem_queued r).1 hr).1.ne
  refine ⟨congrArg _ hcount, h.tokenizer, hq, h.finished, ?_, ?_, fun r => ?_, fun r => ?_⟩
  · show (s.engine.waiting ++ [s.engine.nextId] ++ s.engine.prefilling ++ s.engine.running ++ done).Perm _
    rw [List.length_append, List.length_singleton, List.range_succ, hcount]
    have hnew : (s.engine.waiting ++ [asks.length] ++ s.engine.prefilling ++ s.engine.running ++ done).Perm
        (asks.length :: (s.engine.queued ++ done)) :=
      (((List.perm_append_singleton _ _).append_right _).append_right _).append_right _
    exact hnew.trans ((h.requests.cons _).trans (List.perm_append_singleton _ _).symm)
  · rw [List.map_append, List.map_cons, List.map_nil, ← h.tokenizer]
    rw [← h.tokenizer] at hsub
    exact hsub
  · show (s.pending.insert s.engine.nextId ⟨queue, []⟩).lookup r =
      if r ∈ s.engine.waiting ++ [s.engine.nextId] ++ s.engine.prefilling ++ s.engine.running
      then (asks ++ [(queue, a)])[r]?.map fun x =>
        entry tok x.1 (Function.update s.engine.req _ _ r).outputIds
      else none
    rw [hcount]
    rcases eq_or_ne r asks.length with rfl | hne
    · rw [AList.lookup_insert, ← hcount, if_pos ((hqueued _).2 (Or.inr hcount)), hcount,
        List.getElem?_concat_length, Function.update_self]
      exact congrArg some (entry_nil tok queue).symm
    · rw [AList.lookup_insert_ne hne, h.pending r, ← hcount, Function.update_of_ne (hcount ▸ hne)]
      by_cases hr : r ∈ s.engine.queued
      · rw [if_pos hr, if_pos ((hqueued r).2 (Or.inl hr)),
          List.getElem?_append_left ((h.mem_queued r).1 hr).1]
      · rw [if_neg hr, if_neg fun hm => ((hqueued r).1 hm).elim hr hne]
  · show s.sent r = match (asks ++ [(queue, a)])[r]? with
      | some x => reply tok x.1
        (decide (r ∈ s.engine.waiting ++ [s.engine.nextId] ++ s.engine.prefilling ++ s.engine.running))
        (Function.update s.engine.req _ _ r).outputIds
      | none => []
    rcases eq_or_ne r asks.length with rfl | hne
    · rw [h.sent, List.getElem?_eq_none le_rfl, List.getElem?_concat_length,
        decide_eq_true ((hqueued _).2 (Or.inr rfl)), ← hcount, Function.update_self]
      exact (reply_nil tok queue).symm
    · have hmem : decide (r ∈ s.engine.waiting ++ [s.engine.nextId] ++ s.engine.prefilling ++
          s.engine.running) = decide (r ∈ s.engine.queued) := by
        rw [decide_eq_decide, hqueued r]
        exact or_iff_left hne
      rw [h.sent, hmem, Function.update_of_ne (hcount ▸ hne)]
      rcases Nat.lt_or_ge r asks.length with hlt | hge
      · rw [List.getElem?_append_left hlt]
      · rw [List.getElem?_eq_none hge, List.getElem?_eq_none]
        rw [List.length_append, List.length_singleton]
        omega

omit [Field R] in
/-- Draining `finished` keeps `Queues`. -/
theorem queues_drain {e : ContinuousBatchingEngine D R G} (h : Queues e) :
    Queues { e with finished := [] } := by
  have hsub : (e.waiting ++ e.prefilling ++ e.running ++ []).Sublist e.ids :=
    (List.nil_sublist _).append_left _
  exact ⟨hsub.nodup h.nodup, fun r hr => h.bound r (hsub.subset hr), h.id, h.waiting, h.prefilling, h.chunk⟩

omit [Field R] in
/-- A step gives a request at most one token, and none unless it then runs or has finished. -/
theorem Steps.outputIds {e e' : ContinuousBatchingEngine D R G} {taken : List (ℕ × ℕ)} {fin : List ℕ}
    (hs : Steps e e' taken fin) (r : ℕ) :
    ((e'.req r).outputIds = (e.req r).outputIds ∨ ∃ t, (e'.req r).outputIds = (e.req r).outputIds ++ [t]) ∧
      (r ∈ fin → (e'.req r).outputIds ≠ []) ∧
      (r ∉ e'.running → r ∉ fin → (e'.req r).outputIds = (e.req r).outputIds) := by
  have hout : (e'.req r).outputIds = (e.req r).outputIds ++ drawnFor taken r := (hs.text r).outputIds
  by_cases hr : r ∈ taken.map Prod.fst
  · obtain ⟨t, ht⟩ := List.length_eq_one_iff.1 (length_drawnFor hs.nodup hr)
    rw [hout, ht]
    exact ⟨Or.inr ⟨t, rfl⟩, fun _ => List.append_ne_nil_of_right_ne_nil _ (List.cons_ne_nil _ _),
      fun hrun hf => ((hs.emits r hr).elim hrun hf).elim⟩
  · rw [hout, drawnFor_of_notMem hr, List.append_nil]
    exact ⟨Or.inl rfl, fun hf => absurd (hs.emitted r hf) hr, fun _ _ => rfl⟩

/-- What a step does to the queued requests of a server that has reaped all finished ones: some
finish, each of the others stays queued. -/
theorem Serving.step_queued (h : Serving tok asks done s) {e₁ : ContinuousBatchingEngine D R G}
    {taken : List (ℕ × ℕ)} {fin : List ℕ} (hs : Steps s.engine e₁ taken fin) :
    e₁.finished = fin ∧ (e₁.queued ++ fin).Perm s.engine.queued ∧ (e₁.queued ++ fin).Nodup := by
  have hfin : e₁.finished = fin := by
    rw [hs.finished, h.finished, List.nil_append]
  refine ⟨hfin, ?_, ?_⟩
  · have hperm := hs.ids
    rw [ContinuousBatchingEngine.ids, ContinuousBatchingEngine.ids, hfin, h.finished,
      List.append_nil] at hperm
    exact hperm
  · have hn := hs.queues.nodup
    rw [ContinuousBatchingEngine.ids, hfin] at hn
    exact hn

/-- **What an iteration does to one request**, by where the request is after the step. -/
theorem Serving.reap_request (h : Serving tok asks done s) {e₁ : ContinuousBatchingEngine D R G}
    {taken : List (ℕ × ℕ)} {fin : List ℕ} (hs : Steps s.engine e₁ taken fin) (r : ℕ) :
    ({ s with engine := e₁ } : InferenceServer D R G).reap.pending.lookup r =
        (if r ∈ e₁.queued then asks[r]?.map fun a => entry tok a.1 (e₁.req r).outputIds else none) ∧
      ({ s with engine := e₁ } : InferenceServer D R G).reap.sent r = match asks[r]? with
        | some a => reply tok a.1 (decide (r ∈ e₁.queued)) (e₁.req r).outputIds
        | none => [] := by
  obtain ⟨hfin, hids, hnodup⟩ := h.step_queued hs
  have hmem : r ∈ s.engine.queued ↔ r ∈ e₁.queued ∨ r ∈ fin := by
    rw [← hids.mem_iff, List.mem_append]
  have hrunning : r ∈ e₁.running → r ∈ e₁.queued := List.mem_append_right _
  set s₁ : InferenceServer D R G := { s with engine := e₁ } with hs₁
  have htok₁ : s₁.tok = tok := h.tokenizer
  obtain ⟨-, -, hnone, hsome⟩ := reap_spec s₁ hs.queues.id (hfin.symm ▸ (List.nodup_append.1 hnodup).2.1)
  obtain ⟨hgrown, hne, hidle⟩ := Steps.outputIds hs r
  by_cases hr : r ∈ s.engine.queued
  · obtain ⟨a, ha⟩ : ∃ a, asks[r]? = some a := ⟨_, List.getElem?_eq_getElem ((h.mem_queued r).1 hr).1⟩
    have hlook : s₁.pending.lookup r = some (entry tok a.1 (s.engine.req r).outputIds) := by
      show s.pending.lookup r = _
      rw [h.pending r, if_pos hr, ha]
      rfl
    have hsent : s₁.sent r = reply tok a.1 true (s.engine.req r).outputIds := by
      show s.sent r = _
      rw [h.sent r, ha, decide_eq_true hr]
    have hafter := hsome r _ hlook
    rw [hsent] at hafter
    simp only [ha, Option.map_some]
    by_cases hf : r ∈ fin
    · have hq : r ∉ e₁.queued := fun hq => (List.nodup_append.1 hnodup).2.2 r hq r hf rfl
      rw [if_pos (hfin.symm ▸ hf), pushed_idle s₁ hs.queues.id (mt hrunning hq), List.append_nil,
        htok₁] at hafter
      rw [if_neg hq, decide_eq_false hq]
      exact ⟨hafter.1, hafter.2.trans (closing_reply tok a.1 hgrown (hne hf))⟩
    · have hq : r ∈ e₁.queued := (hmem.1 hr).resolve_right hf
      rw [if_neg (hfin.symm ▸ hf)] at hafter
      rw [if_pos hq, decide_eq_true hq]
      by_cases hrun : r ∈ e₁.running
      · obtain ⟨hentry, hevents⟩ := pushed_running s₁ hs.queues.id hrun a.1 hgrown
        rw [htok₁] at hentry hevents
        exact ⟨hafter.1.trans (congrArg some hentry), hafter.2.trans hevents⟩
      · rw [pushed_idle s₁ hs.queues.id hrun, List.append_nil] at hafter
        rw [hidle hrun hf]
        exact hafter
  · have hlook : s₁.pending.lookup r = none := (h.pending r).trans (if_neg hr)
    have hq : r ∉ e₁.queued := fun hq => hr (hmem.2 (Or.inl hq))
    have hf : r ∉ fin := fun hf => hr (hmem.2 (Or.inr hf))
    obtain ⟨hlook', hsent'⟩ := hnone r hlook
    rw [if_neg hq, decide_eq_false hq, hidle (mt hrunning hq) hf, ← decide_eq_false hr]
    exact ⟨hlook', hsent'.trans (h.sent r)⟩

/-- **An iteration** whose step delivers: what finished is answered and reaped. -/
theorem Serving.reap (h : Serving tok asks done s) {e₁ : ContinuousBatchingEngine D R G}
    {taken : List (ℕ × ℕ)} {fin : List ℕ} (hs : Steps s.engine e₁ taken fin) :
    Serving tok asks (done ++ fin) ({ s with engine := e₁ } : InferenceServer D R G).reap ∧
      ({ s with engine := e₁ } : InferenceServer D R G).reap.engine.req = e₁.req := by
  obtain ⟨hfin, hids, hnodup⟩ := h.step_queued hs
  have hcase := h.reap_request hs
  set s₁ : InferenceServer D R G := { s with engine := e₁ } with hs₁
  obtain ⟨heng, htok, -, -⟩ := reap_spec s₁ hs.queues.id (hfin.symm ▸ (List.nodup_append.1 hnodup).2.1)
  have hqueued : s₁.reap.engine.queued = e₁.queued := by rw [heng]; rfl
  have hreq : s₁.reap.engine.req = e₁.req := by rw [heng]
  refine ⟨⟨htok.trans h.tokenizer, ?_, ?_, ?_, ?_, fun r => ?_, fun r => ?_⟩, hreq⟩
  · rw [heng]
    exact queues_drain hs.queues
  · rw [heng]
  · rw [hqueued]
    exact (List.perm_append_comm.append_left _).trans
      ((List.append_assoc _ _ _ ▸ hids.append_right done).trans h.requests)
  · rw [heng]
    exact ⟨(h.submitted.step hs).count, (h.submitted.step hs).text⟩
  · rw [hqueued, hreq]
    exact (hcase r).1
  · rw [hqueued, hreq]
    exact (hcase r).2

end

/-! ### Runs -/

theorem asks_cons (a : Action R) (acts : List (Action R)) : asks (a :: acts) = asks [a] ++ asks acts := by
  cases a with
  | generate a => rfl
  | generateStream a => rfl
  | iterate => rfl

section

variable [Field R] [LinearOrder R] {tok : Tokenizer} {queries : List (Bool × Ask R)} {done : List ℕ}

/-- The requests that finish in an action. -/
def finishing (torch : Torch R) (src : Source R G) (runner : ModelRunner X D R) (s : InferenceServer D R G) :
    Action R → List ℕ
  | .generate _ | .generateStream _ => []
  | .iterate => if s.engine.hasWork then (s.engine.step torch src runner).2.finished else []

/-- The requests that finish in a run, in order. -/
def finishes (torch : Torch R) (src : Source R G) (runner : ModelRunner X D R) :
    InferenceServer D R G → List (Action R) → List ℕ
  | _, [] => []
  | s, a :: acts =>
    s.finishing torch src runner a ++ finishes torch src runner (s.act torch src runner a).2 acts

/-- An iteration, when its step does not raise. -/
theorem Serving.iterate (h : Serving tok queries done s) (torch : Torch R) (src : Source R G)
    (runner : ModelRunner X D R) (heq : s.iterate torch src runner = (.ok (), s')) :
    Serving tok queries (done ++ s.finishing torch src runner .iterate) s' ∧
      ∀ r ∈ done, (s'.engine.req r).outputIds = (s.engine.req r).outputIds := by
  rw [InferenceServer.iterate] at heq
  rw [finishing]
  by_cases hw : s.engine.hasWork
  · rw [if_pos hw] at heq ⊢
    obtain ⟨res, e₁, taken, fin, hstep, hs⟩ := step_any torch src runner h.queues
    have hfin : e₁.finished = fin := by
      rw [hs.finished, h.finished, List.nil_append]
    rw [hstep] at heq ⊢
    cases res with
    | error x => cases heq
    | ok =>
      obtain rfl := (Prod.mk.inj heq).2
      simp only [hfin]
      refine ⟨(h.reap hs).1, fun r hr => ?_⟩
      have hq : r ∉ s.engine.queued := fun hq => ((h.mem_queued r).1 hq).2 hr
      have hids : r ∉ e₁.ids := fun hm => hq <| by
        have hm' := hs.ids.mem_iff.1 hm
        rwa [ContinuousBatchingEngine.ids, h.finished, List.append_nil] at hm'
      rw [ContinuousBatchingEngine.ids, hfin, List.mem_append, not_or, List.mem_append, not_or] at hids
      rw [(h.reap hs).2]
      exact (Steps.outputIds hs r).2.2 hids.1.2 hids.2
  · rw [if_neg hw] at heq ⊢
    obtain rfl := (Prod.mk.inj heq).2
    rw [List.append_nil]
    exact ⟨h, fun _ _ => rfl⟩

/-- **One action** that does not raise. -/
theorem Serving.act (h : Serving tok queries done s) (torch : Torch R) (src : Source R G)
    (runner : ModelRunner X D R) (a : Action R) (heq : s.act torch src runner a = (.ok (), s')) :
    Serving tok (queries ++ asks [a]) (done ++ s.finishing torch src runner a) s' ∧
      ∀ r ∈ done, (s'.engine.req r).outputIds = (s.engine.req r).outputIds := by
  have hkeep : ∀ r ∈ done, r ≠ s.engine.nextId := by
    rintro r hr rfl
    have hlt := List.mem_range.1 (h.requests.mem_iff.1 (List.mem_append_right _ hr))
    rw [h.submitted.count, List.length_map] at hlt
    exact lt_irrefl _ hlt
  have hsubmit : ∀ queue a, (s.submit queue a).2 = s' →
      Serving tok (queries ++ [(queue, a)]) (done ++ []) s' ∧
        ∀ r ∈ done, (s'.engine.req r).outputIds = (s.engine.req r).outputIds := by
    rintro queue a rfl
    obtain ⟨hok, hserving⟩ := h.submit queue a
    rw [List.append_nil]
    refine ⟨hserving, fun r hr => ?_⟩
    rw [InferenceServer.submit] at hok ⊢
    obtain ⟨msg, herr⟩ | ⟨hadd, -⟩ := addRequest_spec s.engine (submission s.tok a)
    · rw [herr] at hok
      cases hok
    · rw [hadd]
      exact congrArg Request.outputIds (Function.update_of_ne (hkeep r hr) _ _)
  cases a with
  | generate a => exact hsubmit false a (Prod.mk.inj heq).2
  | generateStream a => exact hsubmit true a (Prod.mk.inj heq).2
  | iterate =>
    rw [asks, asks, List.append_nil]
    exact h.iterate torch src runner heq

/-- **A run.** -/
theorem Serving.run (h : Serving tok queries done s) (torch : Torch R) (src : Source R G)
    (runner : ModelRunner X D R) (acts : List (Action R)) (heq : run torch src runner s acts = .ok s') :
    Serving tok (queries ++ asks acts) (done ++ finishes torch src runner s acts) s' ∧
      ∀ r ∈ done, (s'.engine.req r).outputIds = (s.engine.req r).outputIds := by
  induction acts generalizing s queries done with
  | nil =>
    obtain rfl := Except.ok.inj heq
    rw [asks, finishes, List.append_nil, List.append_nil]
    exact ⟨h, fun _ _ => rfl⟩
  | cons a acts ih =>
    rw [InferenceServer.run] at heq
    rw [finishes, asks_cons, ← List.append_assoc, ← List.append_assoc]
    rcases hact : s.act torch src runner a with ⟨res, s₁⟩
    rw [hact] at heq
    cases res with
    | error x => cases heq
    | ok =>
      obtain ⟨hserving, hsame⟩ := h.act torch src runner a hact
      obtain ⟨hrun, hsame'⟩ := ih hserving heq
      exact ⟨hrun, fun r hr => (hsame' r (List.mem_append_left _ hr)).trans (hsame r hr)⟩

/-- An action that does not raise is followed by the rest of the run. -/
theorem run_cons {torch : Torch R} {src : Source R G} {runner : ModelRunner X D R} {a : Action R}
    (h : (s.act torch src runner a).1 = .ok ()) (acts : List (Action R)) :
    run torch src runner s (a :: acts) = run torch src runner (s.act torch src runner a).2 acts := by
  rw [InferenceServer.run]
  rcases hact : s.act torch src runner a with ⟨res, s₁⟩
  rw [hact] at h
  obtain rfl : res = .ok () := h
  rfl

end

end InferenceServer

open InferenceServer ContinuousBatchingEngine

/-- **Every request is answered exactly once, with its own output.**  After any submissions and
iterations none of which raises, a pending entry exists for exactly the requests submitted that
have not finished; `finished` is drained, and nobody finishes twice.  The future of request `r`
holds nothing or, once it has finished, its output; its queue holds the deltas of its output,
then the sentinel once it has finished.  What a finished request was sent stays. -/
theorem answered_once {X D R G : Type} [Zero D] [Field R] [LinearOrder R] (torch : Torch R)
    (src : Source R G) (runner : ModelRunner X D R) (T : Transformer X D R) (tok : Tokenizer)
    (numBlocks blockSize maxBatchTokens : ℕ) (chunkSize : Option ℕ) (rng : G) (acts acts' : List (Action R))
    {s s' : InferenceServer D R G}
    (h : run torch src runner (init T tok numBlocks blockSize maxBatchTokens chunkSize rng) acts = .ok s)
    (h' : run torch src runner s acts' = .ok s') :
    let queries := asks acts
    let done := finishes torch src runner
      (init T tok numBlocks blockSize maxBatchTokens chunkSize rng : InferenceServer D R G) acts
    s.engine.finished = [] ∧ done.Nodup ∧
      (∀ r, r ∈ s.pending ↔ r < queries.length ∧ r ∉ done) ∧
      (∀ queue a, (s.submit queue a).1 = .ok queries.length) ∧
      (∀ r, queries.length ≤ r → r ∉ done ∧ s.sent r = []) ∧
      (∀ (r : ℕ) queue a, queries[r]? = some (queue, a) →
        (s.engine.req r).promptIds = tok.inputIds a.prompt ∧
        (s.engine.req r).maxNewTokens = a.maxNewTokens ∧ (s.engine.req r).params = ⟨a.temperature, 1, 0⟩ ∧
        (s.engine.req r).eosId = tok.eosTokenId ∧
        s.sent r = reply tok queue (decide (r ∉ done)) (s.engine.req r).outputIds ∧
        ∀ ev ∈ (streamed tok (s.engine.req r).outputIds).2, ∃ text, ev = .delta text) ∧
      ∀ r ∈ done, r ∉ s'.pending ∧ s'.sent r = s.sent r ∧
        (s'.engine.req r).outputIds = (s.engine.req r).outputIds := by
  intro queries done
  obtain ⟨hserving, -⟩ := (init_serving T tok numBlocks blockSize maxBatchTokens chunkSize rng).run
    torch src runner acts h
  obtain ⟨hserving', hsame⟩ := hserving.run torch src runner acts' h'
  rw [List.nil_append] at hserving hsame
  have hcount : queries.length = s.engine.nextId := by
    rw [hserving.submitted.count, List.length_map]
  have hbound : ∀ r ∈ done, r < queries.length := fun r hr =>
    List.mem_range.1 (hserving.requests.mem_iff.1 (List.mem_append_right _ hr))
  refine ⟨hserving.finished, ?_, fun r => (hserving.mem_pending r).trans (hserving.mem_queued r),
    fun queue a => (hserving.submit queue a).1, fun r hr => ?_, fun r queue a hr => ?_, fun r hr => ?_⟩
  · exact (List.nodup_append.1 (hserving.requests.nodup_iff.2 List.nodup_range)).2.1
  · refine ⟨fun hd => ?_, ?_⟩
    · have := hbound r hd
      omega
    · rw [hserving.sent r, List.getElem?_eq_none hr]
  · have hlt : r < queries.length := (List.getElem?_eq_some_iff.1 hr).1
    obtain ⟨hprompt, hparams, hmax, heos⟩ := hserving.submitted.text r (submission tok a) (by
      rw [List.getElem?_map, hr]
      rfl)
    refine ⟨hprompt, hmax, hparams, heos, ?_, streamed_deltas tok _⟩
    rw [hserving.sent r, hr]
    exact congrArg (reply tok queue · _)
      (decide_eq_decide.2 ((hserving.mem_queued r).trans (and_iff_right hlt)))
  · have hd : r ∈ done ++ finishes torch src runner s acts' := List.mem_append_left _ hr
    have hq : r ∉ s.engine.queued := fun hq => ((hserving.mem_queued r).1 hq).2 hr
    have hq' : r ∉ s'.engine.queued := fun hq => ((hserving'.mem_queued r).1 hq).2 hd
    refine ⟨mt (hserving'.mem_pending r).1 hq', ?_, hsame r hr⟩
    have hlt := hbound r hr
    rw [hserving'.sent r, hserving.sent r, List.nil_append, List.getElem?_append_left hlt, hsame r hr,
      decide_eq_false hq, decide_eq_false hq']

/-- The hypotheses are satisfiable: a stream and, submitted while it runs, a future that is
resolved by the same iteration. -/
theorem answered_once_stream :
    let torch : Torch ℚ := ⟨id, fun _ => []⟩
    let src : Source ℚ Unit := ⟨fun g => (0, g), fun _ g => (0, g)⟩
    let tok : Tokenizer :=
      ⟨fun text => text.map (·.toNat % 3), none, fun ids => ids.map fun t => Char.ofNat (65 + t)⟩
    let acts : List (Action ℚ) := [.generateStream ⟨['A', 'B'], 2, 0, 0⟩, .iterate,
      .generate ⟨['B'], 1, 0, 0⟩, .iterate]
    let s := acts.foldl (fun s a => (s.act torch src sumModel.runner a).2)
      (init sumModel tok 8 2 8 none () : InferenceServer ℤ ℚ Unit)
    s.engine.finished = [] ∧ s.sent 0 = [.delta ['C'], .delta ['A'], .sentinel] ∧ s.sent 1 = [.result [0]] ∧
      0 ∉ s.pending := by
  intro torch src tok acts s
  have h := answered_once torch src sumModel.runner sumModel tok 8 2 8 none () acts [.iterate] (s := s)
    ((run_cons (by decide +kernel) _).trans ((run_cons (by decide +kernel) _).trans
      ((run_cons (by decide +kernel) _).trans (run_cons (by decide +kernel) _))))
    (run_cons (by decide +kernel) _)
  exact ⟨h.1, by decide +kernel, by decide +kernel, fun hm => ((h.2.2.1 0).1 hm).2 (by decide +kernel)⟩

end DiSpec
