/-
# Every first token is observed, unless it is the last

`dispec/router/server.py`: `InferenceServer._reap`.

`_reap` looks for first tokens among the running requests and takes the finished ones from another list.  A
request that gets its first token and goes on is seen running; one that ends with its first token never is,
and its time to first token is lost (`emitted_perm`).  `Metered` carries the counts through a run: the
observations are those of the first tokens, in the iterations that produced them, less one for each request
that ended with an output of one token.  So they are complete exactly while there is no such request
(`counted_once_iff`).
-/

import DiSpec.Router.Answers
import DiSpec.Router.Metrics

namespace DiSpec

open InferenceServer ContinuousBatchingEngine

/-- The reading of the clock that an action records. -/
def TimedAction.now {R Q : Type} : TimedAction R Q → Q
  | .generate _ now | .generateStream _ now | .iterate _ _ now => now

namespace MeteredServer

variable {X D R G Q : Type}

/-- The output of a request. -/
def output (m : MeteredServer D R G Q) (r : ℕ) : List ℕ := (m.server.engine.req r).outputIds

section

variable [Field Q] [LinearOrder Q] [Field R] [LinearOrder R]

/-- The requests that get their first token in an action. -/
def emitted (torch : Torch R) (src : Source R G) (runner : ModelRunner X D R) (m : MeteredServer D R G Q)
    (a : TimedAction R Q) : List ℕ :=
  (List.range m.server.engine.nextId).filter fun r =>
    m.output r = [] ∧ (m.act torch src runner a).2.output r ≠ []

/-- The times to first token of a run, each taken in the action that gives the first token. -/
def firstTokens (torch : Torch R) (src : Source R G) (runner : ModelRunner X D R) :
    MeteredServer D R G Q → List (TimedAction R Q) → List Q
  | _, [] => []
  | m, a :: acts =>
    (m.emitted torch src runner a).map (fun r => a.now - m.tSubmit r) ++
      firstTokens torch src runner (m.act torch src runner a).2 acts

end

/-! ### The invariant -/

/-- **What holds of a server** that was asked `asks`, has reaped `done` and has produced first tokens after
`firsts`. -/
structure Metered (tok : Tokenizer) (asks : List (Bool × Ask R)) (done : List ℕ) (firsts : List Q)
    [Field R] [Field Q] (m : MeteredServer D R G Q) : Prop where
  serving : Serving tok asks done m.server
  answered : ∀ r ∈ done, m.output r ≠ []
  tFirst : ∀ r ∈ m.server.engine.queued, m.tFirst r = 0 ↔ m.output r = []
  ttft : ∃ missed : List Q, missed.length = done.countP (fun r => (m.output r).length = 1) ∧
    (m.metrics.ttft ++ missed).Perm firsts
  firsts : firsts.length = (List.range asks.length).countP fun r => m.output r ≠ []
  e2e : m.metrics.e2e.length = done.length
  requests : m.metrics.requests = done.length
  tokens : m.metrics.tokens = (done.map fun r => (m.output r).length).sum

section

variable [Field R] [Field Q] [LinearOrder Q] {tok : Tokenizer} {asks : List (Bool × Ask R)} {done : List ℕ}
  {firsts : List Q} {m : MeteredServer D R G Q}

omit [LinearOrder Q] in
/-- A server at its start. -/
theorem init_metered [Zero D] [LinearOrder R] (T : Transformer X D R) (tok : Tokenizer)
    (numBlocks blockSize maxBatchTokens : ℕ) (chunkSize : Option ℕ) (rng : G) :
    Metered tok [] [] ([] : List Q) (init T tok numBlocks blockSize maxBatchTokens chunkSize rng) where
  serving := init_serving T tok numBlocks blockSize maxBatchTokens chunkSize rng
  answered _ hr := absurd hr List.not_mem_nil
  tFirst _ hr := absurd hr List.not_mem_nil
  ttft := ⟨[], rfl, .nil⟩
  firsts := rfl
  e2e := rfl
  requests := rfl
  tokens := rfl

omit [Field Q] [LinearOrder Q] in
/-- A submission adds a request without output and leaves the others. -/
theorem submit_output (s : InferenceServer D R G) (queue : Bool) (a : Ask R)
    (h : (s.submit queue a).1 = .ok s.engine.nextId) :
    (s.submit queue a).2.engine.queued.Perm (s.engine.nextId :: s.engine.queued) ∧
      ((s.submit queue a).2.engine.req s.engine.nextId).outputIds = [] ∧
      ∀ r, r ≠ s.engine.nextId →
        ((s.submit queue a).2.engine.req r).outputIds = (s.engine.req r).outputIds := by
  rw [InferenceServer.submit] at h ⊢
  obtain ⟨msg, herr⟩ | ⟨hadd, -⟩ := addRequest_spec s.engine (submission s.tok a)
  · rw [herr] at h
    cases h
  · rw [hadd]
    refine ⟨?_, ?_, fun r hr => ?_⟩
    · have happend := List.perm_append_singleton s.engine.nextId s.engine.waiting
      exact (happend.append_right _).append_right _
    · show (Function.update s.engine.req s.engine.nextId _ s.engine.nextId).outputIds = []
      rw [Function.update_self]
    · exact congrArg Request.outputIds (Function.update_of_ne hr _ _)

omit [LinearOrder Q] in
/-- **A submission.** -/
theorem Metered.submit (h : Metered tok asks done firsts m) (queue : Bool) (a : Ask R) (now : Q) :
    Metered tok (asks ++ [(queue, a)]) done firsts (m.submit queue a now).2 ∧
      ∀ r < m.server.engine.nextId, (m.submit queue a now).2.output r = m.output r := by
  have hcount : m.server.engine.nextId = asks.length := by
    rw [h.serving.submitted.count, List.length_map]
  obtain ⟨hok, hserving⟩ := h.serving.submit queue a
  obtain ⟨hqueued, hnew, hsame⟩ := submit_output m.server queue a (hok.trans (congrArg _ hcount.symm))
  unfold MeteredServer.submit
  rcases hsub : m.server.submit queue a with ⟨x | rid, server⟩
  · rw [hsub] at hok
    cases hok
  · rw [hsub] at hok hserving hqueued hnew hsame
    obtain rfl : rid = asks.length := Except.ok.inj hok
    rw [hcount] at hqueued hnew hsame ⊢
    dsimp only at hserving hqueued hnew hsame ⊢
    set m' : MeteredServer D R G Q :=
      { m with server, tSubmit := Function.update m.tSubmit asks.length now,
               tFirst := Function.update m.tFirst asks.length 0 }
    have hnew' : m'.output asks.length = [] := hnew
    have hold : ∀ r < asks.length, m'.output r = m.output r := fun r hr => hsame r hr.ne
    have hdone : ∀ r ∈ done, m'.output r = m.output r := fun r hr =>
      hold r (List.mem_range.1 (h.serving.requests.mem_iff.1 (List.mem_append_right _ hr)))
    refine ⟨⟨hserving, fun r hr => ?_, fun r hr => ?_, ?_, ?_, h.e2e, h.requests, ?_⟩, hold⟩
    · rw [hdone r hr]
      exact h.answered r hr
    · rcases List.mem_cons.1 (hqueued.mem_iff.1 hr) with rfl | hr
      · exact iff_of_true (Function.update_self _ _ _) hnew'
      · have hlt := ((h.serving.mem_queued r).1 hr).1
        rw [hold r hlt, ← h.tFirst r hr]
        exact Eq.congr_left (Function.update_of_ne hlt.ne _ _)
    · obtain ⟨missed, hlen, hperm⟩ := h.ttft
      refine ⟨missed, hlen.trans (List.countP_congr fun r hr => ?_), hperm⟩
      rw [hdone r hr]
    · rw [h.firsts, List.length_append, List.length_singleton, List.range_succ, List.countP_append,
        List.countP_singleton, if_neg (by simp [hnew']), Nat.add_zero]
      refine List.countP_congr fun r hr => ?_
      rw [hold r (List.mem_range.1 hr)]
    · rw [List.map_congr_left fun r hr => congrArg List.length (hdone r hr)]
      exact h.tokens

/-! ### An iteration -/

omit [Field R] in
/-- A request that finishes in a step has got a token in it. -/
theorem Steps.finished_output {e e₁ : ContinuousBatchingEngine D R G} {taken : List (ℕ × ℕ)} {fin : List ℕ}
    (hs : Steps e e₁ taken fin) {r : ℕ} (hr : r ∈ fin) :
    ∃ t, (e₁.req r).outputIds = (e.req r).outputIds ++ [t] := by
  have hout : (e₁.req r).outputIds = (e.req r).outputIds ++ drawnFor taken r := (hs.text r).outputIds
  obtain ⟨t, ht⟩ := List.length_eq_one_iff.1 (length_drawnFor hs.nodup (hs.emitted r hr))
  exact ⟨t, by rw [hout, ht]⟩

/-- The server after a step, about to reap: the clock times of the requests and their counts are as before. -/
structure Stepped (m m₁ : MeteredServer D R G Q) (e₁ : ContinuousBatchingEngine D R G) : Prop where
  server : m₁.server = { m.server with engine := e₁ }
  tSubmit : m₁.tSubmit = m.tSubmit
  tFirst : m₁.tFirst = m.tFirst
  ttft : m₁.metrics.ttft = m.metrics.ttft
  e2e : m₁.metrics.e2e = m.metrics.e2e
  requests : m₁.metrics.requests = m.metrics.requests
  tokens : m₁.metrics.tokens = m.metrics.tokens

variable {m₁ : MeteredServer D R G Q} {e₁ : ContinuousBatchingEngine D R G} {taken : List (ℕ × ℕ)}
  {fin : List ℕ} {now : Q}

/-- The requests that `_reap` sees get their first token: those that run with it. -/
theorem Metered.mem_dues (h : Metered tok asks done firsts m) (hs : Steps m.server.engine e₁ taken fin)
    (hm : Stepped m m₁ e₁) (r : ℕ) :
    r ∈ m₁.dues ↔ r ∈ m.server.engine.queued ∧ r ∈ e₁.running ∧ m.output r = [] ∧
      (e₁.req r).outputIds ≠ [] := by
  rw [MeteredServer.mem_dues, Due, hm.server, hm.tFirst]
  dsimp only
  rw [h.serving.mem_pending, byId_eq hs.queues.id]
  constructor
  · rintro ⟨hq, r', hr', hout, hzero⟩
    by_cases hrun : r ∈ e₁.running
    · rw [if_pos hrun] at hr'
      obtain rfl := Option.some.inj hr'
      exact ⟨hq, hrun, (h.tFirst r hq).1 hzero, hout⟩
    · rw [if_neg hrun] at hr'
      cases hr'
  · rintro ⟨hq, hrun, hnil, hout⟩
    exact ⟨hq, r, if_pos hrun, hout, (h.tFirst r hq).2 hnil⟩

/-- **The first tokens of an iteration**: of the requests that `_reap` sees running, and of those that end
with an output of one token. -/
theorem emitted_perm (h : Metered tok asks done firsts m) (hs : Steps m.server.engine e₁ taken fin)
    (hm : Stepped m m₁ e₁) :
    ((List.range asks.length).filter fun r => m.output r = [] ∧ (e₁.req r).outputIds ≠ []).Perm
      (m₁.dues ++ fin.filter fun r => (e₁.req r).outputIds.length = 1) := by
  obtain ⟨-, hids, hnodup⟩ := h.serving.step_queued hs
  obtain ⟨-, hnfin, hdisj⟩ := List.nodup_append.1 hnodup
  have hdues := h.mem_dues hs hm
  refine (List.perm_ext_iff_of_nodup (List.nodup_range.filter _) ?_).2 fun r => ?_
  · refine List.nodup_append.2 ⟨nodup_dues m₁, hnfin.filter _, fun r hr r' hr' => ?_⟩
    have hrun : r ∈ e₁.queued := List.mem_append_right _ ((hdues r).1 hr).2.1
    exact hdisj r hrun r' (List.mem_filter.1 hr').1
  rw [List.mem_append, List.mem_filter, List.mem_filter, decide_eq_true_iff, decide_eq_true_iff, hdues r,
    List.mem_range]
  constructor
  · rintro ⟨hlt, hnil, hout⟩
    have hq : r ∈ m.server.engine.queued :=
      (h.serving.mem_queued r).2 ⟨hlt, fun hd => h.answered r hd hnil⟩
    by_cases hf : r ∈ fin
    · obtain ⟨t, ht⟩ := Steps.finished_output hs hf
      rw [show (m.server.engine.req r).outputIds = [] from hnil, List.nil_append] at ht
      exact Or.inr ⟨hf, by rw [ht, List.length_singleton]⟩
    · have hrun : r ∈ e₁.running := by
        by_contra hrun
        exact hout (((Steps.outputIds hs r).2.2 hrun hf).trans hnil)
      exact Or.inl ⟨hq, hrun, hnil, hout⟩
  · rintro (⟨hq, -, hnil, hout⟩ | ⟨hf, hone⟩)
    · exact ⟨((h.serving.mem_queued r).1 hq).1, hnil, hout⟩
    · have hq : r ∈ m.server.engine.queued := hids.mem_iff.1 (List.mem_append_right _ hf)
      obtain ⟨t, ht⟩ := Steps.finished_output hs hf
      rw [ht, List.length_append, List.length_singleton, Nat.add_eq_right, List.length_eq_zero_iff] at hone
      exact ⟨((h.serving.mem_queued r).1 hq).1, hone, by rw [ht]; simp⟩

omit [Field R] [Field Q] [LinearOrder Q] in
/-- What holds of more elements than before holds of those it held of and of the new ones. -/
theorem countP_of_grows {p q : ℕ → Prop} [DecidablePred p] [DecidablePred q] {l : List ℕ}
    (h : ∀ r ∈ l, p r → q r) : l.countP (fun r => q r) =
      l.countP (fun r => p r) + (l.filter fun r => ¬p r ∧ q r).length := by
  induction l with
  | nil => rfl
  | cons r l ih =>
    have hl := ih fun r' hr' => h r' (List.mem_cons_of_mem r hr')
    have hr := h r List.mem_cons_self
    by_cases hp : p r
    · simp [hp, hr hp, hl]
      omega
    · by_cases hq : q r
      · simp [hp, hq, hl]
        omega
      · simp [hp, hq, hl]

/-- **An iteration.** -/
theorem Metered.reap (h : Metered tok asks done firsts m) (hs : Steps m.server.engine e₁ taken fin)
    (hm : Stepped m m₁ e₁) (hnow : now ≠ 0) :
    Metered tok asks (done ++ fin)
      (firsts ++ ((List.range asks.length).filter fun r => m.output r = [] ∧
        (m₁.reap now).output r ≠ []).map fun r => now - m.tSubmit r) (m₁.reap now) := by
  obtain ⟨hfin, hids, hnodup⟩ := h.serving.step_queued hs
  obtain ⟨-, hnfin, hdisj⟩ := List.nodup_append.1 hnodup
  have hdues := h.mem_dues hs hm
  obtain ⟨hserving, hreq⟩ := h.serving.reap hs
  -- the metered server is the server, and `_reap` keeps its outputs
  have hserver : (m₁.reap now).server = ({ m.server with engine := e₁ } : InferenceServer D R G).reap := by
    rw [reap_server, hm.server]
  have hout : ∀ r, (m₁.reap now).output r = (e₁.req r).outputIds := by
    intro r
    unfold output
    rw [hserver, hreq]
  have hqueued : (m₁.reap now).server.engine.queued = e₁.queued := by
    rw [hserver, (reap_spec _ hs.queues.id (hfin.symm ▸ hnfin)).1]
    rfl
  have hmem : ∀ r ∈ done, r ∉ m.server.engine.queued := fun r hr hq => ((h.serving.mem_queued r).1 hq).2 hr
  have hdone : ∀ r ∈ done, (m₁.reap now).output r = m.output r := by
    intro r hr
    rw [hout r]
    have hids' : r ∉ e₁.queued ++ fin := fun hm' => hmem r hr (hids.mem_iff.1 hm')
    rw [List.mem_append, not_or] at hids'
    exact (Steps.outputIds hs r).2.2 (fun hrun => hids'.1 (List.mem_append_right _ hrun)) hids'.2
  -- what `_reap` records
  have hengine : m₁.server.engine = e₁ := by rw [hm.server]
  have hpending : ∀ r ∈ fin, r ∈ m₁.server.pending := by
    intro r hr
    rw [hm.server]
    exact (h.serving.mem_pending r).2 (hids.mem_iff.1 (List.mem_append_right _ hr))
  obtain ⟨-, hfirst, httft, he2e, hrequests, htokens⟩ := reap_records m₁ now
    (by rw [hengine]; exact hs.queues.id) (by rw [hengine, hfin]; exact hnfin)
    (by rw [hengine, hfin]; exact hpending)
  rw [hengine, hfin] at he2e hrequests htokens
  rw [hm.tSubmit] at httft
  refine ⟨hserver ▸ hserving, fun r hr => ?_, fun r hr => ?_, ?_, ?_, ?_, ?_, ?_⟩
  · rcases List.mem_append.1 hr with hr | hr
    · rw [hdone r hr]
      exact h.answered r hr
    · rw [hout r]
      exact (Steps.outputIds hs r).2.1 hr
  · -- the mark of a queued request is set when its first token is seen
    rw [hqueued] at hr
    have hq : r ∈ m.server.engine.queued := hids.mem_iff.1 (List.mem_append_left _ hr)
    have hf : r ∉ fin := fun hf => hdisj r hr r hf rfl
    rw [hfirst r, hout r]
    by_cases hd : r ∈ m₁.dues
    · rw [if_pos hd]
      exact iff_of_false hnow ((hdues r).1 hd).2.2.2
    · rw [if_neg hd, hm.tFirst, h.tFirst r hq]
      obtain ⟨hgrown, -, hidle⟩ := Steps.outputIds hs r
      constructor
      · intro hnil
        by_contra hne
        by_cases hrun : r ∈ e₁.running
        · exact hd ((hdues r).2 ⟨hq, hrun, hnil, hne⟩)
        · exact hne ((hidle hrun hf).trans hnil)
      · intro hnil
        rcases hgrown with heq | ⟨t, ht⟩
        · exact heq.symm.trans hnil
        · rw [ht] at hnil
          exact absurd hnil (by simp)
  · -- the first tokens of requests that ended with them are missed
    obtain ⟨missed, hlen, hperm⟩ := h.ttft
    refine ⟨missed ++ (fin.filter fun r => (e₁.req r).outputIds.length = 1).map fun r => now - m.tSubmit r,
      ?_, ?_⟩
    · rw [List.length_append, List.length_map, List.countP_append, hlen, ← List.countP_eq_length_filter]
      congr 1
      · exact List.countP_congr fun r hr => by rw [hdone r hr]
      · exact List.countP_congr fun r _ => by rw [hout r]
    · have hemitted := (emitted_perm h hs hm).map fun r => now - m.tSubmit r
      rw [List.map_append] at hemitted
      simp only [hout]
      rw [httft, hm.ttft, List.append_assoc]
      refine ((List.perm_append_comm_assoc _ _ _).append_left _).trans ?_
      rw [← List.append_assoc]
      exact hperm.append hemitted.symm
  · have hgrows : ∀ r ∈ List.range asks.length, m.output r ≠ [] → (m₁.reap now).output r ≠ [] := by
      intro r _ hne hnil
      rw [hout r] at hnil
      rcases (Steps.outputIds hs r).1 with heq | ⟨t, ht⟩
      · exact hne (heq.symm.trans hnil)
      · rw [ht] at hnil
        exact absurd hnil (by simp)
    rw [List.length_append, List.length_map, h.firsts, countP_of_grows hgrows]
    simp only [not_not]
  · rw [he2e, hm.e2e, List.length_append, List.length_map, List.length_append, h.e2e]
  · rw [hrequests, hm.requests, List.length_append, h.requests]
  · rw [htokens, hm.tokens, h.tokens, List.map_append, List.sum_append]
    congr 2
    · exact List.map_congr_left fun r hr => by rw [hdone r hr]
    · exact List.map_congr_left fun r _ => by rw [hout r]

/-! ### Runs -/

variable [LinearOrder R] {m' : MeteredServer D R G Q}

/-- Where no output changes there is no first token. -/
theorem emitted_eq_nil (torch : Torch R) (src : Source R G) (runner : ModelRunner X D R)
    (m : MeteredServer D R G Q) (a : TimedAction R Q)
    (h : ∀ r < m.server.engine.nextId, (m.act torch src runner a).2.output r = m.output r) :
    m.emitted torch src runner a = [] := by
  refine List.filter_eq_nil_iff.2 fun r hr => ?_
  rw [h r (List.mem_range.1 hr), decide_eq_true_iff]
  exact fun hout => hout.2 hout.1

/-- **An iteration** that does not raise. -/
theorem Metered.iterate (h : Metered tok asks done firsts m) (torch : Torch R) (src : Source R G)
    (runner : ModelRunner X D R) (t0 t1 : Q) (hnow : now ≠ 0)
    (heq : m.act torch src runner (.iterate t0 t1 now) = (.ok (), m')) :
    Metered tok asks (done ++ m.server.finishing torch src runner .iterate)
      (firsts ++ (m.emitted torch src runner (.iterate t0 t1 now)).map fun r => now - m.tSubmit r) m' := by
  have hcount : m.server.engine.nextId = asks.length := by
    rw [h.serving.submitted.count, List.length_map]
  rw [InferenceServer.finishing]
  by_cases hw : m.server.engine.hasWork
  · unfold emitted
    rw [heq, hcount]
    rw [MeteredServer.act, MeteredServer.iterate] at heq
    rw [if_pos hw] at heq ⊢
    obtain ⟨res, e₁, taken, fin, hstep, hs⟩ := step_any torch src runner h.serving.queues
    rw [hstep] at heq ⊢
    cases res with
    | error x => cases heq
    | ok =>
      obtain rfl := (Prod.mk.inj heq).2
      dsimp only
      rw [(h.serving.step_queued hs).1]
      exact h.reap hs ⟨rfl, rfl, rfl, rfl, rfl, rfl, rfl⟩ hnow
  · have hsame : m.act torch src runner (.iterate t0 t1 now) = (.ok (), m) := if_neg hw
    rw [emitted_eq_nil torch src runner m _ fun r _ => by rw [hsame], if_neg hw, List.map_nil,
      List.append_nil, List.append_nil]
    rw [hsame] at heq
    exact (Prod.mk.inj heq).2 ▸ h

/-- **One action** that does not raise. -/
theorem Metered.act (h : Metered tok asks done firsts m) (torch : Torch R) (src : Source R G)
    (runner : ModelRunner X D R) {a : TimedAction R Q} (hnow : a.now ≠ 0)
    (heq : m.act torch src runner a = (.ok (), m')) :
    Metered tok (asks ++ InferenceServer.asks [a.forget])
      (done ++ m.server.finishing torch src runner a.forget)
      (firsts ++ (m.emitted torch src runner a).map fun r => a.now - m.tSubmit r) m' := by
  cases a with
  | generate a now =>
    obtain ⟨hsubmit, hsame⟩ := h.submit false a now
    rw [emitted_eq_nil torch src runner m (.generate a now) hsame, List.map_nil, List.append_nil]
    exact (Prod.mk.inj heq).2 ▸ (List.append_nil done).symm ▸ hsubmit
  | generateStream a now =>
    obtain ⟨hsubmit, hsame⟩ := h.submit true a now
    rw [emitted_eq_nil torch src runner m (.generateStream a now) hsame, List.map_nil, List.append_nil]
    exact (Prod.mk.inj heq).2 ▸ (List.append_nil done).symm ▸ hsubmit
  | iterate t0 t1 now =>
    rw [TimedAction.forget, InferenceServer.asks, InferenceServer.asks, List.append_nil]
    exact h.iterate torch src runner t0 t1 hnow heq

/-- **A run.** -/
theorem Metered.run (h : Metered tok asks done firsts m) (torch : Torch R) (src : Source R G)
    (runner : ModelRunner X D R) (acts : List (TimedAction R Q)) (hclock : ∀ a ∈ acts, a.now ≠ 0)
    (heq : m.run torch src runner acts = .ok m') :
    Metered tok (asks ++ InferenceServer.asks (acts.map TimedAction.forget))
      (done ++ finishes torch src runner m.server (acts.map TimedAction.forget))
      (firsts ++ m.firstTokens torch src runner acts) m' := by
  induction acts generalizing m asks done firsts with
  | nil =>
    obtain rfl := Except.ok.inj heq
    rw [List.map_nil, InferenceServer.asks, finishes, firstTokens, List.append_nil, List.append_nil,
      List.append_nil]
    exact h
  | cons a acts ih =>
    rw [MeteredServer.run] at heq
    have hserver := act_server torch src runner m a
    rw [List.map_cons, finishes, asks_cons, firstTokens, ← List.append_assoc, ← List.append_assoc,
      ← List.append_assoc, ← hserver]
    rcases hact : m.act torch src runner a with ⟨res, m₁⟩
    rw [hact] at heq
    cases res with
    | error x => cases heq
    | ok =>
      have hstep := h.act torch src runner (hclock a List.mem_cons_self) hact
      exact ih hstep (fun a' ha' => hclock a' (List.mem_cons_of_mem a ha')) heq

/-! ### The counts -/

/-- An action that does not raise is followed by the rest of the run. -/
theorem run_cons {torch : Torch R} {src : Source R G} {runner : ModelRunner X D R} {a : TimedAction R Q}
    (h : (m.act torch src runner a).1 = .ok ()) (acts : List (TimedAction R Q)) :
    m.run torch src runner (a :: acts) = (m.act torch src runner a).2.run torch src runner acts := by
  rw [MeteredServer.run]
  rcases hact : m.act torch src runner a with ⟨res, m₁⟩
  rw [hact] at h
  obtain rfl : res = .ok () := h
  rfl

omit [LinearOrder Q] [LinearOrder R] in
/-- With all requests done they are the submitted ones. -/
theorem Metered.done_perm (h : Metered tok asks done firsts m) (hall : ∀ r < asks.length, r ∈ done) :
    done.Perm (List.range asks.length) := by
  have hqueued : m.server.engine.queued = [] := by
    refine List.eq_nil_iff_forall_not_mem.2 fun r hr => ?_
    obtain ⟨hlt, hd⟩ := (h.serving.mem_queued r).1 hr
    exact hd (hall r hlt)
  have hperm := h.serving.requests
  rwa [hqueued, List.nil_append] at hperm

end

/-- **Latency metrics count each request once**: the times to first token are those of the requests with an
output, each taken in the iteration that produced its first token, and once all requests are done every count
is theirs. -/
structure CountedOnce (m : MeteredServer D R G Q) (firsts : List Q) (n : ℕ) (done : List ℕ) : Prop where
  each : m.metrics.ttft.Perm firsts
  ttft : m.metrics.ttft.length = (List.range n).countP fun r => m.output r ≠ []
  all_done : (∀ r < n, r ∈ done) → m.metrics.ttft.length = n ∧ m.metrics.e2e.length = n ∧
    m.metrics.requests = n ∧ m.metrics.tokens = ((List.range n).map fun r => (m.output r).length).sum

end MeteredServer

open MeteredServer

/-- **Every first token is observed exactly while no request ends with its first token.**  After any
submissions and iterations none of which raises, at clock readings other than the `0.0` that marks a first
token not yet seen, each request is counted once iff no finished one has an output of one token.  The requests
that are done, their latencies and their tokens are counted in any case. -/
theorem counted_once_iff {X D R G Q : Type} [Zero D] [Field R] [LinearOrder R] [Field Q] [LinearOrder Q]
    (torch : Torch R) (src : Source R G) (runner : ModelRunner X D R) (T : Transformer X D R)
    (tok : Tokenizer) (numBlocks blockSize maxBatchTokens : ℕ) (chunkSize : Option ℕ) (rng : G)
    (acts : List (TimedAction R Q)) (hclock : ∀ a ∈ acts, a.now ≠ 0) {m : MeteredServer D R G Q}
    (h : MeteredServer.run torch src runner
      (.init T tok numBlocks blockSize maxBatchTokens chunkSize rng) acts = .ok m) :
    let m₀ : MeteredServer D R G Q := .init T tok numBlocks blockSize maxBatchTokens chunkSize rng
    let n := (asks (acts.map TimedAction.forget)).length
    let done := finishes torch src runner m₀.server (acts.map TimedAction.forget)
    (CountedOnce m (m₀.firstTokens torch src runner acts) n done ↔ ∀ r ∈ done, (m.output r).length ≠ 1) ∧
      m.metrics.e2e.length = done.length ∧ m.metrics.requests = done.length ∧
      m.metrics.tokens = (done.map fun r => (m.output r).length).sum := by
  intro m₀ n done
  have hm : Metered tok (asks (acts.map TimedAction.forget)) done
      (m₀.firstTokens torch src runner acts) m := by
    have hrun := (init_metered T tok numBlocks blockSize maxBatchTokens chunkSize rng).run
      torch src runner acts hclock h
    rw [List.nil_append, List.nil_append, List.nil_append] at hrun
    exact hrun
  obtain ⟨missed, hlen, hperm⟩ := hm.ttft
  have htotal := hperm.length_eq
  rw [List.length_append, hlen] at htotal
  refine ⟨⟨fun hc r hr hone => ?_, fun hno => ?_⟩, hm.e2e, hm.requests, hm.tokens⟩
  · -- a request that ended with its first token is missed
    have hpos : 0 < done.countP fun r => (m.output r).length = 1 :=
      List.countP_pos_iff.2 ⟨r, hr, decide_eq_true hone⟩
    have heq := htotal.trans hc.each.length_eq.symm
    omega
  · have hzero : (done.countP fun r => (m.output r).length = 1) = 0 :=
      List.countP_eq_zero.2 fun r hr => by simpa using hno r hr
    have hnil : missed = [] := List.eq_nil_of_length_eq_zero (hlen.trans hzero)
    rw [hnil, List.append_nil] at hperm
    have hcount := hperm.length_eq.trans hm.firsts
    refine ⟨hperm, hcount, fun hall => ?_⟩
    have hdone := hm.done_perm hall
    have hdoneLen : done.length = n := hdone.length_eq.trans List.length_range
    refine ⟨hcount.trans ?_, hm.e2e.trans hdoneLen, hm.requests.trans hdoneLen, hm.tokens.trans ?_⟩
    · rw [List.countP_eq_length.2, List.length_range]
      intro r hr
      exact decide_eq_true (hm.answered r (hall r (List.mem_range.1 hr)))
    · exact (hdone.map _).sum_eq

/-- The hypotheses are satisfiable: a request of two tokens is counted once. -/
theorem counted_once_iff_two :
    let torch : Torch ℚ := ⟨id, fun _ => []⟩
    let src : Source ℚ Unit := ⟨fun g => (0, g), fun _ g => (0, g)⟩
    let tok : Tokenizer :=
      ⟨fun text => text.map (·.toNat % 3), none, fun ids => ids.map fun t => Char.ofNat (65 + t)⟩
    let acts : List (TimedAction ℚ ℚ) := [.generate ⟨['A', 'B'], 2, 0, 0⟩ 1, .iterate 2 3 4, .iterate 5 6 8]
    let m₀ : MeteredServer ℤ ℚ Unit ℚ := .init sumModel tok 8 2 8 none ()
    let m := acts.foldl (fun m a => (m.act torch src sumModel.runner a).2) m₀
    CountedOnce m (m₀.firstTokens torch src sumModel.runner acts) 1 [0] ∧ m.metrics.ttft = [3] ∧
      m.metrics.e2e = [7] ∧ m.metrics.tpot = [4] ∧ m.metrics.tokens = 2 := by
  intro torch src tok acts m₀ m
  have h := counted_once_iff torch src sumModel.runner sumModel tok 8 2 8 none () acts (by decide +kernel)
    (m := m) ((MeteredServer.run_cons (by decide +kernel) _).trans
      ((MeteredServer.run_cons (by decide +kernel) _).trans (MeteredServer.run_cons (by decide +kernel) _)))
  have hdone : finishes torch src sumModel.runner m₀.server (acts.map TimedAction.forget) = [0] := by
    decide +kernel
  have hcounted : CountedOnce m (m₀.firstTokens torch src sumModel.runner acts) 1
      (finishes torch src sumModel.runner m₀.server (acts.map TimedAction.forget)) :=
    h.1.2 (by decide +kernel)
  rw [hdone] at hcounted
  exact ⟨hcounted, by decide +kernel, by decide +kernel, by decide +kernel, by decide +kernel⟩

/-- **A request of one token has no time to first token**: it is finished before `_reap` looks at it. -/
theorem first_token_missed :
    let torch : Torch ℚ := ⟨id, fun _ => []⟩
    let src : Source ℚ Unit := ⟨fun g => (0, g), fun _ g => (0, g)⟩
    let tok : Tokenizer :=
      ⟨fun text => text.map (·.toNat % 3), none, fun ids => ids.map fun t => Char.ofNat (65 + t)⟩
    let acts : List (TimedAction ℚ ℚ) := [.generate ⟨['B'], 1, 0, 0⟩ 1, .iterate 2 3 4]
    let m₀ : MeteredServer ℤ ℚ Unit ℚ := .init sumModel tok 8 2 8 none ()
    let m := acts.foldl (fun m a => (m.act torch src sumModel.runner a).2) m₀
    (m₀.run torch src sumModel.runner acts).toOption.map (·.metrics.ttft) = some m.metrics.ttft ∧
      finishes torch src sumModel.runner m₀.server (acts.map TimedAction.forget) = [0] ∧ m.output 0 = [0] ∧
      m.metrics.ttft = [] ∧ m.metrics.e2e = [3] ∧ m.metrics.requests = 1 ∧
      ¬CountedOnce m (m₀.firstTokens torch src sumModel.runner acts) 1 [0] := by
  intro torch src tok acts m₀ m
  refine ⟨by decide +kernel, by decide +kernel, by decide +kernel, by decide +kernel, by decide +kernel,
    by decide +kernel, fun h => ?_⟩
  exact absurd h.ttft (by decide +kernel)

end DiSpec
