/-
# The metrics of the server

`dispec/router/metrics.py` and what `dispec/router/server.py` records in it: `InferenceServer.generate`,
`generate_stream`, `_run`, `_reap`, with the times of `_Pending` and the autoscaler.

The readings of `time.perf_counter` come with the actions.  The clock and the metrics decide nothing: without
them an action is that of the server (`act_server`).

What `_reap` records is said loop by loop.  The first observes a time to first token for each pending request
that runs, has an output and has none yet (`reapRunning_records`); the second counts every finished one
(`reapFinished_records`).
-/

import DiSpec.Router.Autoscale
import DiSpec.Router.Reap

namespace DiSpec

open InferenceServer ContinuousBatchingEngine

/-- The collectors: the values of the counters and gauges, the observations of the histograms in order. -/
structure Metrics (Q : Type) where
  requests : ℕ
  tokens : ℕ
  ttft : List Q
  tpot : List Q
  e2e : List Q
  step : List Q
  running : ℕ
  waiting : ℕ
  draftReplicas : ℤ
  batch : List ℕ

/-- `InferenceServer` with what it measures.  `tSubmit r` and `tFirst r` are `t_submit` and `t_first` of the
pending entry of request `r`. -/
structure MeteredServer (D R G Q : Type) where
  server : InferenceServer D R G
  tSubmit : ℕ → Q
  tFirst : ℕ → Q
  autoscaler : DraftPoolAutoscaler Q
  metrics : Metrics Q

/-- What happens at a server, with the readings of the clock: one for a submission; those before and after the
step and that of `_reap` for an iteration. -/
inductive TimedAction (R Q : Type)
  | generate (a : Ask R) (now : Q)
  | generateStream (a : Ask R) (now : Q)
  | iterate (t0 t1 now : Q)

/-- The action without the clock. -/
def TimedAction.forget {R Q : Type} : TimedAction R Q → Action R
  | .generate a _ => .generate a
  | .generateStream a _ => .generateStream a
  | .iterate _ _ _ => .iterate

namespace MeteredServer

variable {X D R G Q : Type} [Field Q] [LinearOrder Q]

/-- `InferenceServer.__init__` in a fresh process. -/
def init [Zero D] [Field R] [LinearOrder R] (T : Transformer X D R) (tok : Tokenizer)
    (numBlocks blockSize maxBatchTokens : ℕ) (chunkSize : Option ℕ) (rng : G) : MeteredServer D R G Q where
  server := .init T tok numBlocks blockSize maxBatchTokens chunkSize rng
  tSubmit _ := 0
  tFirst _ := 0
  autoscaler := .init none
  metrics := ⟨0, 0, [], [], [], [], 0, 0, 0, []⟩

/-- `generate` and `generate_stream` under the lock, with the times of the new pending entry. -/
def submit [Field R] (m : MeteredServer D R G Q) (queue : Bool) (a : Ask R) (now : Q) :
    Except Exc ℕ × MeteredServer D R G Q :=
  match m.server.submit queue a with
  | (.error x, server) => (.error x, { m with server })
  | (.ok rid, server) =>
    (.ok rid, { m with server, tSubmit := Function.update m.tSubmit rid now,
                       tFirst := Function.update m.tFirst rid 0 })

/-! ### `_reap` -/

/-- TTFT: the first output token of a request, seen while it is still running. -/
def observeFirst (m : MeteredServer D R G Q) (now : Q) (rid : ℕ) : MeteredServer D R G Q :=
  if m.tFirst rid = 0 then
    { m with tFirst := Function.update m.tFirst rid now,
             metrics := { m.metrics with ttft := m.metrics.ttft ++ [now - m.tSubmit rid] } }
  else m

/-- The first loop of `_reap`, over the pending entries. -/
def reapRunning (m : MeteredServer D R G Q) (now : Q) : List (ℕ × Pending) → MeteredServer D R G Q
  | [] => m
  | (rid, p) :: rest =>
    match byId m.server.engine rid with
    | none => m.reapRunning now rest
    | some r =>
      let outputIds := (m.server.engine.req r).outputIds
      if outputIds = [] then m.reapRunning now rest
      else
        let m := m.observeFirst now rid
        if p.queue then
          match pushDelta m.server.tok p outputIds with
          | (p, events) =>
            let server := { m.server with pending := m.server.pending.replace rid p }.post rid events
            { m with server }.reapRunning now rest
        else m.reapRunning now rest

/-- The metrics of a request that is done. -/
def complete (m : MeteredServer D R G Q) (now : Q) (rid : ℕ) (outputIds : List ℕ) : Metrics Q :=
  let tFirst := if m.tFirst rid = 0 then now else m.tFirst rid
  { m.metrics with
    e2e := m.metrics.e2e ++ [now - m.tSubmit rid]
    requests := m.metrics.requests + 1
    tokens := m.metrics.tokens + outputIds.length
    tpot := if 1 < outputIds.length then
        m.metrics.tpot ++ [(now - tFirst) / ((outputIds.length - 1 : ℕ) : Q)]
      else m.metrics.tpot }

/-- The second loop of `_reap`, over the finished requests. -/
def reapFinished (m : MeteredServer D R G Q) (now : Q) : List ℕ → MeteredServer D R G Q
  | [] => m
  | r :: rs =>
    let rid := (m.server.engine.req r).id
    match m.server.pending.lookup rid with
    | none => m.reapFinished now rs
    | some p =>
      let outputIds := (m.server.engine.req r).outputIds
      let metrics := m.complete now rid outputIds
      let server := { m.server with pending := m.server.pending.erase rid }
      if p.queue then
        let events := (pushDelta server.tok p outputIds).2 ++ [.sentinel]
        { m with metrics, server := server.post rid events }.reapFinished now rs
      else { m with metrics, server := server.post rid [.result outputIds] }.reapFinished now rs

/-- `_reap`. -/
def reap (m : MeteredServer D R G Q) (now : Q) : MeteredServer D R G Q :=
  let m := m.reapRunning now m.server.pending.items
  if m.server.engine.finished = [] then m
  else
    let m := m.reapFinished now m.server.engine.finished
    { m with server := { m.server with engine := { m.server.engine with finished := [] } } }

/-! ### `_run` -/

/-- `num_prefill_tokens + num_decode_tokens`. -/
def processed (e : ContinuousBatchingEngine D R G) : ℕ := e.numPrefillTokens + e.numDecodeTokens

/-- What `_run` records of a step, and the autoscaler's turn. -/
def observeStep (m : MeteredServer D R G Q) (before : ℕ) (seconds : Q) : MeteredServer D R G Q :=
  let e := m.server.engine
  match m.autoscaler.observe (e.running.length : Q) with
  | (replicas, autoscaler) =>
    { m with
      autoscaler
      metrics := { m.metrics with
        step := m.metrics.step ++ [seconds]
        batch := m.metrics.batch ++ [max (processed e - before) 1]
        running := e.running.length
        waiting := e.waiting.length
        draftReplicas := replicas } }

variable [Field R] [LinearOrder R]

/-- One round of `_run`. -/
def iterate (torch : Torch R) (src : Source R G) (runner : ModelRunner X D R) (m : MeteredServer D R G Q)
    (t0 t1 now : Q) : Except Exc Unit × MeteredServer D R G Q :=
  if m.server.engine.hasWork then
    let before := processed m.server.engine
    match m.server.engine.step torch src runner with
    | (.error x, engine) => (.error x, { m with server := { m.server with engine } })
    | (.ok (), engine) =>
      (.ok (), ({ m with server := { m.server with engine } }.observeStep before (t1 - t0)).reap now)
  else (.ok (), m)

/-- One action. -/
def act (torch : Torch R) (src : Source R G) (runner : ModelRunner X D R) (m : MeteredServer D R G Q) :
    TimedAction R Q → Except Exc Unit × MeteredServer D R G Q
  | .generate a now => match m.submit false a now with | (r, m) => (r.map fun _ => (), m)
  | .generateStream a now => match m.submit true a now with | (r, m) => (r.map fun _ => (), m)
  | .iterate t0 t1 now => m.iterate torch src runner t0 t1 now

/-- A run in which no action raises. -/
def run (torch : Torch R) (src : Source R G) (runner : ModelRunner X D R) :
    MeteredServer D R G Q → List (TimedAction R Q) → Except Exc (MeteredServer D R G Q)
  | m, [] => .ok m
  | m, a :: acts =>
    match m.act torch src runner a with
    | (.error x, _) => .error x
    | (.ok (), m) => run torch src runner m acts

/-! ### The server without its metrics -/

section

variable {m : MeteredServer D R G Q} {now : Q}

omit [Field R] [LinearOrder R]

@[simp] theorem observeFirst_server (m : MeteredServer D R G Q) (now : Q) (rid : ℕ) :
    (m.observeFirst now rid).server = m.server := by
  unfold observeFirst
  split
  · rfl
  · rfl

@[simp] theorem observeFirst_tSubmit (m : MeteredServer D R G Q) (now : Q) (rid : ℕ) :
    (m.observeFirst now rid).tSubmit = m.tSubmit := by
  unfold observeFirst
  split
  · rfl
  · rfl

theorem reapRunning_server (m : MeteredServer D R G Q) (now : Q) (l : List (ℕ × Pending)) :
    (m.reapRunning now l).server = m.server.reapRunning l := by
  induction l generalizing m with
  | nil => rfl
  | cons x l ih =>
    obtain ⟨rid, p⟩ := x
    unfold reapRunning InferenceServer.reapRunning
    cases byId m.server.engine rid with
    | none => exact ih m
    | some r =>
      dsimp only
      split
      · exact ih m
      · split
        · rw [ih, observeFirst_server]
        · rw [ih, observeFirst_server]

theorem reapFinished_server (m : MeteredServer D R G Q) (now : Q) (l : List ℕ) :
    (m.reapFinished now l).server = m.server.reapFinished l := by
  induction l generalizing m with
  | nil => rfl
  | cons r l ih =>
    unfold reapFinished InferenceServer.reapFinished
    dsimp only
    cases m.server.pending.lookup (m.server.engine.req r).id with
    | none => exact ih m
    | some p =>
      dsimp only
      split
      · rw [ih]
      · rw [ih]

theorem reap_server (m : MeteredServer D R G Q) (now : Q) : (m.reap now).server = m.server.reap := by
  unfold reap InferenceServer.reap
  dsimp only
  rw [reapRunning_server]
  split
  · exact reapRunning_server m now _
  · dsimp only
    rw [reapFinished_server, reapRunning_server]

end

omit [LinearOrder Q] [LinearOrder R] in
theorem submit_server (m : MeteredServer D R G Q) (queue : Bool) (a : Ask R) (now : Q) :
    ((m.submit queue a now).1, (m.submit queue a now).2.server) = m.server.submit queue a := by
  unfold submit
  rcases m.server.submit queue a with ⟨x | rid, server⟩
  · rfl
  · rfl

theorem iterate_server (torch : Torch R) (src : Source R G) (runner : ModelRunner X D R)
    (m : MeteredServer D R G Q) (t0 t1 now : Q) :
    ((m.iterate torch src runner t0 t1 now).1, (m.iterate torch src runner t0 t1 now).2.server) =
      m.server.iterate torch src runner := by
  unfold iterate InferenceServer.iterate
  split
  · dsimp only
    rcases m.server.engine.step torch src runner with ⟨x | u, engine⟩
    · rfl
    · dsimp only
      rw [reap_server]
      rfl
  · rfl

/-- **The metrics decide nothing**: without them an action is that of the server. -/
theorem act_server (torch : Torch R) (src : Source R G) (runner : ModelRunner X D R)
    (m : MeteredServer D R G Q) (a : TimedAction R Q) :
    ((m.act torch src runner a).1, (m.act torch src runner a).2.server) =
      m.server.act torch src runner a.forget := by
  cases a with
  | generate a now =>
    unfold act TimedAction.forget InferenceServer.act InferenceServer.generate
    dsimp only
    rw [← submit_server m false a now]
  | generateStream a now =>
    unfold act TimedAction.forget InferenceServer.act InferenceServer.generateStream
    dsimp only
    rw [← submit_server m true a now]
  | iterate t0 t1 now => exact iterate_server torch src runner m t0 t1 now

/-! ### What `_reap` records -/

section

omit [Field R] [LinearOrder R]

/-- The first loop of `_reap` observes the first token of a request: it runs, has an output, and none was
observed. -/
def Due (m : MeteredServer D R G Q) (rid : ℕ) : Prop :=
  ∃ r, byId m.server.engine rid = some r ∧ (m.server.engine.req r).outputIds ≠ [] ∧ m.tFirst rid = 0

instance (m : MeteredServer D R G Q) (rid : ℕ) : Decidable (m.Due rid) :=
  match h : byId m.server.engine rid with
  | none => isFalse fun ⟨_, hr, _⟩ => by rw [h] at hr; cases hr
  | some r => decidable_of_iff ((m.server.engine.req r).outputIds ≠ [] ∧ m.tFirst rid = 0)
      ⟨fun hd => ⟨r, h, hd⟩, fun ⟨r', hr', hd⟩ => by
        obtain rfl := Option.some.inj (h.symm.trans hr')
        exact hd⟩

/-- One entry of the first loop. -/
theorem reapRunning_cons (m : MeteredServer D R G Q) (now : Q) (rid : ℕ) (p : Pending)
    (rest : List (ℕ × Pending)) :
    ∃ m₁ : MeteredServer D R G Q, m.reapRunning now ((rid, p) :: rest) = m₁.reapRunning now rest ∧
      m₁.server.engine = m.server.engine ∧ m₁.tSubmit = m.tSubmit ∧
      (m.Due rid → m₁.tFirst = Function.update m.tFirst rid now ∧
        m₁.metrics = { m.metrics with ttft := m.metrics.ttft ++ [now - m.tSubmit rid] }) ∧
      (¬m.Due rid → m₁.tFirst = m.tFirst ∧ m₁.metrics = m.metrics) := by
  rw [reapRunning]
  cases hr : byId m.server.engine rid with
  | none =>
    have hdue : ¬m.Due rid := by
      rintro ⟨r, hr', -⟩
      rw [hr] at hr'
      cases hr'
    exact ⟨m, rfl, rfl, rfl, fun hd => absurd hd hdue, fun _ => ⟨rfl, rfl⟩⟩
  | some r =>
    dsimp only
    by_cases hout : (m.server.engine.req r).outputIds = []
    · have hdue : ¬m.Due rid := by
        rintro ⟨r', hr', hne, -⟩
        obtain rfl := Option.some.inj (hr.symm.trans hr')
        exact hne hout
      rw [if_pos hout]
      exact ⟨m, rfl, rfl, rfl, fun hd => absurd hd hdue, fun _ => ⟨rfl, rfl⟩⟩
    · rw [if_neg hout]
      have hyes : m.Due rid → (m.observeFirst now rid).tFirst = Function.update m.tFirst rid now ∧
          (m.observeFirst now rid).metrics =
            { m.metrics with ttft := m.metrics.ttft ++ [now - m.tSubmit rid] } := by
        rintro ⟨-, -, -, hzero⟩
        unfold observeFirst
        rw [if_pos hzero]
        exact ⟨rfl, rfl⟩
      have hno : ¬m.Due rid → (m.observeFirst now rid).tFirst = m.tFirst ∧
          (m.observeFirst now rid).metrics = m.metrics := by
        intro hdue
        unfold observeFirst
        rw [if_neg fun hzero => hdue ⟨r, hr, hout, hzero⟩]
        exact ⟨rfl, rfl⟩
      split
      · refine ⟨_, rfl, ?_, ?_, hyes, hno⟩
        · dsimp only [post]
          rw [observeFirst_server]
        · exact observeFirst_tSubmit m now rid
      · refine ⟨_, rfl, ?_, ?_, hyes, hno⟩
        · rw [observeFirst_server]
        · exact observeFirst_tSubmit m now rid

/-- **What the first loop of `_reap` records**: the time since its submission for each entry that is due. -/
theorem reapRunning_records (m : MeteredServer D R G Q) (now : Q) (l : List (ℕ × Pending))
    (hn : (l.map Prod.fst).Nodup) :
    (m.reapRunning now l).tSubmit = m.tSubmit ∧
      (∀ r, (m.reapRunning now l).tFirst r = if r ∈ l.map Prod.fst ∧ m.Due r then now else m.tFirst r) ∧
      (m.reapRunning now l).metrics =
        { m.metrics with
          ttft := m.metrics.ttft ++
            ((l.map Prod.fst).filter fun r => m.Due r).map fun r => now - m.tSubmit r } := by
  induction l generalizing m with
  | nil =>
    refine ⟨rfl, fun r => ?_, ?_⟩
    · rw [if_neg fun h => absurd h.1 List.not_mem_nil]
      rfl
    · rw [List.map_nil, List.filter_nil, List.map_nil, List.append_nil]
      rfl
  | cons x l ih =>
    obtain ⟨rid, p⟩ := x
    rw [List.map_cons, List.nodup_cons] at hn
    obtain ⟨m₁, heq, heng, hsubmit, hyes, hno⟩ := reapRunning_cons m now rid p l
    obtain ⟨htSubmit, htFirst, hmetrics⟩ := ih m₁ hn.2
    -- the other entries are as due as they were
    have hne : ∀ r ∈ l.map Prod.fst, r ≠ rid := fun r hr he => hn.1 (he ▸ hr)
    have hother : ∀ r, r ≠ rid → m₁.tFirst r = m.tFirst r := by
      intro r hr
      by_cases hd : m.Due rid
      · rw [(hyes hd).1, Function.update_of_ne hr]
      · rw [(hno hd).1]
    have hdue : ∀ r, r ≠ rid → (m₁.Due r ↔ m.Due r) := by
      intro r hr
      unfold Due
      rw [heng, hother r hr]
    have hfilter : ((l.map Prod.fst).filter fun r => m₁.Due r) = (l.map Prod.fst).filter fun r => m.Due r :=
      List.filter_congr fun r hr => decide_eq_decide.2 (hdue r (hne r hr))
    rw [heq, List.map_cons]
    refine ⟨htSubmit.trans hsubmit, fun r => ?_, ?_⟩
    · rw [htFirst r]
      by_cases hr : r = rid
      · subst hr
        rw [if_neg fun h => hn.1 h.1]
        by_cases hd : m.Due r
        · rw [if_pos ⟨List.mem_cons_self, hd⟩, (hyes hd).1, Function.update_self]
        · rw [if_neg fun h => hd h.2, (hno hd).1]
      · rw [hother r hr]
        refine if_congr ?_ rfl rfl
        rw [hdue r hr, List.mem_cons, or_iff_right hr]
    · rw [hmetrics, hfilter, hsubmit]
      by_cases hd : m.Due rid
      · rw [List.filter_cons_of_pos (by exact decide_eq_true hd), List.map_cons, (hyes hd).2]
        dsimp only
        rw [List.append_assoc, List.singleton_append]
      · rw [List.filter_cons_of_neg (by simpa using hd), (hno hd).2]

/-- One entry of the second loop, a finished request that is pending. -/
theorem reapFinished_cons (m : MeteredServer D R G Q) (now : Q) {r : ℕ} (rs : List ℕ)
    (hid : (m.server.engine.req r).id = r) {p : Pending} (hp : m.server.pending.lookup r = some p) :
    ∃ m₁ : MeteredServer D R G Q, m.reapFinished now (r :: rs) = m₁.reapFinished now rs ∧
      m₁.server.engine = m.server.engine ∧ m₁.server.pending = m.server.pending.erase r ∧
      m₁.tSubmit = m.tSubmit ∧ m₁.tFirst = m.tFirst ∧
      m₁.metrics = m.complete now r (m.server.engine.req r).outputIds := by
  rw [reapFinished, hid, hp]
  dsimp only
  split
  · exact ⟨_, rfl, rfl, rfl, rfl, rfl, rfl⟩
  · exact ⟨_, rfl, rfl, rfl, rfl, rfl, rfl⟩

/-- **What the second loop of `_reap` records** of finished requests that are pending: each is counted
once. -/
theorem reapFinished_records (m : MeteredServer D R G Q) (now : Q) (l : List ℕ) (hn : l.Nodup)
    (hid : ∀ r, (m.server.engine.req r).id = r) (hl : ∀ r ∈ l, (m.server.pending.lookup r).isSome) :
    (m.reapFinished now l).tSubmit = m.tSubmit ∧ (m.reapFinished now l).tFirst = m.tFirst ∧
      (m.reapFinished now l).metrics.ttft = m.metrics.ttft ∧
      (m.reapFinished now l).metrics.e2e = m.metrics.e2e ++ l.map (fun r => now - m.tSubmit r) ∧
      (m.reapFinished now l).metrics.requests = m.metrics.requests + l.length ∧
      (m.reapFinished now l).metrics.tokens =
        m.metrics.tokens + (l.map fun r => (m.server.engine.req r).outputIds.length).sum := by
  induction l generalizing m with
  | nil => exact ⟨rfl, rfl, rfl, (List.append_nil _).symm, rfl, rfl⟩
  | cons r l ih =>
    rw [List.nodup_cons] at hn
    obtain ⟨p, hp⟩ := Option.isSome_iff_exists.1 (hl r List.mem_cons_self)
    obtain ⟨m₁, heq, heng, hpending, hsubmit, hfirst, hmetrics⟩ := reapFinished_cons m now l (hid r) hp
    have hl₁ : ∀ r' ∈ l, (m₁.server.pending.lookup r').isSome := by
      intro r' hr'
      have hne : r' ≠ r := fun he => hn.1 (he ▸ hr')
      rw [hpending, AList.lookup_erase_ne hne]
      exact hl r' (List.mem_cons_of_mem r hr')
    obtain ⟨hsubmit', hfirst', httft, he2e, hrequests, htokens⟩ := ih m₁ hn.2 (by rwa [heng]) hl₁
    rw [heq, httft, he2e, hrequests, htokens, hmetrics, heng, hsubmit]
    refine ⟨hsubmit'.trans hsubmit, hfirst'.trans hfirst, rfl, ?_, ?_, ?_⟩
    · rw [List.map_cons]
      exact List.append_assoc _ _ _
    · dsimp only [complete]
      rw [List.length_cons]
      omega
    · dsimp only [complete]
      rw [List.map_cons, List.sum_cons]
      omega

/-- The requests whose first token `_reap` observes, in the order of the pending entries. -/
def dues (m : MeteredServer D R G Q) : List ℕ := (m.server.pending.items.map Prod.fst).filter fun r => m.Due r

theorem mem_dues {m : MeteredServer D R G Q} {r : ℕ} : r ∈ m.dues ↔ r ∈ m.server.pending ∧ m.Due r := by
  unfold dues
  rw [List.mem_filter, decide_eq_true_iff, Dict.map_fst_items, List.mem_reverse, AList.mem_keys]

theorem nodup_dues (m : MeteredServer D R G Q) : m.dues.Nodup := (Dict.nodup_items _).filter _

/-- **What `_reap` records**, where every finished request is pending. -/
theorem reap_records (m : MeteredServer D R G Q) (now : Q) (hid : ∀ r, (m.server.engine.req r).id = r)
    (hn : m.server.engine.finished.Nodup) (hp : ∀ r ∈ m.server.engine.finished, r ∈ m.server.pending) :
    (m.reap now).tSubmit = m.tSubmit ∧
      (∀ r, (m.reap now).tFirst r = if r ∈ m.dues then now else m.tFirst r) ∧
      (m.reap now).metrics.ttft = m.metrics.ttft ++ m.dues.map (fun r => now - m.tSubmit r) ∧
      (m.reap now).metrics.e2e =
        m.metrics.e2e ++ m.server.engine.finished.map (fun r => now - m.tSubmit r) ∧
      (m.reap now).metrics.requests = m.metrics.requests + m.server.engine.finished.length ∧
      (m.reap now).metrics.tokens = m.metrics.tokens +
        (m.server.engine.finished.map fun r => (m.server.engine.req r).outputIds.length).sum := by
  obtain ⟨hsubmit, hfirst, hmetrics⟩ :=
    reapRunning_records m now m.server.pending.items (Dict.nodup_items _)
  have hserver := reapRunning_server m now m.server.pending.items
  obtain ⟨heng, -, -, hpush⟩ := reapRunning_spec m.server.pending.items m.server (Dict.nodup_items _)
    fun x hx => Dict.mem_items_iff.1 hx
  set m₁ := m.reapRunning now m.server.pending.items
  rw [← hserver] at heng hpush
  have hpending : ∀ r ∈ m.server.engine.finished, (m₁.server.pending.lookup r).isSome := by
    intro r hr
    obtain ⟨p, hlook⟩ := Option.isSome_iff_exists.1 (AList.lookup_isSome.2 (hp r hr))
    rw [(hpush (r, p) (Dict.mem_items_iff.2 hlook)).1]
    rfl
  obtain ⟨hsubmit', hfirst', httft, he2e, hrequests, htokens⟩ :=
    reapFinished_records m₁ now m.server.engine.finished hn (by rwa [heng]) hpending
  set m₂ := m₁.reapFinished now m.server.engine.finished
  -- with nothing finished the second loop does nothing
  have hreap : (m.reap now).tSubmit = m₂.tSubmit ∧ (m.reap now).tFirst = m₂.tFirst ∧
      (m.reap now).metrics = m₂.metrics := by
    unfold reap
    dsimp only
    rw [show m.reapRunning now m.server.pending.items = m₁ from rfl, heng]
    split
    · next hnil =>
      have hm₂ : m₂ = m₁ := by
        show m₁.reapFinished now m.server.engine.finished = m₁
        rw [hnil]
        rfl
      rw [hm₂]
      exact ⟨rfl, rfl, rfl⟩
    · exact ⟨rfl, rfl, rfl⟩
  have hkeys : ∀ r, (r ∈ m.server.pending.items.map Prod.fst ∧ m.Due r) ↔ r ∈ m.dues := fun r => by
    rw [dues, List.mem_filter, decide_eq_true_iff]
  rw [hreap.1, hreap.2.1, hreap.2.2, hsubmit', hfirst', httft, he2e, hrequests, htokens, heng, hsubmit,
    hmetrics]
  exact ⟨rfl, fun r => (hfirst r).trans (if_congr (hkeys r) rfl rfl), rfl, rfl, rfl, rfl⟩

end

end MeteredServer

end DiSpec
