/-
# The threads of the inference server

`dispec/router/server.py`: `InferenceServer.generate`, `generate_stream`, `_run`, `_reap`, with their lock.

Handlers of any number of event loops submit while one background thread loops over `step`.  What they share
they touch inside `with self._lock` only.  Here the sections are cut into what runs without interruption at
the least: the check for work, the two halves of a step, the push or answer of one request (`actCode`).  The
moves of the threads interleave in any order; that a thread may be late covers `stop`, which only makes the
background thread call nothing more.

An iteration that raises gives the lock back and ends the background thread.

By `Lib/Lock.lean` every such run is a run of whole actions, so the results about `InferenceServer.run` are
results about threads.
-/

import DiSpec.Lib.Lock
import DiSpec.Router.Answers

namespace DiSpec
namespace InferenceServer

open ContinuousBatchingEngine Lock

variable {X D R G : Type}

/-! ### The sections -/

/-- `self._pending[rid] = _Pending(...)`. -/
def insertPending (s : InferenceServer D R G) (rid : ℕ) (queue : Bool) : InferenceServer D R G :=
  { s with pending := s.pending.insert rid ⟨queue, []⟩ }

/-- The section of `generate` and of `generate_stream`. -/
def submitCode [Field R] (queue : Bool) (a : Ask R) : Code (InferenceServer D R G) (Except Exc (Option ℕ)) := do
  match ← Code.once fun s =>
      ((s.engine.addRequest (submission s.tok a)).1,
        { s with engine := (s.engine.addRequest (submission s.tok a)).2 }) with
  | .error x => return .error x
  | .ok rid =>
    Code.once fun s => ((), s.insertPending rid queue)
    return .ok (some rid)

/-- The first loop of `_reap` for one entry. -/
def reapEntry (s : InferenceServer D R G) (rid : ℕ) (p : Pending) : InferenceServer D R G :=
  match byId s.engine rid with
  | none => s
  | some r =>
    if (s.engine.req r).outputIds = [] then s
    else if p.queue then
      { s with pending := s.pending.replace rid (pushDelta s.tok p (s.engine.req r).outputIds).1 }.post rid
        (pushDelta s.tok p (s.engine.req r).outputIds).2
    else s

/-- The second loop of `_reap` for one finished request. -/
def answer (s : InferenceServer D R G) (r : ℕ) : InferenceServer D R G :=
  match s.pending.lookup (s.engine.req r).id with
  | none => s
  | some p =>
    { s with pending := s.pending.erase (s.engine.req r).id }.post (s.engine.req r).id
      (if p.queue then (pushDelta s.tok p (s.engine.req r).outputIds).2 ++ [Event.sentinel]
        else [.result (s.engine.req r).outputIds])

/-- A loop with an operation for each item. -/
def loopCode {α : Type} (f : InferenceServer D R G → α → InferenceServer D R G) :
    List α → Code (InferenceServer D R G) Unit
  | [] => pure ()
  | x :: xs => do
    Code.once fun s => ((), f s x)
    loopCode f xs

/-- `_reap`. -/
def reapCode : Code (InferenceServer D R G) Unit := do
  let items ← Code.once fun s => (s.pending.items, s)
  loopCode (fun s x => s.reapEntry x.1 x.2) items
  let finished ← Code.once fun s => (s.engine.finished, s)
  if finished = [] then pure ()
  else do
    loopCode answer finished
    Code.once fun s => ((), { s with engine := { s.engine with finished := [] } })

section

variable [Field R] [LinearOrder R]

/-- Phases 3 to 5 of a step, if there is anything in its batch. -/
def executeCode (torch : Torch R) (src : Source R G) (runner : ModelRunner X D R) (b : Batch) :
    Code (InferenceServer D R G) (Except Exc Unit) :=
  if b.batch = [] then pure (.ok ())
  else Code.once fun s =>
    ((s.engine.execute torch src runner b).1, { s with engine := (s.engine.execute torch src runner b).2 })

/-- One round of `_run`. -/
def iterateCode (torch : Torch R) (src : Source R G) (runner : ModelRunner X D R) :
    Code (InferenceServer D R G) (Except Exc (Option ℕ)) := do
  if ← Code.once fun s => (decide s.engine.hasWork, s) then
    match ← Code.once fun s =>
        (s.engine.schedule.1.map fun _ => s.engine.schedule.2.2, { s with engine := s.engine.schedule.2.1 }) with
    | .error x => return .error x
    | .ok b =>
      match ← executeCode torch src runner b with
      | .error x => return .error x
      | .ok () =>
        reapCode
        return .ok none
  else return .ok none

/-- The section of a call. -/
def actCode (torch : Torch R) (src : Source R G) (runner : ModelRunner X D R) :
    Action R → Code (InferenceServer D R G) (Except Exc (Option ℕ))
  | .generate a => submitCode false a
  | .generateStream a => submitCode true a
  | .iterate => iterateCode torch src runner

/-- What a call returns: the id of the request, or nothing. -/
def returns (torch : Torch R) (src : Source R G) (runner : ModelRunner X D R) (s : InferenceServer D R G) :
    Action R → Except Exc (Option ℕ)
  | .generate a => (s.generate a).1.map some
  | .generateStream a => (s.generateStream a).1.map some
  | .iterate => (s.iterate torch src runner).1.map fun _ => none

end

/-! ### A section as a whole -/

theorem run_loopCode {α : Type} (f : InferenceServer D R G → α → InferenceServer D R G) (xs : List α)
    (s : InferenceServer D R G) : (loopCode f xs).run s = (xs.foldl f s, ()) := by
  induction xs generalizing s with
  | nil => rfl
  | cons x xs ih =>
    rw [loopCode, Code.run_bind, Code.run_once, ih]
    rfl

theorem reapRunning_eq_foldl (s : InferenceServer D R G) (items : List (ℕ × Pending)) :
    s.reapRunning items = items.foldl (fun s x => s.reapEntry x.1 x.2) s := by
  induction items generalizing s with
  | nil => rfl
  | cons x items ih =>
    obtain ⟨rid, p⟩ := x
    rw [List.foldl_cons, ← ih, reapRunning, reapEntry]
    dsimp only
    rcases byId s.engine rid with - | r
    · rfl
    dsimp only
    split
    · rfl
    · split <;> rfl

theorem reapFinished_eq_foldl (s : InferenceServer D R G) (rs : List ℕ) :
    s.reapFinished rs = rs.foldl answer s := by
  induction rs generalizing s with
  | nil => rfl
  | cons r rs ih =>
    rw [List.foldl_cons, ← ih, reapFinished, answer]
    rcases s.pending.lookup (s.engine.req r).id with - | p
    · rfl
    dsimp only
    split <;> rfl

theorem run_reapCode (s : InferenceServer D R G) : reapCode.run s = (s.reap, ()) := by
  rw [reapCode, Code.run_bind, Code.run_once, Code.run_bind, run_loopCode, Code.run_bind, Code.run_once,
    ← reapRunning_eq_foldl, reap]
  dsimp only
  split
  · rfl
  · rw [Code.run_bind, run_loopCode, Code.run_once, ← reapFinished_eq_foldl]

variable [Field R]

theorem run_submitCode (queue : Bool) (a : Ask R) (s : InferenceServer D R G) :
    (submitCode queue a).run s = ((s.submit queue a).2, (s.submit queue a).1.map some) := by
  rw [submitCode, Code.run_bind, Code.run_once, submit]
  rcases s.engine.addRequest (submission s.tok a) with ⟨x | rid, e⟩
  · rfl
  · rfl

variable [LinearOrder R] {torch : Torch R} {src : Source R G} {runner : ModelRunner X D R}

theorem run_iterateCode (s : InferenceServer D R G) :
    (iterateCode torch src runner).run s =
      ((s.iterate torch src runner).2, (s.iterate torch src runner).1.map fun _ => none) := by
  rw [iterateCode, Code.run_bind, Code.run_once, iterate]
  by_cases hw : s.engine.hasWork
  · rw [if_pos hw, if_pos (decide_eq_true hw), Code.run_bind, Code.run_once, step]
    rcases s.engine.schedule with ⟨x | ⟨⟩, e, b⟩
    · rfl
    dsimp only [Except.map]
    rw [Code.run_bind, executeCode]
    by_cases hb : b.batch = []
    · rw [if_pos hb, if_pos hb, Code.run_pure]
      dsimp only
      rw [Code.run_bind, run_reapCode]
      rfl
    · rw [if_neg hb, if_neg hb, Code.run_once]
      dsimp only
      rcases e.execute torch src runner b with ⟨x | ⟨⟩, e'⟩
      · rfl
      · dsimp only
        rw [Code.run_bind, run_reapCode]
        rfl
  · rw [if_neg hw, decide_eq_false hw]
    rfl

/-- **A section does what its action does.** -/
theorem run_actCode (a : Action R) (s : InferenceServer D R G) :
    (actCode torch src runner a).run s = ((s.act torch src runner a).2, s.returns torch src runner a) := by
  cases a with
  | generate a => exact run_submitCode false a s
  | generateStream a => exact run_submitCode true a s
  | iterate => exact run_iterateCode s

/-! ### Runs of threads -/

variable {ι : Type}

/-- Handlers submit; the background thread, `none`, iterates until an iteration raises. -/
def may : Option ι → List (Action R × Except Exc (Option ℕ)) → Action R → Prop
  | none, log, a => a = .iterate ∧ ∀ x ∈ log, ∃ res, x.2 = .ok res
  | some _, _, a => a ≠ .iterate

/-- The call that makes a submission. -/
def call (query : Bool × Ask R) : Action R := if query.1 then .generateStream query.2 else .generate query.2

/-- **What the threads know of a run of actions**: each submission has returned the number of its request, a
different one to every call. -/
structure Tallied (acts : List (Action R)) (log : Option ι → List (Action R × Except Exc (Option ℕ))) :
    Prop where
  returned : ∀ (i : ι) (k : ℕ) (x : Action R × Except Exc (Option ℕ)), (log (some i))[k]? = some x →
    ∃ (rid : ℕ) (query : Bool × Ask R), (asks acts)[rid]? = some query ∧ x = (call query, Except.ok (some rid))
  unique : ∀ rid < (asks acts).length, ∃! p : ι × ℕ, ∃ a, (log (some p.1))[p.2]? = some (a, Except.ok (some rid))

variable {log : Option ι → List (Action R × Except Exc (Option ℕ))} {acts : List (Action R)}

omit [Field R] [LinearOrder R] in
theorem asks_append (acts acts' : List (Action R)) : asks (acts ++ acts') = asks acts ++ asks acts' := by
  induction acts with
  | nil => rfl
  | cons a acts ih => rw [List.cons_append, asks_cons, ih, ← List.append_assoc, ← asks_cons]

/-- An action that does not raise goes on with a run. -/
theorem run_concat {s₀ s s' : InferenceServer D R G} {a : Action R}
    (h : InferenceServer.run torch src runner s₀ acts = .ok s) (ha : s.act torch src runner a = (.ok (), s')) :
    InferenceServer.run torch src runner s₀ (acts ++ [a]) = .ok s' := by
  induction acts generalizing s₀ with
  | nil =>
    obtain rfl := Except.ok.inj h
    rw [List.nil_append, run_cons (by rw [ha]), ha]
    rfl
  | cons b acts ih =>
    rw [InferenceServer.run] at h
    rcases hact : s₀.act torch src runner b with ⟨x | ⟨⟩, s₁⟩
    · rw [hact] at h
      cases h
    · rw [hact] at h
      rw [List.cons_append, run_cons (by rw [hact]), hact]
      exact ih h

omit [Field R] [LinearOrder R] in
/-- The background thread's calls are no submissions. -/
theorem Tallied.iterate [DecidableEq ι] (h : Tallied acts log) (x : Action R × Except Exc (Option ℕ)) :
    Tallied (acts ++ [.iterate]) (Function.update log none (log none ++ [x])) := by
  have hasks : asks (acts ++ [.iterate]) = asks acts := by rw [asks_append, asks, asks, List.append_nil]
  have hlog : ∀ i : ι, Function.update log none (log none ++ [x]) (some i) = log (some i) := fun i =>
    Function.update_of_ne (Option.some_ne_none i) _ _
  refine ⟨fun i k y hy => ?_, fun rid hrid => ?_⟩
  · rw [hlog] at hy
    rw [hasks]
    exact h.returned i k y hy
  · rw [hasks] at hrid
    simp only [hlog]
    exact h.unique rid hrid

omit [Field R] [LinearOrder R] in
/-- **A submission** is tallied under the next number. -/
theorem Tallied.submit [DecidableEq ι] (h : Tallied acts log) (i : ι) (query : Bool × Ask R) :
    Tallied (acts ++ [call query]) (Function.update log (some i)
      (log (some i) ++ [(call query, Except.ok (some (asks acts).length))])) := by
  have hasks : asks (acts ++ [call query]) = asks acts ++ [query] := by
    rw [asks_append]
    obtain ⟨queue, a⟩ := query
    cases queue <;> rfl
  set log' := Function.update log (some i)
    (log (some i) ++ [(call query, Except.ok (some (asks acts).length))]) with hlog'
  -- a return is one of before, or the new one
  have hcases : ∀ (j : ι) (k : ℕ) (x : Action R × Except Exc (Option ℕ)), (log' (some j))[k]? = some x ↔ (log (some j))[k]? = some x ∨
      j = i ∧ k = (log (some i)).length ∧ x = (call query, Except.ok (some (asks acts).length)) := by
    intro j k x
    rcases eq_or_ne j i with rfl | hne
    · rw [hlog', Function.update_self, List.getElem?_append]
      by_cases hk : k < (log (some j)).length
      · rw [if_pos hk]
        exact ⟨Or.inl, fun hor => hor.resolve_right fun hnew => by omega⟩
      · rw [if_neg hk, List.getElem?_eq_none (not_lt.1 hk), List.getElem?_singleton]
        by_cases hz : k - (log (some j)).length = 0
        · rw [if_pos hz, Option.some.injEq]
          refine ⟨fun heq => Or.inr ⟨rfl, by omega, heq.symm⟩, fun hor => ?_⟩
          rcases hor with hold | ⟨-, -, rfl⟩
          · cases hold
          · rfl
        · rw [if_neg hz]
          refine ⟨fun heq => (by cases heq), fun hor => ?_⟩
          rcases hor with hold | ⟨-, rfl, -⟩
          · cases hold
          · omega
    · rw [hlog', Function.update_of_ne fun heq => hne (Option.some.inj heq)]
      exact ⟨Or.inl, fun hor => hor.resolve_right fun hnew => hne hnew.1⟩
  refine ⟨fun j k x hx => ?_, fun rid hrid => ?_⟩
  · rw [hasks]
    rcases (hcases j k x).1 hx with hold | ⟨-, -, rfl⟩
    · obtain ⟨rid, q, hq, rfl⟩ := h.returned j k x hold
      exact ⟨rid, q, by rw [List.getElem?_append_left (List.getElem?_eq_some_iff.1 hq).1, hq], rfl⟩
    · exact ⟨_, query, List.getElem?_concat_length, rfl⟩
  · rw [hasks, List.length_append, List.length_singleton] at hrid
    -- who was told a number before was told a smaller one
    have hsmall : ∀ (j : ι) (k : ℕ) (a : Action R) (rid' : ℕ), (log (some j))[k]? = some (a, Except.ok (some rid')) → rid' < (asks acts).length := by
      intro j k a rid' hold
      obtain ⟨rid'', q, hq, heq⟩ := h.returned j k _ hold
      cases heq
      exact (List.getElem?_eq_some_iff.1 hq).1
    rcases Nat.lt_succ_iff_lt_or_eq.1 hrid with hlt | rfl
    · obtain ⟨p, ⟨a, hp⟩, hunique⟩ := h.unique rid hlt
      refine ⟨p, ⟨a, (hcases p.1 p.2 _).2 (Or.inl hp)⟩, fun p' hp' => ?_⟩
      obtain ⟨a', hp'⟩ := hp'
      rcases (hcases p'.1 p'.2 _).1 hp' with hold | ⟨-, -, heq⟩
      · exact hunique p' ⟨a', hold⟩
      · cases heq
        exact absurd hlt (lt_irrefl _)
    · refine ⟨(i, (log (some i)).length), ⟨_, (hcases _ _ _).2 (Or.inr ⟨rfl, rfl, rfl⟩)⟩, fun p' hp' => ?_⟩
      obtain ⟨a', hp'⟩ := hp'
      rcases (hcases p'.1 p'.2 _).1 hp' with hold | ⟨hi, hk, -⟩
      · exact absurd (hsmall _ _ _ _ hold) (lt_irrefl _)
      · exact Prod.ext hi hk

/-- The background thread is still in its loop. -/
def Alive (log : Option ι → List (Action R × Except Exc (Option ℕ))) : Prop :=
  ∀ x ∈ log none, ∃ res, x.2 = .ok res

omit [Field R] [LinearOrder R] in
theorem alive_iterate [DecidableEq ι] (x : Action R × Except Exc (Option ℕ)) :
    Alive (Function.update log none (log none ++ [x])) ↔ Alive log ∧ ∃ res, x.2 = .ok res := by
  unfold Alive
  rw [Function.update_self, List.forall_mem_append, List.forall_mem_singleton]

omit [Field R] [LinearOrder R] in
theorem alive_submit [DecidableEq ι] (i : ι) (x : Action R × Except Exc (Option ℕ)) :
    Alive (Function.update log (some i) (log (some i) ++ [x])) ↔ Alive log := by
  unfold Alive
  rw [Function.update_of_ne (Option.some_ne_none i).symm]

/-- An iteration that raises sends nothing. -/
theorem iterate_error {s s' : InferenceServer D R G} {x : Exc}
    (h : s.iterate torch src runner = (.error x, s')) : s'.sent = s.sent := by
  rw [iterate] at h
  by_cases hw : s.engine.hasWork
  · rw [if_pos hw] at h
    rcases hstep : s.engine.step torch src runner with ⟨y | ⟨⟩, e⟩
    · rw [hstep] at h
      obtain rfl := (Prod.mk.inj h).2
      rfl
    · rw [hstep] at h
      cases h
  · rw [if_neg hw] at h
    cases h

omit [LinearOrder R] in
/-- A submission sends nothing. -/
theorem submit_sent (s : InferenceServer D R G) (queue : Bool) (a : Ask R) :
    (s.submit queue a).2.sent = s.sent := by
  rw [submit]
  rcases s.engine.addRequest (submission s.tok a) with ⟨x | rid, e⟩
  · rfl
  · rfl

theorem act_call (torch : Torch R) (src : Source R G) (runner : ModelRunner X D R)
    (s : InferenceServer D R G) (query : Bool × Ask R) :
    (s.act torch src runner (call query)).2 = (s.submit query.1 query.2).2 ∧
      (s.act torch src runner (call query)).1 = (s.submit query.1 query.2).1.map (fun _ => ()) ∧
      s.returns torch src runner (call query) = (s.submit query.1 query.2).1.map some := by
  obtain ⟨queue, a⟩ := query
  cases queue
  · exact ⟨rfl, rfl, rfl⟩
  · exact ⟨rfl, rfl, rfl⟩

omit [Field R] [LinearOrder R] in
theorem exists_call {a : Action R} (h : a ≠ .iterate) : ∃ query, a = call query := by
  cases a with
  | generate a => exact ⟨(false, a), rfl⟩
  | generateStream a => exact ⟨(true, a), rfl⟩
  | iterate => exact absurd rfl h

/-- **What holds between sections**: a run of actions has led here, but for submissions after an iteration that
raised. -/
structure Ran (torch : Torch R) (src : Source R G) (runner : ModelRunner X D R) (s₀ s : InferenceServer D R G)
    (log : Option ι → List (Action R × Except Exc (Option ℕ))) (acts : List (Action R))
    (s₁ : InferenceServer D R G) : Prop where
  run : InferenceServer.run torch src runner s₀ acts = .ok s₁
  sent : s.sent = s₁.sent
  alive : Alive log → s = s₁ ∧ Tallied acts log
  dead : ¬Alive log → ∃ x, (s₁.iterate torch src runner).1 = .error x

variable [DecidableEq ι] {tok : Tokenizer}

/-- **Sections one after another** are a run of actions, until the background thread has ended. -/
theorem ran_of_serial {s₀ : InferenceServer D R G} (h₀ : Serving tok [] [] s₀)
    {st : InferenceServer D R G × (Option ι → List (Action R × Except Exc (Option ℕ)))}
    (h : Serial (actCode torch src runner) may (s₀, fun _ => []) st) :
    ∃ acts s₁, Ran torch src runner s₀ st.1 st.2 acts s₁ := by
  induction h with
  | refl =>
    exact ⟨[], s₀, rfl, rfl, fun _ => ⟨rfl, fun i k x hx => (by simp at hx), fun rid hrid => (by simp [asks] at hrid)⟩,
      fun hdead => absurd (fun x hx => absurd hx List.not_mem_nil) hdead⟩
  | tail _ hsection ih =>
    obtain ⟨acts, s₁, hran⟩ := ih
    cases hsection with
    | @run s log i b hmay =>
      rw [run_actCode]
      rcases i with - | i
      · -- an iteration of the background thread, which was still in its loop
        obtain ⟨rfl, hlog⟩ := hmay
        obtain ⟨rfl, htallied⟩ := hran.alive hlog
        rcases hact : s.act torch src runner .iterate with ⟨x | ⟨⟩, s'⟩
        · have hact : s.iterate torch src runner = (.error x, s') := hact
          refine ⟨acts, s, hran.run, iterate_error hact, fun hnext => ?_, fun _ => ⟨x, by rw [hact]⟩⟩
          obtain ⟨-, res, hres⟩ := (alive_iterate _).1 hnext
          rw [returns, hact] at hres
          cases hres
        · have hiter : s.iterate torch src runner = (.ok (), s') := hact
          refine ⟨acts ++ [.iterate], s', run_concat hran.run hact, rfl,
            fun _ => ⟨rfl, htallied.iterate _⟩, fun hdead => absurd ((alive_iterate _).2 ⟨hlog, none, ?_⟩) hdead⟩
          rw [returns, hiter]
          rfl
      · -- a submission
        obtain ⟨query, rfl⟩ := exists_call hmay
        obtain ⟨hstate, hres, hreturns⟩ := act_call torch src runner s query
        have hsent : (s.act torch src runner (call query)).2.sent = s₁.sent := by
          rw [hstate, submit_sent, hran.sent]
        by_cases hal : Alive log
        · obtain ⟨rfl, htallied⟩ := hran.alive hal
          obtain ⟨hserving, -⟩ := h₀.run torch src runner acts hran.run
          rw [List.nil_append] at hserving
          have hok := (hserving.submit query.1 query.2).1
          rw [hok] at hres hreturns
          rw [hreturns]
          refine ⟨acts ++ [call query], _, run_concat hran.run (Prod.ext hres rfl), rfl,
            fun _ => ⟨rfl, htallied.submit i query⟩, fun hdead => absurd ((alive_submit i _).2 hal) hdead⟩
        · exact ⟨acts, s₁, hran.run, hsent, fun hnext => absurd ((alive_submit i _).1 hnext) hal,
            fun _ => hran.dead hal⟩

/-- **After the background thread has ended** nothing is sent. -/
theorem sent_of_dead {st st' : InferenceServer D R G × (Option ι → List (Action R × Except Exc (Option ℕ)))}
    (h : Serial (actCode torch src runner) may st st') (hdead : ¬Alive st.2) :
    st'.1.sent = st.1.sent ∧ ¬Alive st'.2 := by
  induction h with
  | refl => exact ⟨rfl, hdead⟩
  | tail _ hsection ih =>
    obtain ⟨hsent, hdead⟩ := ih
    cases hsection with
    | @run s log i b hmay =>
      rw [run_actCode]
      rcases i with - | i
      · exact absurd hmay.2 hdead
      · obtain ⟨query, rfl⟩ := exists_call hmay
        refine ⟨?_, fun halive => hdead ((alive_submit i _).1 halive)⟩
        rw [(act_call torch src runner s query).1, submit_sent]
        exact hsent

end InferenceServer

open InferenceServer ContinuousBatchingEngine Lock

/-- **Under any scheduling of the threads every client is answered once, with its own output.**  Handlers of any
number of threads and the background thread interleave inside their sections at will.  No two are
inside the lock at once, and it can always be had again.  Whenever it is free, the calls that have returned are the
submissions of a run of whole actions that has led to this state, each with a number of its own, and what
a number was sent is the reply to its own request.  If an iteration has raised, the background thread has
ended, and nobody is sent anything any more: only those are answered whose requests had finished
before. -/
theorem threads_answer {ι X D R G : Type} [DecidableEq ι] [Zero D] [Field R] [LinearOrder R] (torch : Torch R)
    (src : Source R G) (runner : ModelRunner X D R) (T : Transformer X D R) (tok : Tokenizer)
    (numBlocks blockSize maxBatchTokens : ℕ) (chunkSize : Option ℕ) (rng : G)
    {m : Threads (Option ι) (InferenceServer D R G) (Except Exc (Option ℕ)) (Action R)}
    (hm : Reaches (actCode torch src runner) may
      (.start (init T tok numBlocks blockSize maxBatchTokens chunkSize rng)) m) :
    (∀ i j b b' c c', m.phase i = .inside b c → m.phase j = .inside b' c' → i = j) ∧
    (∃ m', Reaches (actCode torch src runner) may m m' ∧ m'.owner = none) ∧
    (m.owner = none → ∃ acts s,
      run torch src runner (init T tok numBlocks blockSize maxBatchTokens chunkSize rng) acts = .ok s ∧
      (∀ (rid : ℕ) query, (asks acts)[rid]? = some query →
        (s.engine.req rid).promptIds = tok.inputIds query.2.prompt ∧
        m.shared.sent rid =
          reply tok query.1 (decide (rid ∈ s.engine.queued)) (s.engine.req rid).outputIds) ∧
      (Alive m.log → s = m.shared ∧ Tallied acts m.log) ∧
      (¬Alive m.log → (∃ x, (s.iterate torch src runner).1 = .error x) ∧
        ∀ m', Reaches (actCode torch src runner) may m m' → m'.owner = none →
          m'.shared.sent = m.shared.sent)) := by
  set s₀ : InferenceServer D R G := init T tok numBlocks blockSize maxBatchTokens chunkSize rng
  have hstart : Between (actCode torch src runner) may
      (.start s₀ : Threads (Option ι) (InferenceServer D R G) (Except Exc (Option ℕ)) (Action R)) s₀ :=
    between_start s₀
  obtain ⟨s, hserial, hbetween⟩ := hstart.reaches hm
  have hserving₀ : Serving tok [] [] s₀ := init_serving T tok numBlocks blockSize maxBatchTokens chunkSize rng
  refine ⟨fun i j b b' c c' hi hj => ?_, ?_, fun hfree => ?_⟩
  · exact hbetween.alone (hbetween.inside j b' c' hj).1 hi
  · rcases howner : m.owner with - | i
    · exact ⟨m, .refl, howner⟩
    · obtain ⟨b, c, hin⟩ := hbetween.held i howner
      exact ⟨_, finishes hin, rfl⟩
  · obtain rfl := hbetween.free hfree
    obtain ⟨acts, s, hran⟩ := ran_of_serial hserving₀ hserial
    obtain ⟨hserving, -⟩ := hserving₀.run torch src runner acts hran.run
    rw [List.nil_append] at hserving
    refine ⟨acts, s, hran.run, fun rid query hq => ⟨?_, ?_⟩, fun halive => ?_, fun hdead => ⟨hran.dead hdead, ?_⟩⟩
    · exact (hserving.submitted.text rid (submission tok query.2) (by rw [List.getElem?_map, hq]; rfl)).1
    · rw [hran.sent, hserving.sent rid, hq]
    · obtain ⟨hstate, htallied⟩ := hran.alive halive
      exact ⟨hstate.symm, htallied⟩
    · intro m' hreach hfree'
      obtain ⟨s', hserial', hbetween'⟩ := hbetween.reaches hreach
      rw [hbetween'.free hfree']
      exact (sent_of_dead hserial' hdead).1

/-- The hypotheses are satisfiable: a handler submits while the background thread waits for the lock, and is
answered. -/
theorem threads_answer_one :
    let torch : Torch ℚ := ⟨id, fun _ => []⟩
    let src : Source ℚ Unit := ⟨fun g => (0, g), fun _ g => (0, g)⟩
    let tok : Tokenizer :=
      ⟨fun text => text.map (·.toNat % 3), none, fun ids => ids.map fun t => Char.ofNat (65 + t)⟩
    let s₀ : InferenceServer ℤ ℚ Unit := init sumModel tok 8 2 8 none ()
    ∃ m : Threads (Option ℕ) (InferenceServer ℤ ℚ Unit) (Except Exc (Option ℕ)) (Action ℚ),
      Reaches (actCode torch src sumModel.runner) may (.start s₀) m ∧ m.log (some 3) ≠ [] ∧
        m.shared.sent 0 = [.result [2]] ∧ ∃ acts, run torch src sumModel.runner s₀ acts = .ok m.shared := by
  intro torch src tok s₀
  have hreach : Reaches (actCode torch src sumModel.runner) may
      (.start s₀ : Threads (Option ℕ) (InferenceServer ℤ ℚ Unit) (Except Exc (Option ℕ)) (Action ℚ)) _ :=
    ((((Relation.ReflTransGen.refl.tail (.call (i := some 3) (b := .generate ⟨['A', 'B'], 1, 0, 0⟩) rfl
      (by simp [may]))).tail (.call (i := none) (b := .iterate) rfl ⟨rfl, fun x hx => by cases hx⟩)).tail
      (.acquire (i := some 3) rfl rfl)).trans (finishes (i := some 3) rfl)).tail
      (.acquire (i := none) rfl rfl) |>.trans (finishes (i := none) rfl)
  obtain ⟨-, -, hfree⟩ := threads_answer torch src sumModel.runner sumModel tok 8 2 8 none () hreach
  obtain ⟨acts, s, hrun, -, halive, -⟩ := hfree rfl
  obtain ⟨rfl, -⟩ := halive ((alive_iterate _).2 ⟨fun x hx => (by cases hx), none, by decide +kernel⟩)
  exact ⟨_, hreach, List.cons_ne_nil _ _, by decide +kernel, acts, hrun⟩

end DiSpec
