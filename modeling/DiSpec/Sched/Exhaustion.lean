/-
# When the scheduler runs out of blocks

Admission reserves blocks for the prompt only; a running request takes its further
blocks one by one, and phase 1 of `step` does not preempt.  A step raises
`OutOfBlocksError` exactly when more of the requests that decode in it stand on a block
boundary than blocks are free (`step_outOfBlocks_iff`), so a run gets through iff no
step of it starts in such a state (`outOfBlocks_iff_boundary`).  Two requests that the
pool can serve one at a time reach such a state together
(`outOfBlocks_of_two_requests`).
-/

import DiSpec.Sched.Run

namespace DiSpec
namespace ContinuousBatchingEngine

variable {X D R G : Type} [Zero D] [Add X] [Field R] [LinearOrder R]
variable {T : Transformer X D R} {numBlocks blockSize : ℕ} {subs : List (Submission D R)}
  {e e' : ContinuousBatchingEngine D R G}

/-- The call or run raised `OutOfBlocksError`. -/
def outOfBlocks {α : Type} : Except Exc α → Bool
  | .error x => x.isOutOfBlocks
  | .ok _ => false

/-- The next step has the blocks it needs: no more of the requests that decode in it stand on
a block boundary than blocks are free. -/
def HasBlocks (e : ContinuousBatchingEngine D R G) : Prop :=
  e.decoding.countP e.onBoundary ≤ e.cache.manager.numFreeBlocks

/-- **A step raises iff it lacks blocks**, and it raises nothing but `OutOfBlocksError`. -/
theorem step_outOfBlocks_iff (torch : Torch R) (src : Source R G) (h : After T numBlocks blockSize subs e) :
    outOfBlocks (e.step torch src T.runner).1 = true ↔ ¬e.HasBlocks := by
  rcases step_spec torch src h.invOf with ⟨hshort, msg, e', herr⟩ | ⟨henough, e₁, b, sl, e', hrun⟩
  · rw [herr]
    exact iff_of_true rfl (not_le.2 hshort)
  · rw [hrun.step]
    exact iff_of_false (by simp [outOfBlocks]) (not_not.2 henough)

omit [Zero D] [Field R] [LinearOrder R] in
/-- A submission never raises `OutOfBlocksError`. -/
theorem addRequest_outOfBlocks (e : ContinuousBatchingEngine D R G) (s : Submission D R) {x : Exc}
    (h : e.addRequest s = (.error x, e')) : x.isOutOfBlocks = false := by
  rcases addRequest_spec e s with ⟨msg, herr⟩ | ⟨hok, -⟩
  · rw [herr] at h
    obtain rfl := Except.error.inj (Prod.mk.inj h).1
    rfl
  · rw [hok] at h
    cases h

/-- **A run goes on until a step lacks blocks.** -/
theorem After.outOfBlocks_iff (torch : Torch R) (src : Source R G)
    (h : After T numBlocks blockSize subs e) {cs : List (Call D R)}
    (hprompt : ∀ s ∈ submissions cs, s.promptIds ≠ []) :
    outOfBlocks (calls torch src T.runner e cs) = true ↔
      ∃ cs₁ cs₂ e', cs = cs₁ ++ .step :: cs₂ ∧
        calls torch src T.runner e cs₁ = .ok e' ∧ ¬e'.HasBlocks := by
  constructor
  · intro hrun
    induction cs generalizing subs e with
    | nil => exact absurd hrun (by simp [calls, outOfBlocks])
    | cons c cs ih =>
      cases c with
      | addRequest s =>
        rw [submissions] at hprompt
        rw [calls] at hrun
        rcases hres : e.addRequest s with ⟨x | r, e₁⟩
        · rw [hres] at hrun
          exact absurd (hrun.symm.trans (addRequest_outOfBlocks e s hres)) (by simp)
        · rw [hres] at hrun
          obtain ⟨cs₁, cs₂, e', rfl, hcs, hno⟩ := ih (h.submit (hprompt s List.mem_cons_self) hres)
            (fun s' hs' => hprompt s' (List.mem_cons_of_mem _ hs')) hrun
          refine ⟨.addRequest s :: cs₁, cs₂, e', rfl, ?_, hno⟩
          rw [calls, hres]
          exact hcs
      | step =>
        rw [calls] at hrun
        rcases hres : e.step torch src T.runner with ⟨x | ⟨⟩, e₁⟩
        · rw [hres] at hrun
          refine ⟨[], cs, e, rfl, rfl, (step_outOfBlocks_iff torch src h).1 ?_⟩
          rw [hres]
          exact hrun
        · rw [hres] at hrun
          obtain ⟨cs₁, cs₂, e', rfl, hcs, hno⟩ := ih (h.step hres) hprompt hrun
          refine ⟨.step :: cs₁, cs₂, e', rfl, ?_, hno⟩
          rw [calls, hres]
          exact hcs
  · rintro ⟨cs₁, cs₂, e', rfl, hcs, hno⟩
    have hafter := h.run (fun s hs => hprompt s (by
      rw [submissions_append]
      exact List.mem_append_left _ hs)) hcs
    have hraise := (step_outOfBlocks_iff torch src hafter).2 hno
    rw [calls_append, hcs]
    show outOfBlocks (calls torch src T.runner e' (.step :: cs₂)) = true
    rw [calls]
    rcases hres : e'.step torch src T.runner with ⟨x | ⟨⟩, e₂⟩
    · rwa [hres] at hraise
    · rw [hres] at hraise
      cases hraise

end ContinuousBatchingEngine

open ContinuousBatchingEngine

variable {X D R G : Type} [Zero D] [Add X] [Field R] [LinearOrder R]

/-- **No step of a run raises `OutOfBlocksError` iff every step of it has the blocks it
needs.** -/
theorem no_outOfBlocks_iff_hasBlocks (torch : Torch R) (src : Source R G) (T : Transformer X D R)
    (numBlocks : ℕ) {blockSize : ℕ} (hbs : 1 ≤ blockSize) (maxBatchTokens : ℕ) (chunkSize : Option ℕ)
    (rng : G) (cs : List (Call D R)) (hprompt : ∀ s ∈ submissions cs, s.promptIds ≠ []) :
    let e₀ := init T numBlocks blockSize maxBatchTokens chunkSize rng
    outOfBlocks (calls torch src T.runner e₀ cs) = false ↔
      BeforeSteps torch src T.runner e₀ cs HasBlocks := by
  intro e₀
  have hiff := (After.init T numBlocks hbs maxBatchTokens chunkSize rng).outOfBlocks_iff
    torch src hprompt
  rw [← Bool.not_eq_true, hiff]
  constructor
  · intro hno cs₁ cs₂ e hcs hrun
    by_contra hlack
    exact hno ⟨cs₁, cs₂, e, hcs, hrun, hlack⟩
  · rintro hall ⟨cs₁, cs₂, e, hcs, hrun, hlack⟩
    exact hlack (hall cs₁ cs₂ e hcs hrun)

/-- **Two requests exhaust a pool that can serve either alone**: two blocks of one slot, prompts
of one token and two new tokens.  The second step raises. -/
theorem outOfBlocks_of_two_requests :
    let torch : Torch ℚ := ⟨id, fun _ => []⟩
    let src : Source ℚ Unit := ⟨fun g => (0, g), fun _ g => (0, g)⟩
    let e₀ : ContinuousBatchingEngine ℤ ℚ Unit := init sumModel 2 1 8 none ()
    let s : Submission ℤ ℚ := ⟨[0], 2, .default, none, 0, none⟩
    let cs : List (Call ℤ ℚ) := [.addRequest s, .addRequest s, .step, .step]
    (∀ s ∈ submissions cs, s.promptIds ≠ [] ∧ 1 ≤ s.maxNewTokens ∧
      e₀.cache.manager.blocksNeeded (s.promptIds.length + s.maxNewTokens - 1) ≤ 2) ∧
    outOfBlocks (calls torch src sumModel.runner e₀ cs) = true := by
  refine ⟨fun s hs => ?_, by decide +kernel⟩
  simp only [submissions, List.mem_cons, List.not_mem_nil, or_false, or_self] at hs
  subst hs
  decide

/-- The hypotheses are satisfiable: with two more blocks the same run gets through. -/
theorem no_outOfBlocks_iff_hasBlocks_two :
    let torch : Torch ℚ := ⟨id, fun _ => []⟩
    let src : Source ℚ Unit := ⟨fun g => (0, g), fun _ g => (0, g)⟩
    let e₀ : ContinuousBatchingEngine ℤ ℚ Unit := init sumModel 4 1 8 none ()
    let s : Submission ℤ ℚ := ⟨[0], 2, .default, none, 0, none⟩
    let cs : List (Call ℤ ℚ) := [.addRequest s, .addRequest s, .step, .step]
    BeforeSteps torch src sumModel.runner e₀ cs HasBlocks :=
  (no_outOfBlocks_iff_hasBlocks ⟨id, fun _ => []⟩ ⟨fun g => (0, g), fun _ g => (0, g)⟩ sumModel 4
    (by decide) 8 none ()
    [.addRequest ⟨[0], 2, .default, none, 0, none⟩, .addRequest ⟨[0], 2, .default, none, 0, none⟩,
      .step, .step] (by simp [submissions])).1 (by decide +kernel)

end DiSpec
