/-
# What a speculative call costs

`SpecStats` counts what a call of `SpeculativeEngine.generate` does, and `calls` records its calls of
`_forward`.  Whatever is drawn, every round calls the target twice, to verify the draft and for the
correction, and the draft `K` times (`round_forwards`); so the number of calls can be read off the
counts that are returned (`generate_forwards`).
-/

import DiSpec.Spec.Speculative

namespace DiSpec

namespace Side

variable {X D R : Type} {s s' : Side D} {runner : ModelRunner X D R} {sid : ℕ}

/-- `_forward` calls the model once. -/
theorem forward_calls {tokens : List ℕ} {startPos : ℕ} {logits : List (List R)}
    (h : s.forward runner sid tokens startPos = (.ok logits, s')) : s'.calls.length = s.calls.length + 1 := by
  unfold forward at h
  split at h
  · cases h
  dsimp only at h
  split at h
  · cases h
  split at h
  · cases h
  split at h
  · cases h
  split at h
  · cases h
  · cases h
    exact List.length_append

theorem extend_calls {tokens : List ℕ} {logits : List (List R)}
    (h : s.extend runner sid tokens = (.ok logits, s')) : s'.calls.length = s.calls.length + 1 := by
  unfold extend at h
  split at h
  · cases h
  · exact forward_calls h

theorem truncate_calls {n : ℕ} {r : Except Exc Unit} (h : s.truncate sid n = (r, s')) : s'.calls = s.calls :=
  congrArg (fun p => p.2.calls) h.symm

theorem allocate_calls {n : ℕ} {r : Except Exc BlockTable} (h : s.allocate sid n = (r, s')) :
    s'.calls = s.calls := congrArg (fun p => p.2.calls) h.symm

theorem free_calls {r : Except Exc Unit} (h : s.free sid = (r, s')) : s'.calls = s.calls :=
  congrArg (fun p => p.2.calls) h.symm

end Side

namespace SpeculativeEngine

/-- Emission counts what it appends. -/
theorem emit_stats (maxNewTokens : ℕ) (eos : Option ℕ) (emitted out : List ℕ) (stats : SpecStats) :
    let e := emit maxNewTokens eos emitted out stats
    e.2.2 = { stats with emitted := e.2.2.emitted } ∧
      e.2.2.emitted + out.length = stats.emitted + e.2.1.length := by
  induction emitted generalizing out stats with
  | nil => exact ⟨rfl, rfl⟩
  | cons t ts ih =>
    rw [emit]
    dsimp only
    split
    · refine ⟨rfl, ?_⟩
      rw [List.length_append, List.length_singleton, Nat.add_assoc, Nat.add_comm 1]
    · obtain ⟨hrest, hcount⟩ := ih (out ++ [t]) { stats with emitted := stats.emitted + 1 }
      refine ⟨hrest, Nat.add_right_cancel (m := 1) ?_⟩
      rw [List.length_append, List.length_singleton, ← Nat.add_assoc] at hcount
      rw [hcount, Nat.add_right_comm]

variable {X D Y E R G : Type} [Field R] [LinearOrder R]
variable {S : SpecSetup X D Y E R} {torch : Torch R} {src : Source R G} {params : SamplingParams R} {sid : ℕ}

/-- Steps 1 and 2 count nothing. -/
theorem propose_stats {s s' : SpecLoop D E R G} {start : ℕ} {rd : SpecRound R}
    (h : propose S torch src sid params s = (.ok (start, rd), s')) : s'.stats = s.stats := by
  unfold propose at h
  split at h
  · cases h
  · dsimp only at h
    split at h
    · cases h
    · cases h
      rfl

/-- The prefill starts the counts. -/
theorem prefill_stats (S : SpecSetup X D Y E R) (torch : Torch R)
    (params : SamplingParams R) (e : SpeculativeEngine D E R) (sid : ℕ) (promptIds : List ℕ) (g : G) :
    ∀ s, (prefill S torch e g sid promptIds params).1 = .ok s → s.stats = ⟨0, 0, 0, 0⟩ := by
  intro s h
  unfold prefill at h
  split at h
  · cases h
  split at h
  · cases h
  dsimp only at h
  split at h
  · cases h
    rfl
  · cases h

/-- **Drafting** calls the draft once for every token after the first. -/
theorem draftRest_calls {n tok : ℕ} {drf drf' : Side E} {g g' : G} {r : List ℕ × List (List R)}
    (h : draftRest S torch src sid params n tok drf g = (.ok r, drf', g')) :
    drf'.calls.length = drf.calls.length + n := by
  induction n generalizing tok drf g r with
  | zero =>
    cases h
    rfl
  | succ n ih =>
    unfold draftRest at h
    split at h
    · cases h
    next dl drf₁ hforward =>
      split at h
      · cases h
      dsimp only at h
      split at h
      · cases h
      next hrest =>
        cases h
        rw [ih hrest, Side.extend_calls hforward]
        omega

theorem draft_calls {q : List R} {drf drf' : Side E} {g g' : G} {r : List ℕ × List (List R)}
    (h : draft S torch src sid params q drf g = (.ok r, drf', g')) :
    drf'.calls.length = drf.calls.length + (S.numSpeculativeTokens - 1) := by
  unfold draft at h
  dsimp only at h
  split at h
  · cases h
  next hrest =>
    cases h
    exact draftRest_calls hrest

theorem verify_calls {pNext : List R} {ts : List ℕ} {tgt tgt' : Side D} {r : ℕ × List (List R) × List R}
    (h : verify S torch sid params pNext ts tgt = (.ok r, tgt')) :
    tgt'.calls.length = tgt.calls.length + 1 := by
  unfold verify at h
  split at h
  · cases h
  split at h
  · cases h
  next hforward =>
    split at h
    · cases h
    · cases h
      exact Side.forward_calls hforward

theorem resyncTgt_calls {start nAcc last : ℕ} {tgt tgt' : Side D} {r : List R}
    (h : resyncTgt S torch sid params start nAcc last tgt = (.ok r, tgt')) :
    tgt'.calls.length = tgt.calls.length + 1 := by
  unfold resyncTgt at h
  split at h
  · cases h
  next htrunc =>
    split at h
    · cases h
    next hforward =>
      obtain ⟨-, rfl⟩ := Prod.mk.inj h
      rw [Side.forward_calls hforward, Side.truncate_calls htrunc]

theorem resyncDrf_calls {base nAcc last : ℕ} {ts : List ℕ} {drf drf' : Side E} {r : List R}
    (h : resyncDrf S torch sid params base nAcc last ts drf = (.ok r, drf')) :
    drf'.calls.length = drf.calls.length + 1 := by
  unfold resyncDrf at h
  split at h
  · cases h
  split at h
  · cases h
  next htrunc =>
    split at h
    · cases h
    next hforward =>
      obtain ⟨-, rfl⟩ := Prod.mk.inj h
      rw [Side.extend_calls hforward, Side.truncate_calls htrunc]

/-- How often the target and the draft were called. -/
structure Forwards (e e' : SpeculativeEngine D E R) (m n : ℕ) : Prop where
  tgt : e'.tgt.calls.length = e.tgt.calls.length + m
  drf : e'.drf.calls.length = e.drf.calls.length + n

theorem propose_forwards {s s' : SpecLoop D E R G} {r : ℕ × SpecRound R}
    (h : propose S torch src sid params s = (.ok r, s')) :
    Forwards s.engine s'.engine 1 (S.numSpeculativeTokens - 1) := by
  unfold propose at h
  split at h
  · cases h
  next hdraft =>
    dsimp only at h
    split at h
    · cases h
    next hverify =>
      cases h
      exact ⟨verify_calls hverify, draft_calls hdraft⟩

theorem resync_forwards {promptLen start nAcc last : ℕ} {ts : List ℕ} {s s' : SpecLoop D E R G}
    (h : resync S torch sid params promptLen start nAcc last ts s = (.ok (), s')) :
    Forwards s.engine s'.engine 1 1 ∧ s'.stats = s.stats := by
  unfold resync at h
  split at h
  · cases h
  next htgt =>
    dsimp only at h
    split at h
    · cases h
    next hdrf =>
      cases h
      exact ⟨⟨resyncTgt_calls htgt, resyncDrf_calls hdrf⟩, rfl⟩

theorem settle_forwards {promptLen maxNewTokens start : ℕ} {eos : Option ℕ} {rd : SpecRound R}
    {s s' : SpecLoop D E R G} {done : Bool}
    (h : settle S torch src sid params promptLen maxNewTokens eos start rd s = (.ok done, s')) :
    Forwards s.engine s'.engine 1 1 ∧ s'.stats.iters = s.stats.iters + 1 := by
  unfold settle at h
  split at h
  · cases h
  dsimp only at h
  split at h
  · cases h
  split at h
  · cases h
  next hresync =>
    obtain ⟨hforwards, hstats⟩ := resync_forwards hresync
    cases h
    refine ⟨hforwards, ?_⟩
    show (emit _ _ _ _ _).2.2.iters = _
    rw [(emit_stats _ _ _ _ _).1, hstats]

/-- **A round** calls the target twice and the draft `K` times. -/
theorem round_forwards (hK : 1 ≤ S.numSpeculativeTokens) {promptLen maxNewTokens : ℕ} {eos : Option ℕ}
    {s s' : SpecLoop D E R G} {done : Bool}
    (h : SpeculativeEngine.round S torch src sid params promptLen maxNewTokens eos s = (.ok done, s')) :
    Forwards s.engine s'.engine 2 S.numSpeculativeTokens ∧ s'.stats.iters = s.stats.iters + 1 := by
  unfold SpeculativeEngine.round at h
  split at h
  · cases h
  next hpropose =>
    have hdraft := propose_forwards hpropose
    obtain ⟨hrest, hiters⟩ := settle_forwards h
    refine ⟨⟨?_, ?_⟩, ?_⟩
    · rw [hrest.tgt, hdraft.tgt]
    · rw [hrest.drf, hdraft.drf]
      omega
    · rw [hiters, propose_stats hpropose]

/-- **The loop** does so in every round.  By induction on the rounds. -/
theorem loop_forwards (hK : 1 ≤ S.numSpeculativeTokens) {promptLen maxNewTokens : ℕ} {eos : Option ℕ}
    {fuel : ℕ} {s s' : SpecLoop D E R G} {out : List ℕ} {stats : SpecStats}
    (h : loop S torch src sid params promptLen maxNewTokens eos fuel s = (.ok (out, stats), s')) :
    ∃ n, stats.iters = s.stats.iters + n ∧
      Forwards s.engine s'.engine (2 * n) (S.numSpeculativeTokens * n) := by
  induction fuel generalizing s with
  | zero =>
    cases h
    exact ⟨0, rfl, rfl, rfl⟩
  | succ fuel ih =>
    unfold loop at h
    split at h
    swap
    · cases h
      exact ⟨0, rfl, rfl, rfl⟩
    split at h
    · cases h
    next hround =>
      obtain ⟨hforwards, hiters⟩ := round_forwards hK hround
      cases h
      exact ⟨1, hiters, hforwards.tgt, by rw [hforwards.drf, Nat.mul_one]⟩
    next hround =>
      obtain ⟨hforwards, hiters⟩ := round_forwards hK hround
      obtain ⟨n, hn, hrest⟩ := ih h
      refine ⟨n + 1, by omega, ?_, ?_⟩
      · rw [hrest.tgt, hforwards.tgt]
        omega
      · rw [hrest.drf, hforwards.drf, Nat.mul_succ]
        omega

theorem prefill_forwards {e e' : SpeculativeEngine D E R} {g : G} {promptIds : List ℕ} {s : SpecLoop D E R G}
    (h : prefill S torch e g sid promptIds params = (.ok s, e')) : Forwards e s.engine 1 1 := by
  unfold prefill at h
  split at h
  · cases h
  next htgt =>
    split at h
    · cases h
    next hdrf =>
      dsimp only at h
      split at h
      · cases h
        exact ⟨Side.forward_calls htgt, Side.forward_calls hdrf⟩
      · cases h

omit [Field R] [LinearOrder R] in
theorem allocate_forwards {e e' : SpeculativeEngine D E R} {promptIds : List ℕ}
    (h : e.allocate sid promptIds = (.ok (), e')) : Forwards e e' 0 0 := by
  unfold allocate at h
  split at h
  · cases h
  next htgt =>
    split at h
    · cases h
    next hdrf =>
      cases h
      exact ⟨congrArg _ (Side.allocate_calls htgt), congrArg _ (Side.allocate_calls hdrf)⟩

omit [Field R] [LinearOrder R] in
theorem free_forwards {e e' : SpeculativeEngine D E R} (h : e.free sid = (.ok (), e')) :
    Forwards e e' 0 0 := by
  unfold free at h
  split at h
  · cases h
  next htgt =>
    obtain ⟨-, rfl⟩ := Prod.mk.inj h
    exact ⟨congrArg _ (Side.free_calls htgt), rfl⟩

theorem generateBody_forwards (hK : 1 ≤ S.numSpeculativeTokens) {e e' : SpeculativeEngine D E R} {g g' : G}
    {promptIds : List ℕ} {maxNewTokens : ℕ} {eos : Option ℕ} {out : List ℕ} {stats : SpecStats}
    (h : e.generateBody S torch src g sid promptIds params maxNewTokens eos = (.ok (out, stats), e', g')) :
    Forwards e e' (1 + 2 * stats.iters) (1 + S.numSpeculativeTokens * stats.iters) := by
  unfold generateBody at h
  split at h
  · cases h
  next s e₁ hprefill =>
    split at h
    next r s' hloop =>
      obtain ⟨rfl, rfl, -⟩ : r = .ok (out, stats) ∧ s'.engine = e' ∧ s'.g = g' := by
        cases h
        exact ⟨rfl, rfl, rfl⟩
      have hstart := prefill_forwards hprefill
      obtain ⟨n, hn, hrun⟩ := loop_forwards hK hloop
      rw [prefill_stats S torch params e sid promptIds g s (congrArg Prod.fst hprefill), Nat.zero_add] at hn
      rw [hn]
      refine ⟨?_, ?_⟩
      · rw [hrun.tgt, hstart.tgt, Nat.add_assoc]
      · rw [hrun.drf, hstart.drf, Nat.add_assoc]

/-- **What a call costs**: the target is called once for the prompt and twice in each round, the draft
once for the prompt and `K` times in each round. -/
theorem generate_forwards (hK : 1 ≤ S.numSpeculativeTokens) {e e' : SpeculativeEngine D E R} {g g' : G}
    {promptIds : List ℕ} {maxNewTokens : ℕ} {eos : Option ℕ} {out : List ℕ} {stats : SpecStats}
    (h : e.generate S torch src g sid promptIds params maxNewTokens eos = (.ok (out, stats), e', g')) :
    Forwards e e' (1 + 2 * stats.iters) (1 + S.numSpeculativeTokens * stats.iters) := by
  unfold generate at h
  split at h
  · cases h
  next e₁ hallocate =>
    have hstart := allocate_forwards hallocate
    split at h
    next r e₂ g₂ hbody =>
      split at h
      · cases h
      next e₃ hfree =>
        obtain ⟨rfl, he, -⟩ : r = .ok (out, stats) ∧ e₃ = e' ∧ g₂ = g' := by
          cases h
          exact ⟨rfl, rfl, rfl⟩
        subst he
        have hend := free_forwards hfree
        have hrun := generateBody_forwards hK hbody
        refine ⟨?_, ?_⟩
        · rw [hend.tgt, hrun.tgt, hstart.tgt, Nat.add_zero, Nat.add_zero]
        · rw [hend.drf, hrun.drf, hstart.drf, Nat.add_zero, Nat.add_zero]

end SpeculativeEngine

end DiSpec
