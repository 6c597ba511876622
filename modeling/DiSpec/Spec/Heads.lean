/-
# The heads of the loop

`dispec/spec/speculative.py`: the states in which the loop of `SpeculativeEngine.generate` tests its condition.

`Head` says it without the loop: the state after the prefill, and what a round makes of a head when it neither
raises nor returns.  These are the states that the loop comes to and no others, each of them once more text
than the one before, and what `generate` returns or raises comes from the last (`generateBody_heads`).  So what
is shown of every head is shown of the whole loop.
-/

import DiSpec.Spec.Speculative

namespace DiSpec
namespace SpeculativeEngine

variable {X D Y E R G : Type}

/-- A round in which `generate` does not return emits everything. -/
theorem emit_false {maxNewTokens : ℕ} {eos : Option ℕ} {emitted out : List ℕ} {stats : SpecStats}
    (h : (emit maxNewTokens eos emitted out stats).1 = false) :
    (emit maxNewTokens eos emitted out stats).2.1 = out ++ emitted := by
  induction emitted generalizing out stats with
  | nil => exact (List.append_nil out).symm
  | cons t ts ih =>
    rw [emit] at h ⊢
    split at h
    · exact absurd h (by simp)
    next hgo =>
      rw [if_neg hgo, ih h, List.append_assoc]
      rfl

variable [Field R] [LinearOrder R]

/-- The states at the head of the loop of a call of `generate` on `e`. -/
inductive Head (S : SpecSetup X D Y E R) (torch : Torch R) (src : Source R G)
    (e : SpeculativeEngine D E R) (g : G) (sid : ℕ) (promptIds : List ℕ) (params : SamplingParams R)
    (maxNewTokens : ℕ) (eos : Option ℕ) : SpecLoop D E R G → Prop
  | enter {s : SpecLoop D E R G} (halloc : (e.allocate sid promptIds).1 = .ok ())
      (hpre : (prefill S torch (e.allocate sid promptIds).2 g sid promptIds params).1 = .ok s) :
      Head S torch src e g sid promptIds params maxNewTokens eos s
  | round {s : SpecLoop D E R G} (h : Head S torch src e g sid promptIds params maxNewTokens eos s)
      (hlt : s.out.length < maxNewTokens)
      (hgo : (round S torch src sid params promptIds.length maxNewTokens eos s).1 = .ok false) :
      Head S torch src e g sid promptIds params maxNewTokens eos
        (SpeculativeEngine.round S torch src sid params promptIds.length maxNewTokens eos s).2

section

variable (S : SpecSetup X D Y E R) (torch : Torch R) (src : Source R G) (sid : ℕ)
  (params : SamplingParams R) (promptLen maxNewTokens : ℕ) (eos : Option ℕ)

/-- The heads that `loop` comes to, in order. -/
def heads : (fuel : ℕ) → SpecLoop D E R G → List (SpecLoop D E R G)
  | 0, s => [s]
  | fuel + 1, s =>
    if s.out.length < maxNewTokens then
      match round S torch src sid params promptLen maxNewTokens eos s with
      | (.ok false, s') => s :: heads fuel s'
      | _ => [s]
    else [s]

/-- How the loop ends from its last head. -/
def leave (s : SpecLoop D E R G) : Except Exc (List ℕ × SpecStats) × SpecLoop D E R G :=
  if s.out.length < maxNewTokens then
    match round S torch src sid params promptLen maxNewTokens eos s with
    | (.error x, s) => (.error x, s)
    | (.ok _, s) => (.ok (s.out.take maxNewTokens, s.stats), s)
  else (.ok (s.out.take maxNewTokens, s.stats), s)

end

/-! ### A round emits -/

section

variable (S : SpecSetup X D Y E R) (torch : Torch R) (src : Source R G) (sid : ℕ)
  (params : SamplingParams R) (promptLen maxNewTokens : ℕ) (eos : Option ℕ)

/-- Drafting and verifying emit nothing. -/
theorem propose_out (s : SpecLoop D E R G) : (propose S torch src sid params s).2.out = s.out := by
  unfold propose
  split
  · rfl
  · dsimp only
    split
    · rfl
    · rfl

/-- Nor does the roll back. -/
theorem resync_out (tgtStart nAcc last : ℕ) (draftTokens : List ℕ) (s : SpecLoop D E R G) :
    (resync S torch sid params promptLen tgtStart nAcc last draftTokens s).2.out = s.out := by
  unfold resync
  split
  · rfl
  · dsimp only
    split
    · rfl
    · rfl

/-- **A round that returns** emits at least one token. -/
theorem round_emits {s s' : SpecLoop D E R G} {done : Bool}
    (h : round S torch src sid params promptLen maxNewTokens eos s = (.ok done, s')) :
    ∃ emitted stats, emitted ≠ [] ∧ (emit maxNewTokens eos emitted s.out stats).1 = done ∧
      (emit maxNewTokens eos emitted s.out stats).2.1 = s'.out := by
  unfold SpeculativeEngine.round at h
  have hpropose := propose_out S torch src sid params s
  split at h
  · cases h
  next start rd s₁ heq =>
    rw [heq] at hpropose
    rw [← show s₁.out = s.out from hpropose]
    unfold settle at h
    split at h
    · cases h
    next emitted nAcc g' hrej =>
      dsimp only at h
      split at h
      · cases h
      next last hlast =>
        split at h
        · cases h
        next s₂ heq₂ =>
          have hresync : s₁.out = s₂.out := by
            have := congrArg (·.2.out) heq₂
            rwa [resync_out] at this
          cases h
          refine ⟨emitted, s₂.stats, ?_, ?_, ?_⟩
          · rintro rfl
            cases hlast
          · rw [hresync]
          · rw [hresync]

end

variable {S : SpecSetup X D Y E R} {torch : Torch R} {src : Source R G} {sid : ℕ}
  {params : SamplingParams R} {promptLen maxNewTokens : ℕ} {eos : Option ℕ} {s s' : SpecLoop D E R G}

/-- A round that goes on has emitted something. -/
theorem out_lt_of_round (h : round S torch src sid params promptLen maxNewTokens eos s = (.ok false, s')) :
    s.out.length < s'.out.length := by
  obtain ⟨emitted, stats, hne, hgo, hout⟩ :=
    round_emits S torch src sid params promptLen maxNewTokens eos h
  rw [← hout, emit_false hgo, List.length_append]
  have hpos := List.length_pos_of_ne_nil hne
  omega

/-! ### The heads -/

theorem mem_heads_self (fuel : ℕ) (s : SpecLoop D E R G) :
    s ∈ heads S torch src sid params promptLen maxNewTokens eos fuel s := by
  cases fuel with
  | zero => exact List.mem_singleton_self s
  | succ fuel =>
    rw [heads]
    split
    · split
      · exact List.mem_cons_self
      · exact List.mem_singleton_self s
    · exact List.mem_singleton_self s

/-- The head after a head is one. -/
theorem mem_heads_round {fuel : ℕ} {s₀ : SpecLoop D E R G} (hfuel : maxNewTokens ≤ s₀.out.length + fuel)
    (hs : s ∈ heads S torch src sid params promptLen maxNewTokens eos fuel s₀)
    (hlt : s.out.length < maxNewTokens)
    (hround : round S torch src sid params promptLen maxNewTokens eos s = (.ok false, s')) :
    s' ∈ heads S torch src sid params promptLen maxNewTokens eos fuel s₀ := by
  induction fuel generalizing s₀ with
  | zero =>
    obtain rfl := List.mem_singleton.1 hs
    omega
  | succ fuel ih =>
    rw [heads] at hs ⊢
    by_cases hmore : s₀.out.length < maxNewTokens
    · rw [if_pos hmore] at hs ⊢
      rcases hfirst : round S torch src sid params promptLen maxNewTokens eos s₀ with ⟨x | b, s₁⟩
      · rw [hfirst] at hs
        obtain rfl := List.mem_singleton.1 hs
        cases hfirst.symm.trans hround
      rw [hfirst] at hs
      cases b with
      | true =>
        obtain rfl := List.mem_singleton.1 hs
        cases hfirst.symm.trans hround
      | false =>
        refine List.mem_cons_of_mem _ ?_
        rcases List.mem_cons.1 hs with rfl | hs
        · obtain ⟨-, rfl⟩ := Prod.mk.inj (hfirst.symm.trans hround)
          exact mem_heads_self fuel s₁
        · have := out_lt_of_round hfirst
          exact ih (by omega) hs
    · rw [if_neg hmore] at hs
      obtain rfl := List.mem_singleton.1 hs
      exact absurd hlt hmore

/-- The loop ends from its last head. -/
theorem loop_eq_leave {fuel : ℕ} (hfuel : maxNewTokens ≤ s.out.length + fuel) :
    ∃ last, (heads S torch src sid params promptLen maxNewTokens eos fuel s).getLast? = some last ∧
      loop S torch src sid params promptLen maxNewTokens eos fuel s =
        leave S torch src sid params promptLen maxNewTokens eos last := by
  induction fuel generalizing s with
  | zero =>
    refine ⟨s, rfl, ?_⟩
    rw [loop, leave, if_neg (by omega)]
  | succ fuel ih =>
    rw [heads, loop]
    by_cases hmore : s.out.length < maxNewTokens
    · rw [if_pos hmore, if_pos hmore]
      rcases hfirst : round S torch src sid params promptLen maxNewTokens eos s with ⟨x | b, s₁⟩
      · refine ⟨s, rfl, ?_⟩
        rw [leave, if_pos hmore, hfirst]
      cases b with
      | true =>
        refine ⟨s, rfl, ?_⟩
        rw [leave, if_pos hmore, hfirst]
      | false =>
        have := out_lt_of_round hfirst
        obtain ⟨last, hlast, hloop⟩ := @ih s₁ (by omega)
        exact ⟨last, by rw [List.getLast?_cons, hlast]; rfl, hloop⟩
    · rw [if_neg hmore, if_neg hmore]
      refine ⟨s, rfl, ?_⟩
      rw [leave, if_neg hmore]

/-- **The loop of `generate` comes to exactly the heads**, and the call ends from the last of them. -/
theorem generateBody_heads {e e₁ e₂ : SpeculativeEngine D E R} {g : G} {promptIds : List ℕ}
    {s₀ : SpecLoop D E R G} (halloc : e.allocate sid promptIds = (.ok (), e₁))
    (hpre : prefill S torch e₁ g sid promptIds params = (.ok s₀, e₂)) :
    let hs := heads S torch src sid params promptIds.length maxNewTokens eos maxNewTokens s₀
    (∀ s, Head S torch src e g sid promptIds params maxNewTokens eos s ↔ s ∈ hs) ∧
      ∃ last, hs.getLast? = some last ∧
        let (r, s) := leave S torch src sid params promptIds.length maxNewTokens eos last
        e₁.generateBody S torch src g sid promptIds params maxNewTokens eos = (r, s.engine, s.g) := by
  intro hs
  have hfuel : maxNewTokens ≤ s₀.out.length + maxNewTokens := Nat.le_add_left _ _
  have hpre' : (prefill S torch (e.allocate sid promptIds).2 g sid promptIds params).1 = .ok s₀ := by
    rw [halloc, hpre]
  refine ⟨fun s => ⟨fun h => ?_, fun hm => ?_⟩, ?_⟩
  · induction h with
    | enter _ hpre₁ =>
      obtain rfl := Except.ok.inj (hpre₁.symm.trans hpre')
      exact mem_heads_self _ _
    | round _ hlt hgo ih => exact mem_heads_round hfuel ih hlt (Prod.ext hgo rfl)
  · have hall : ∀ fuel s₁, Head S torch src e g sid promptIds params maxNewTokens eos s₁ →
        s ∈ heads S torch src sid params promptIds.length maxNewTokens eos fuel s₁ →
        Head S torch src e g sid promptIds params maxNewTokens eos s := by
      intro fuel
      induction fuel with
      | zero =>
        intro s₁ h₁ hm
        obtain rfl := List.mem_singleton.1 hm
        exact h₁
      | succ fuel ih =>
        intro s₁ h₁ hm
        rw [heads] at hm
        split at hm
        next hlt =>
          split at hm
          next s₂ hround =>
            rcases List.mem_cons.1 hm with rfl | hm
            · exact h₁
            · have h₂ := h₁.round hlt (congrArg Prod.fst hround)
              rw [hround] at h₂
              exact ih s₂ h₂ hm
          · obtain rfl := List.mem_singleton.1 hm
            exact h₁
        · obtain rfl := List.mem_singleton.1 hm
          exact h₁
    exact hall _ _ (.enter (congrArg Prod.fst halloc) hpre') hm
  · have hend : ∃ last, hs.getLast? = some last ∧
        loop S torch src sid params promptIds.length maxNewTokens eos maxNewTokens s₀ =
          leave S torch src sid params promptIds.length maxNewTokens eos last := loop_eq_leave hfuel
    obtain ⟨last, hlast, hloop⟩ := hend
    refine ⟨last, hlast, ?_⟩
    rw [generateBody, hpre]
    dsimp only
    rw [hloop]

end SpeculativeEngine
end DiSpec
