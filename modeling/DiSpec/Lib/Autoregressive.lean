/-
# Autoregressive decoding

What a generation loop is for, with no engine behind it: draw a token from a
distribution that depends on the tokens so far, append it, and go on until a
token stops the loop or enough are drawn (`decode`).

When the next token is a function of the tokens so far, decoding draws nothing
(`decode_pure`) and its result can be recognised from the outside
(`greedy_eq`): every token is the one that follows, no token but the last stops,
and the last one stops or completes the number asked for.  This is how loops
that do not look like `greedy` at all are compared with it.
-/

import DiSpec.Lib.RandM
import Mathlib.Data.List.Basic

namespace Autoregressive

variable {R α : Type}

/-- Draw at most `n` tokens after `ctx`, stopping after a token that `stop`s. -/
def decode (next : List α → RandM R α) (stop : α → Bool) : ℕ → List α → RandM R (List α)
  | 0, _ => .pure []
  | n + 1, ctx => (next ctx).bind fun t =>
      if stop t then .pure [t] else (decode next stop n (ctx ++ [t])).map (t :: ·)

/-- `decode` where the next token is determined. -/
def greedy (next : List α → α) (stop : α → Bool) : ℕ → List α → List α
  | 0, _ => []
  | n + 1, ctx =>
      if stop (next ctx) then [next ctx]
      else next ctx :: greedy next stop n (ctx ++ [next ctx])

/-- Determined tokens are decoded without drawing. -/
theorem decode_pure (next : List α → α) (stop : α → Bool) (n : ℕ) (ctx : List α) :
    decode (R := R) (fun ctx => .pure (next ctx)) stop n ctx = .pure (greedy next stop n ctx) := by
  induction n generalizing ctx with
  | zero => rfl
  | succ n ih =>
    rw [decode, greedy, RandM.bind]
    split
    · rfl
    · rw [ih]
      rfl

/-- Decoding looks at the continuations of its start only. -/
theorem greedy_congr {next next' : List α → α} (stop : α → Bool) (n : ℕ) {ctx : List α}
    (h : ∀ l, next (ctx ++ l) = next' (ctx ++ l)) : greedy next stop n ctx = greedy next' stop n ctx := by
  induction n generalizing ctx with
  | zero => rfl
  | succ n ih =>
    have hnow : next ctx = next' ctx := by simpa using h []
    have hlater : ∀ l, next (ctx ++ [next' ctx] ++ l) = next' (ctx ++ [next' ctx] ++ l) := fun l => by
      rw [List.append_assoc]
      exact h _
    rw [greedy, greedy, hnow, ih hlater]

/-- Every token of `out` is the one that follows `ctx` and the tokens before it. -/
def Follows (next : List α → α) (ctx out : List α) : Prop :=
  ∀ (l : List α) (t : α) (r : List α), out = l ++ t :: r → t = next (ctx ++ l)

/-- No token of `out` but the last stops. -/
def OpenBefore (stop : α → Bool) (out : List α) : Prop :=
  ∀ (l : List α) (t u : α) (r : List α), out = l ++ t :: u :: r → stop t = false

theorem Follows.nil (next : List α → α) (ctx : List α) : Follows next ctx [] :=
  fun l t r h => absurd h (by simp)

/-- One more token that follows. -/
theorem Follows.snoc {next : List α → α} {ctx out : List α} (h : Follows next ctx out) :
    Follows next ctx (out ++ [next (ctx ++ out)]) := by
  intro l t r heq
  rcases List.eq_nil_or_concat r with rfl | ⟨r, u, rfl⟩
  · obtain ⟨rfl, ht⟩ := List.append_inj' heq rfl
    exact (List.singleton_inj.1 ht).symm
  · rw [List.concat_eq_append, ← List.cons_append, ← List.append_assoc] at heq
    exact h l t r (List.append_inj' heq rfl).1

theorem Follows.tail {next : List α → α} {ctx out : List α} {t : α}
    (h : Follows next ctx (t :: out)) : Follows next (ctx ++ [t]) out := by
  intro l u r heq
  rw [List.append_assoc, List.singleton_append]
  exact h (t :: l) u r (by rw [heq]; rfl)

/-- One more token in front. -/
theorem Follows.cons {next : List α → α} {ctx out : List α}
    (h : Follows next (ctx ++ [next ctx]) out) : Follows next ctx (next ctx :: out) := by
  intro l t r heq
  cases l with
  | nil => rw [List.append_nil, (List.cons.inj heq).1]
  | cons u l =>
    obtain ⟨rfl, hout⟩ := List.cons.inj heq
    rw [h l t r hout, List.append_assoc, List.singleton_append]

/-- What follows a text that follows. -/
theorem Follows.append {next : List α → α} {ctx out out' : List α} (h : Follows next ctx out)
    (h' : Follows next (ctx ++ out) out') : Follows next ctx (out ++ out') := by
  induction out generalizing ctx with
  | nil => rwa [List.append_nil] at h'
  | cons t out ih =>
    have ht : t = next ctx := by simpa using h [] t out rfl
    subst ht
    refine Follows.cons (ih h.tail ?_)
    rwa [List.append_assoc]

/-- The beginning of a string that follows. -/
theorem Follows.of_append {next : List α → α} {ctx out out' : List α}
    (h : Follows next ctx (out ++ out')) : Follows next ctx out := by
  intro l t r heq
  refine h l t (r ++ out') ?_
  rw [heq, List.append_assoc]
  rfl

theorem OpenBefore.tail {stop : α → Bool} {out : List α} {t : α} (h : OpenBefore stop (t :: out)) :
    OpenBefore stop out := fun l u v r heq => h (t :: l) u v r (by rw [heq]; rfl)

/-- A string none of whose tokens stops stays open before whatever comes next. -/
theorem OpenBefore.snoc {stop : α → Bool} {out : List α} (h : ∀ t ∈ out, stop t = false) (t : α) :
    OpenBefore stop (out ++ [t]) := by
  intro l u v r heq
  rcases List.eq_nil_or_concat r with rfl | ⟨r, w, rfl⟩
  · rw [show l ++ [u, v] = (l ++ [u]) ++ [v] by simp] at heq
    refine h u ?_
    rw [(List.append_inj' heq rfl).1]
    simp
  · rw [List.concat_eq_append, ← List.cons_append, ← List.cons_append, ← List.append_assoc] at heq
    refine h u ?_
    rw [(List.append_inj' heq rfl).1]
    simp

/-- A string stays open before what comes after a last token that does not stop. -/
theorem OpenBefore.snoc_of_last {stop : α → Bool} {out : List α} (h : OpenBefore stop out)
    (hlast : ∀ l t, out = l ++ [t] → stop t = false) (t : α) : OpenBefore stop (out ++ [t]) := by
  intro l u v r heq
  rcases List.eq_nil_or_concat r with rfl | ⟨r, w, rfl⟩
  · rw [show l ++ [u, v] = (l ++ [u]) ++ [v] by simp] at heq
    exact hlast l u (List.append_inj' heq rfl).1
  · rw [List.concat_eq_append, ← List.cons_append, ← List.cons_append, ← List.append_assoc] at heq
    exact h l u v r (List.append_inj' heq rfl).1

/-- **The law of the limit and of stopping**: at most `n` tokens, of which only the last stops, and fewer
than `n` only if the last does. -/
structure Stops (stop : α → Bool) (n : ℕ) (out : List α) : Prop where
  length_le : out.length ≤ n
  openBefore : OpenBefore stop out
  short : out.length < n → ∃ l t, out = l ++ [t] ∧ stop t = true

/-- A token that stops is the last. -/
theorem Stops.stopped {stop : α → Bool} {t : α} (ht : stop t = true) (n : ℕ) : Stops stop (n + 1) [t] := by
  refine ⟨?_, fun l u v r heq => ?_, fun _ => ⟨[], t, rfl, ht⟩⟩
  · rw [List.length_singleton]
    omega
  · have := congrArg List.length heq
    simp at this
    omega

/-- A token that does not stop, and what comes after it. -/
theorem Stops.cons {stop : α → Bool} {n : ℕ} {out : List α} (h : Stops stop n out) {t : α}
    (ht : stop t = false) : Stops stop (n + 1) (t :: out) := by
  refine ⟨Nat.succ_le_succ h.length_le, fun l u v r heq => ?_, fun hlt => ?_⟩
  · cases l with
    | nil =>
      obtain ⟨rfl, -⟩ := List.cons.inj heq
      exact ht
    | cons w l => exact h.openBefore l u v r (List.cons.inj heq).2
  · obtain ⟨l, u, rfl, hu⟩ := h.short (Nat.lt_of_succ_lt_succ hlt)
    exact ⟨t :: l, u, rfl, hu⟩

/-- One token, where one is allowed. -/
theorem Stops.one (stop : α → Bool) (t : α) : Stops stop 1 [t] := by
  refine ⟨Nat.le_refl 1, fun l u v r heq => ?_, fun hlt => absurd hlt (Nat.lt_irrefl 1)⟩
  have := congrArg List.length heq
  simp at this
  omega

/-- A last token after tokens that do not stop, short of the limit before it. -/
theorem Stops.snoc {stop : α → Bool} {n : ℕ} {out : List α} {t : α} (hlen : out.length < n)
    (hopen : ∀ u ∈ out, stop u = false) (hend : n ≤ out.length + 1 ∨ stop t = true) :
    Stops stop n (out ++ [t]) := by
  have hsnoc : (out ++ [t]).length = out.length + 1 := by simp
  refine ⟨by omega, OpenBefore.snoc hopen t, fun hlt => ⟨out, t, rfl, ?_⟩⟩
  exact hend.resolve_left (by omega)

/-- A loop that draws its first token before it looks at the limit obeys the law unless the limit is zero. -/
theorem Stops.iff_pos {stop : α → Bool} {n : ℕ} {out : List α} (h : Stops stop (max n 1) out) :
    Stops stop n out ↔ 1 ≤ n := by
  constructor
  · intro h'
    by_contra hn
    have hlen := h'.length_le
    obtain ⟨l, t, rfl, -⟩ := h.short (by omega)
    rw [List.length_append, List.length_singleton] at hlen
    omega
  · intro hn
    rwa [Nat.max_eq_left hn] at h

/-- **Decoding obeys the law**, whatever is drawn. -/
theorem decode_stops {G : Type} (src : Source R G) (next : List α → RandM R α) (stop : α → Bool) (n : ℕ)
    (ctx : List α) (g : G) : Stops stop n ((decode next stop n ctx).run src g).1 := by
  induction n generalizing ctx g with
  | zero =>
    exact ⟨Nat.le_refl 0, fun l t u r heq => (by simp [decode] at heq), fun h => absurd h (Nat.not_lt_zero _)⟩
  | succ n ih =>
    rw [decode, RandM.run_bind]
    cases ht : stop ((next ctx).run src g).1 with
    | true =>
      rw [if_pos rfl]
      exact Stops.stopped ht n
    | false =>
      rw [if_neg Bool.false_ne_true, RandM.run_map]
      exact (ih _ _).cons ht

/-- **What `greedy` returns is recognised from the outside**: tokens that follow, of
which only the last stops, at most `n`, and as many unless the last stops. -/
theorem greedy_eq {next : List α → α} {stop : α → Bool} {n : ℕ} {ctx out : List α}
    (hf : Follows next ctx out) (hopen : OpenBefore stop out) (hlen : out.length ≤ n)
    (hend : out.length = n ∨ ∃ l t, out = l ++ [t] ∧ stop t = true) :
    greedy next stop n ctx = out := by
  induction n generalizing ctx out with
  | zero => rw [greedy, List.length_eq_zero_iff.1 (Nat.le_zero.1 hlen)]
  | succ n ih =>
    cases out with
    | nil =>
      rcases hend with h | ⟨l, t, h, -⟩
      · exact absurd h (by simp)
      · exact absurd h (by simp)
    | cons t out =>
      have ht : t = next ctx := by simpa using hf [] t out rfl
      rw [greedy, ← ht]
      cases out with
      | nil =>
        split
        · rfl
        next hs =>
          rcases hend with h | ⟨l, u, h, hu⟩
          · obtain rfl : n = 0 := by simpa using h.symm
            rfl
          · have htu := (List.append_inj' (show [] ++ [t] = l ++ [u] from h) rfl).2
            exact absurd (List.singleton_inj.1 htu ▸ hu) hs
      | cons u out =>
        rw [if_neg (by simp [hopen [] t u out rfl])]
        refine congrArg _ (ih hf.tail hopen.tail (Nat.le_of_succ_le_succ hlen) ?_)
        rcases hend with h | ⟨l, v, h, hv⟩
        · exact Or.inl (Nat.succ.inj h)
        · cases l with
          | nil => exact absurd h (by simp)
          | cons w l => exact Or.inr ⟨l, v, (List.cons.inj h).2, hv⟩

end Autoregressive
