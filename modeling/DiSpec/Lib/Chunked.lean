/-
# Decoding in chunks

A loop that appends several tokens at a time, cuts the text at the first token that
stops or at the limit, and goes on from there otherwise (`chunked`).  The chunk
itself may come from anywhere, from a cheaper model that is then corrected for
instance.

What makes such a loop right is one equation about one chunk: completing it with
draws from `next` up to a fixed length has the law of drawing that many tokens
from `next` (`Completes`).  Then the whole loop has the law of decoding token by
token (`Completes.chunked`).  The proof draws more tokens than either loop needs
(`expect_unstopped_add`) and cuts afterwards (`expect_decode_cut`); the tokens past the
cut do not matter because draws are `Lawful`.

`RandM.Always` is what holds of the value whatever is drawn: two functions that
agree there have one expectation.
-/

import DiSpec.Lib.RandLaw

/-- A generator draws an index of the row. -/
def Source.InRange {R G : Type} (src : Source R G) : Prop :=
  ∀ w g, w ≠ [] → (src.multinomial w g).1 < w.length

namespace RandM

variable {R G α β : Type}

/-- Whatever is drawn, and from rows that are not empty, the value satisfies `P`. -/
def Always (P : α → Prop) : RandM R α → Prop
  | .pure a => P a
  | .rand k => ∀ r, (k r).Always P
  | .multinomial w k => w ≠ [] ∧ ∀ i < w.length, (k i).Always P

theorem Always.mono {P Q : α → Prop} {x : RandM R α} (h : x.Always P) (hPQ : ∀ a, P a → Q a) :
    x.Always Q := by
  induction x with
  | pure a => exact hPQ a h
  | rand k ih => exact fun r => ih r (h r)
  | multinomial w k ih => exact ⟨h.1, fun i hi => ih i (h.2 i hi)⟩

/-- One program after another. -/
theorem Always.bind {P : α → Prop} {Q : β → Prop} {x : RandM R α} {g : α → RandM R β} (h : x.Always P)
    (hg : ∀ a, P a → (g a).Always Q) : (x.bind g).Always Q := by
  induction x with
  | pure a => exact hg a h
  | rand k ih => exact fun r => ih r (h r)
  | multinomial w k ih => exact ⟨h.1, fun i hi => ih i (h.2 i hi)⟩

theorem Always.map {P : α → Prop} {Q : β → Prop} {x : RandM R α} {g : α → β} (h : x.Always P)
    (hg : ∀ a, P a → Q (g a)) : (x.map g).Always Q :=
  h.bind fun a ha => hg a ha

/-- What holds whatever is drawn holds of what a generator draws. -/
theorem Always.run {P : α → Prop} {src : Source R G} (hsrc : src.InRange) {x : RandM R α}
    (h : x.Always P) (g : G) : P (x.run src g).1 := by
  induction x generalizing g with
  | pure a => exact h
  | rand k ih => exact ih _ (h _) _
  | multinomial w k ih => exact ih _ (h.2 _ (hsrc w g h.1)) _

/-- Two functions that agree on what can be drawn. -/
theorem Always.expect_congr {P : α → Prop} {x : RandM ℝ α} (h : x.Always P) {f f' : α → ℝ}
    (hf : ∀ a, P a → f a = f' a) : x.expect f = x.expect f' := by
  induction x with
  | pure a => exact hf a h
  | rand k ih =>
    rw [expect, expect]
    exact congrArg _ (funext fun r => ih r (h r))
  | multinomial w k ih =>
    rw [expect, expect]
    refine Finset.sum_congr rfl fun i hi => ?_
    rw [ih i (h.2 i (Finset.mem_range.1 hi))]

/-- A value that does not depend on what is drawn. -/
theorem Lawful.expect_const {x : RandM ℝ α} (h : x.Lawful) (c : ℝ) : x.expect (fun _ => c) = c := by
  have h0 := h 0 c fun _ => 0
  simpa using h0

end RandM

namespace Autoregressive

variable {α : Type}

/-- Decoding that nothing stops. -/
abbrev unstopped {R : Type} (next : List α → RandM R α) (n : ℕ) (ctx : List α) : RandM R (List α) :=
  decode next (fun _ => false) n ctx

/-- What a loop keeps of some tokens: up to the first that stops, and at most `n`. -/
def cutAt (stop : α → Bool) : ℕ → List α → List α
  | 0, _ => []
  | _ + 1, [] => []
  | n + 1, t :: ts => if stop t then [t] else t :: cutAt stop n ts

/-- The loop that appends a chunk at a time, in at most `fuel` rounds. -/
def chunked {R : Type} (chunk : List α → RandM R (List α)) (stop : α → Bool) :
    (fuel n : ℕ) → List α → RandM R (List α)
  | 0, _, _ => .pure []
  | fuel + 1, n, ctx => (chunk ctx).bind fun ts =>
      if n ≤ ts.length ∨ ts.any stop then .pure (cutAt stop n ts)
      else (chunked chunk stop fuel (n - ts.length) (ctx ++ ts)).map (ts ++ ·)

/-- Tokens after the end of the loop are cut off. -/
theorem cutAt_append {stop : α → Bool} {n : ℕ} {ts : List α} (h : n ≤ ts.length ∨ ts.any stop)
    (us : List α) : cutAt stop n (ts ++ us) = cutAt stop n ts := by
  induction ts generalizing n with
  | nil =>
    obtain rfl : n = 0 := by simpa using h
    rw [cutAt, cutAt]
  | cons t ts ih =>
    cases n with
    | zero => rfl
    | succ n =>
      rw [List.cons_append, cutAt, cutAt]
      split
      · rfl
      next ht =>
        rw [ih]
        simpa [ht] using h

/-- Tokens before the end of the loop are kept. -/
theorem cutAt_of_open {stop : α → Bool} {n : ℕ} {ts : List α} (h : ¬ (n ≤ ts.length ∨ ts.any stop))
    (us : List α) : cutAt stop n (ts ++ us) = ts ++ cutAt stop (n - ts.length) us := by
  induction ts generalizing n with
  | nil => rfl
  | cons t ts ih =>
    cases n with
    | zero => simp at h
    | succ n =>
      obtain ⟨hlen, hstop⟩ : n > ts.length ∧ stop t = false ∧ ts.any stop = false := by
        simpa [not_or] using h
      rw [List.cons_append, cutAt, if_neg (by simp [hstop.1]), ih, List.length_cons,
        Nat.add_sub_add_right, List.cons_append]
      simp [hlen, hstop.2]

theorem length_cutAt_le (stop : α → Bool) (n : ℕ) (ts : List α) : (cutAt stop n ts).length ≤ n := by
  induction ts generalizing n with
  | nil => cases n <;> exact Nat.zero_le _
  | cons t ts ih =>
    cases n with
    | zero => exact le_rfl
    | succ n =>
      rw [cutAt]
      split
      · exact Nat.succ_le_succ (Nat.zero_le n)
      · exact Nat.succ_le_succ (ih n)

/-- Tokens that do not end the loop are kept. -/
theorem cutAt_eq_self {stop : α → Bool} {n : ℕ} {ts : List α} (h : ¬ (n ≤ ts.length ∨ ts.any stop)) :
    cutAt stop n ts = ts := by
  have hkept := cutAt_of_open h []
  rwa [List.append_nil, List.eq_nil_of_length_eq_zero (l := cutAt stop (n - ts.length) []),
    List.append_nil] at hkept
  cases n - ts.length <;> rfl

/-- A round of the loop over chunks against a generator. -/
theorem run_chunked_succ {R G : Type} (src : Source R G) (chunk : List α → RandM R (List α)) (stop : α → Bool)
    (fuel n : ℕ) (ctx : List α) {g g' : G} {ts : List α} (h : (chunk ctx).run src g = (ts, g')) :
    (chunked chunk stop (fuel + 1) n ctx).run src g =
      if n ≤ ts.length ∨ ts.any stop then (cutAt stop n ts, g')
      else (ts ++ ((chunked chunk stop fuel (n - ts.length) (ctx ++ ts)).run src g').1,
        ((chunked chunk stop fuel (n - ts.length) (ctx ++ ts)).run src g').2) := by
  rw [chunked, RandM.run_bind, h]
  split
  · rfl
  · rw [RandM.run_map]

variable {next : List α → RandM ℝ α}

/-- Drawing one more token against a generator. -/
theorem run_unstopped_succ {R G : Type} (src : Source R G) (next : List α → RandM R α) (n : ℕ) (ctx : List α)
    (g : G) :
    (unstopped next (n + 1) ctx).run src g =
      (((next ctx).run src g).1 ::
          ((unstopped next n (ctx ++ [((next ctx).run src g).1])).run src ((next ctx).run src g).2).1,
        ((unstopped next n (ctx ++ [((next ctx).run src g).1])).run src ((next ctx).run src g).2).2) := by
  rw [unstopped, decode, RandM.run_bind, if_neg Bool.false_ne_true, RandM.run_map]

/-- One more token. -/
theorem expect_unstopped_succ (next : List α → RandM ℝ α) (n : ℕ) (ctx : List α) (f : List α → ℝ) :
    (unstopped next (n + 1) ctx).expect f =
      (next ctx).expect fun t => (unstopped next n (ctx ++ [t])).expect fun ts => f (t :: ts) := by
  rw [unstopped, decode, RandM.expect_bind]
  simp only [Bool.false_eq_true, if_false, RandM.expect_map]

/-- Decoding `a + b` tokens is decoding `a` and then `b`. -/
theorem expect_unstopped_add (next : List α → RandM ℝ α) (a b : ℕ) (ctx : List α) (f : List α → ℝ) :
    (unstopped next (a + b) ctx).expect f =
      (unstopped next a ctx).expect fun ts => (unstopped next b (ctx ++ ts)).expect fun us => f (ts ++ us) := by
  induction a generalizing ctx f with
  | zero =>
    rw [Nat.zero_add, unstopped, unstopped, decode, RandM.expect_pure, List.append_nil]
    rfl
  | succ a ih =>
    rw [show a + 1 + b = a + b + 1 by omega, expect_unstopped_succ, expect_unstopped_succ]
    simp only [ih, List.append_assoc, List.cons_append, List.nil_append]

/-- Decoding looks at the laws of its draws only. -/
theorem expect_decode_congr {next' : List α → RandM ℝ α}
    (h : ∀ ctx f, (next ctx).expect f = (next' ctx).expect f) (stop : α → Bool) (n : ℕ) (ctx : List α)
    (f : List α → ℝ) : (decode next stop n ctx).expect f = (decode next' stop n ctx).expect f := by
  induction n generalizing ctx f with
  | zero => rfl
  | succ n ih =>
    rw [decode, decode, RandM.expect_bind, RandM.expect_bind, h ctx]
    refine congrArg _ (funext fun t => ?_)
    split
    · rfl
    · rw [RandM.expect_map, RandM.expect_map, ih]

/-- **Cutting what is drawn without stopping** has the law of the loop that stops. -/
theorem expect_decode_cut (hnext : ∀ ctx, (next ctx).Lawful) (stop : α → Bool) {n m : ℕ} (h : n ≤ m)
    (ctx : List α) (f : List α → ℝ) :
    (decode next stop n ctx).expect f = (unstopped next m ctx).expect fun ts => f (cutAt stop n ts) := by
  induction n generalizing m ctx f with
  | zero =>
    simp only [cutAt]
    rw [(RandM.lawful_decode hnext _ m ctx).expect_const]
    rfl
  | succ n ih =>
    obtain ⟨m, rfl⟩ := Nat.exists_eq_add_of_le' (Nat.one_le_of_lt h)
    rw [decode, RandM.expect_bind, expect_unstopped_succ]
    refine congrArg _ (funext fun t => ?_)
    by_cases ht : stop t = true
    · simp only [ht, cutAt, if_true, RandM.expect_pure]
      rw [(RandM.lawful_decode hnext _ m _).expect_const]
    · simp only [ht, cutAt, Bool.false_eq_true, if_false, RandM.expect_map]
      exact ih (Nat.le_of_succ_le_succ h) _ _

/-- **What makes chunks right**: each has between one and `m` tokens, and completing it to `m` tokens
has the law of drawing `m` tokens. -/
structure Completes (next : List α → RandM ℝ α) (m : ℕ) (chunk : List α → RandM ℝ (List α)) : Prop where
  length : ∀ ctx, (chunk ctx).Always fun ts => 1 ≤ ts.length ∧ ts.length ≤ m
  law : ∀ ctx f, ((chunk ctx).expect fun ts =>
    (unstopped next (m - ts.length) (ctx ++ ts)).expect fun us => f (ts ++ us)) = (unstopped next m ctx).expect f

/-- **The loop over chunks has the law of decoding token by token.**  By induction on its rounds. -/
theorem Completes.chunked {m : ℕ} {chunk : List α → RandM ℝ (List α)} (h : Completes next m chunk)
    (hnext : ∀ ctx, (next ctx).Lawful) (stop : α → Bool) {fuel n : ℕ} (hn : 1 ≤ n) (hfuel : n ≤ fuel)
    (ctx : List α) (f : List α → ℝ) :
    (chunked chunk stop fuel n ctx).expect f = (decode next stop n ctx).expect f := by
  induction fuel generalizing n ctx f with
  | zero => omega
  | succ fuel ih =>
    rw [Autoregressive.chunked, RandM.expect_bind, expect_decode_cut hnext stop (Nat.le_add_left n m),
      expect_unstopped_add, ← h.law ctx]
    refine (h.length ctx).expect_congr fun ts hts => ?_
    have hjoin : ((unstopped next (m - ts.length) (ctx ++ ts)).expect fun us =>
        (unstopped next n (ctx ++ (ts ++ us))).expect fun vs => f (cutAt stop n (ts ++ us ++ vs))) =
        (unstopped next (m - ts.length + n) (ctx ++ ts)).expect fun us => f (cutAt stop n (ts ++ us)) := by
      rw [expect_unstopped_add]
      simp only [List.append_assoc]
    rw [hjoin]
    split
    next hend =>
      -- the loop ends in this round
      simp only [cutAt_append hend]
      rw [(RandM.lawful_decode hnext _ _ _).expect_const]
      rfl
    next hgo =>
      simp only [cutAt_of_open hgo]
      obtain ⟨hlt, -⟩ := not_or.1 hgo
      rw [RandM.expect_map, ih (by omega) (by omega),
        expect_decode_cut hnext stop (m := m - ts.length + n) (by omega)]

end Autoregressive
