/-
# Decoding for several callers in turns

A scheduler serves several callers (`Session`) at once: in each turn it picks some
whose text may go on and draws one token for each of them, and whom it picks may
depend on everything drawn before.  `Interleaves` says of a program that it is such
a scheduler, wherever it stops.

The scheduler cannot be seen in what the callers get.  Let everyone go on alone
from where the scheduler stopped (`finishAll`): then the texts are drawn
independently, each as if its caller had been alone from the start
(`Interleaves.law`).  One token drawn early changes nothing
(`expect_finishAll_draw`), since draws of indices commute
(`RandM.Indexed.expect_comm`); then one turn changes nothing (`expect_turn`).
-/

import DiSpec.Lib.Chunked
import Mathlib.Data.List.Nodup

namespace RandM

variable {R G α β γ : Type}

theorem map_id (x : RandM R α) : x.map (fun a => a) = x := by
  induction x with
  | pure a => rfl
  | rand k ih => exact congrArg rand (funext ih)
  | multinomial w k ih => exact congrArg (multinomial w) (funext ih)

theorem bind_assoc (x : RandM R α) (g : α → RandM R β) (f : β → RandM R γ) :
    (x.bind g).bind f = x.bind fun a => (g a).bind f := by
  induction x with
  | pure a => rfl
  | rand k ih => exact congrArg rand (funext ih)
  | multinomial w k ih => exact congrArg (multinomial w) (funext ih)

/-- A function applied at the end. -/
theorem map_bind (x : RandM R α) (g : α → RandM R β) (f : β → γ) :
    (x.bind g).map f = x.bind fun a => (g a).map f := bind_assoc x g _

theorem bind_map (x : RandM R α) (g : α → β) (f : β → RandM R γ) :
    (x.map g).bind f = x.bind fun a => f (g a) := bind_assoc x _ f

theorem map_map (x : RandM R α) (g : α → β) (f : β → γ) :
    (x.map g).map f = x.map fun a => f (g a) := bind_map x g _

/-- Two sequences of the same length are compared on lists of that length. -/
theorem expect_sequence_congr (l : List (RandM ℝ α)) {f f' : List α → ℝ}
    (h : ∀ as, as.length = l.length → f as = f' as) : (sequence l).expect f = (sequence l).expect f' := by
  induction l generalizing f f' with
  | nil => exact h [] rfl
  | cons x l ih =>
    rw [sequence, expect_bind, expect_bind]
    refine congrArg _ (funext fun a => ?_)
    rw [expect_map, expect_map]
    exact ih fun as has => h (a :: as) (congrArg Nat.succ has)

/-! ### Draws that commute -/

/-- A program that draws indices only. -/
def Indexed : RandM R α → Prop
  | .pure _ => True
  | .rand _ => False
  | .multinomial _ k => ∀ i, (k i).Indexed

theorem Indexed.bind {x : RandM R α} {g : α → RandM R β} (hx : x.Indexed) (hg : ∀ a, (g a).Indexed) :
    (x.bind g).Indexed := by
  induction x with
  | pure a => exact hg a
  | rand k ih => exact hx.elim
  | multinomial w k ih => exact fun i => ih i (hx i)

theorem Indexed.map {x : RandM R α} (hx : x.Indexed) (g : α → β) : (x.map g).Indexed :=
  hx.bind fun _ => trivial

/-- The expectation of a finite sum. -/
theorem Indexed.expect_sum {x : RandM ℝ α} (hx : x.Indexed) (s : Finset ℕ) (c : ℕ → ℝ) (f : ℕ → α → ℝ) :
    (x.expect fun a => ∑ i ∈ s, c i * f i a) = ∑ i ∈ s, c i * x.expect (f i) := by
  induction x with
  | pure a => rfl
  | rand k ih => exact hx.elim
  | multinomial w k ih =>
    simp only [expect]
    rw [Finset.sum_congr rfl fun j _ => by rw [ih j (hx j), Finset.mul_sum], Finset.sum_comm]
    refine Finset.sum_congr rfl fun i _ => ?_
    rw [Finset.mul_sum]
    exact Finset.sum_congr rfl fun j _ => mul_left_comm _ _ _

/-- **Two programs that draw indices may be run in either order.** -/
theorem Indexed.expect_comm {x : RandM ℝ α} {y : RandM ℝ β} (hx : x.Indexed) (hy : y.Indexed)
    (f : α → β → ℝ) :
    (x.expect fun a => y.expect (f a)) = y.expect fun b => x.expect fun a => f a b := by
  induction x with
  | pure a => rfl
  | rand k ih => exact hx.elim
  | multinomial w k ih =>
    simp only [expect]
    rw [hy.expect_sum]
    exact Finset.sum_congr rfl fun i _ => by rw [ih i (hx i)]

/-! ### What every generator makes a program return -/

end RandM

/-- A generator that yields `r` or `i` first and then what `src` yields from `g` on. -/
def Source.after {R G : Type} (src : Source R G) (r : R) (i : ℕ) (g : G) : Source R (Option G) where
  rand
    | none => (r, some g)
    | some g' => ((src.rand g').1, some (src.rand g').2)
  multinomial w
    | none => (if i < w.length then i else 0, some g)
    | some g' => ((src.multinomial w g').1, some (src.multinomial w g').2)

namespace RandM

variable {R G α β : Type}

theorem inRange_after {src : Source R G} (h : src.InRange) (r : R) (i : ℕ) (g : G) :
    (src.after r i g).InRange := by
  intro w s hw
  cases s with
  | none =>
    show (if i < w.length then i else 0) < w.length
    split
    next hi => exact hi
    next => exact List.length_pos_iff.2 hw
  | some g' => exact h w g' hw

/-- After its first number the generator is the old one. -/
theorem run_after (src : Source R G) (r : R) (i : ℕ) (g : G) (x : RandM R α) (g' : G) :
    x.run (src.after r i g) (some g') = ((x.run src g').1, some (x.run src g').2) := by
  induction x generalizing g' with
  | pure a => rfl
  | rand k ih => exact ih _ _
  | multinomial w k ih => exact ih _ _

/-- **What holds of every run** against a generator that draws indices of the rows is all the law
depends on. -/
theorem expect_congr_of_run {P : α → Prop} {x : RandM ℝ α} {f f' : α → ℝ}
    (h : ∀ (G : Type) (src : Source ℝ G) (g : G), src.InRange → P (x.run src g).1)
    (hf : ∀ a, P a → f a = f' a) : x.expect f = x.expect f' := by
  induction x with
  | pure a => exact hf a (h Unit ⟨fun g => (0, g), fun _ g => (0, g)⟩ () fun _ _ hw => List.length_pos_iff.2 hw)
  | rand k ih =>
    rw [expect, expect]
    refine congrArg _ (funext fun r => ih r fun G src g hsrc => ?_)
    have hrun := h (Option G) (src.after r 0 g) none (inRange_after hsrc r 0 g)
    rw [show (rand k).run (src.after r 0 g) none = (k r).run (src.after r 0 g) (some g) from rfl,
      run_after] at hrun
    exact hrun
  | multinomial w k ih =>
    rw [expect, expect]
    refine Finset.sum_congr rfl fun i hi => ?_
    rw [ih i fun G src g hsrc => ?_]
    have hrun := h (Option G) (src.after 0 i g) none (inRange_after hsrc 0 i g)
    rw [show (multinomial w k).run (src.after 0 i g) none =
      (k (if i < w.length then i else 0)).run (src.after 0 i g) (some g) from rfl,
      if_pos (Finset.mem_range.1 hi), run_after] at hrun
    exact hrun

end RandM

namespace Autoregressive

variable {R α ι : Type}

/-! ### Callers -/

/-- What a caller asks for: the law of the next token, the tokens that stop, the limit and the prompt. -/
structure Session (R α : Type) where
  next : List α → RandM R α
  stop : α → Bool
  limit : ℕ
  prompt : List α

namespace Session

/-- What a caller that is served alone is given. -/
def alone (s : Session R α) : RandM R (List α) := decode s.next s.stop s.limit s.prompt

/-- A text that may go on: short of the limit, and its last token does not stop. -/
def Open (s : Session R α) (out : List α) : Prop :=
  out.length < s.limit ∧ ∀ t ∈ out.getLast?, s.stop t = false

instance (s : Session R α) (out : List α) : Decidable (s.Open out) := inferInstanceAs (Decidable (_ ∧ _))

/-- Going on alone with a text. -/
def finish (s : Session R α) (out : List α) : RandM R (List α) :=
  if s.Open out then (decode s.next s.stop (s.limit - out.length) (s.prompt ++ out)).map (out ++ ·)
  else .pure out

/-- Nothing drawn yet. -/
theorem finish_nil (s : Session R α) : s.finish [] = s.alone := by
  rw [finish, alone, List.append_nil]
  split
  · exact RandM.map_id _
  next h =>
    have hlimit : s.limit = 0 := by
      refine Nat.eq_zero_of_not_pos fun hpos => h ⟨hpos, fun t ht => ?_⟩
      cases ht
    rw [hlimit]
    rfl

theorem open_snoc (s : Session R α) (out : List α) (t : α) :
    s.Open (out ++ [t]) ↔ out.length + 1 < s.limit ∧ s.stop t = false := by
  rw [Open, List.length_append, List.length_singleton, List.getLast?_concat]
  simp

/-- **A text that may go on** goes on with one token. -/
theorem finish_open {s : Session R α} {out : List α} (h : s.Open out) :
    s.finish out = (s.next (s.prompt ++ out)).bind fun t => s.finish (out ++ [t]) := by
  obtain ⟨n, hn⟩ : ∃ n, s.limit - out.length = n + 1 := Nat.exists_eq_add_of_le' (Nat.sub_pos_of_lt h.1)
  rw [finish, if_pos h, hn, decode, RandM.map_bind]
  refine congrArg _ (funext fun t => ?_)
  rw [finish]
  by_cases ht : s.stop t = true
  · rw [if_pos ht, if_neg fun ho => by simp [((s.open_snoc out t).1 ho).2] at ht]
    rfl
  · rw [if_neg ht, RandM.map_map]
    by_cases hlt : out.length + 1 < s.limit
    · rw [if_pos ((s.open_snoc out t).2 ⟨hlt, by simpa using ht⟩), List.length_append, List.length_singleton,
        show s.limit - (out.length + 1) = n by omega, List.append_assoc]
      exact congrArg _ (funext fun ts => congrArg RandM.pure (List.append_cons out t ts))
    · rw [if_neg fun ho => hlt ((s.open_snoc out t).1 ho).1, show n = 0 by omega]
      rfl

end Session

/-! ### Turns -/

variable {session : ι → Session R α} {outs outs' : ι → List α}

/-- Everyone goes on alone. -/
def finishAll (session : ι → Session R α) (outs : ι → List α) (rs : List ι) : RandM R (List (List α)) :=
  RandM.sequence (rs.map fun r => (session r).finish (outs r))

/-- One draw for each caller of a turn. -/
def drawTurn (session : ι → Session R α) (outs : ι → List α) (turn : List ι) : RandM R (List α) :=
  RandM.sequence (turn.map fun r => (session r).next ((session r).prompt ++ outs r))

theorem finishAll_cons (session : ι → Session R α) (outs : ι → List α) (r : ι) (rs : List ι) :
    finishAll session outs (r :: rs) =
      ((session r).finish (outs r)).bind fun out => (finishAll session outs rs).map (out :: ·) := rfl

theorem drawTurn_cons (session : ι → Session R α) (outs : ι → List α) (r : ι) (turn : List ι) :
    drawTurn session outs (r :: turn) = ((session r).next ((session r).prompt ++ outs r)).bind fun t =>
      (drawTurn session outs turn).map (t :: ·) := rfl

theorem finishAll_congr {rs : List ι} (h : ∀ r ∈ rs, outs r = outs' r) :
    finishAll session outs rs = finishAll session outs' rs :=
  congrArg RandM.sequence (List.map_congr_left fun r hr => by rw [h r hr])

theorem drawTurn_congr {turn : List ι} (h : ∀ r ∈ turn, outs r = outs' r) :
    drawTurn session outs turn = drawTurn session outs' turn :=
  congrArg RandM.sequence (List.map_congr_left fun r hr => by rw [h r hr])

/-- Nothing is drawn at the start. -/
theorem finishAll_nil (session : ι → Session R α) (rs : List ι) :
    finishAll session (fun _ => []) rs = RandM.sequence (rs.map fun r => (session r).alone) :=
  congrArg RandM.sequence (List.map_congr_left fun r _ => (session r).finish_nil)

/-- No text may go on. -/
theorem finishAll_pure {rs : List ι} (h : ∀ r ∈ rs, ¬(session r).Open (outs r)) :
    finishAll session outs rs = .pure (rs.map outs) := by
  rw [← RandM.sequence_pure, List.map_map]
  exact congrArg RandM.sequence (List.map_congr_left fun r hr => if_neg (h r hr))

variable [DecidableEq ι]

/-- The tokens of a turn that are drawn for caller `r`. -/
def given (drawn : List (ι × α)) (r : ι) : List α := (drawn.filter fun d => d.1 = r).map Prod.snd

theorem given_cons (d : ι × α) (drawn : List (ι × α)) (r : ι) :
    given (d :: drawn) r = (if d.1 = r then [d.2] else []) ++ given drawn r := by
  unfold given
  rw [List.filter_cons]
  split
  next h => rw [if_pos (of_decide_eq_true h)]; rfl
  next h => rw [if_neg fun hm => h (decide_eq_true hm)]; rfl

/-- A program that serves the callers `rs`, whose texts so far are `outs`, in turns, and returns the texts
at the end. -/
inductive Interleaves (session : ι → Session R α) (rs : List ι) :
    (ι → List α) → RandM R (ι → List α) → Prop
  | stop (outs : ι → List α) : Interleaves session rs outs (.pure outs)
  | turn (outs : ι → List α) (turn : List ι) (k : List α → RandM R (ι → List α)) (nodup : turn.Nodup)
      (may : ∀ r ∈ turn, r ∈ rs ∧ (session r).Open (outs r))
      (rest : ∀ ts, ts.length = turn.length →
        Interleaves session rs (fun r => outs r ++ given (turn.zip ts) r) (k ts)) :
      Interleaves session rs outs ((drawTurn session outs turn).bind k)

end Autoregressive

namespace Autoregressive

variable {α ι : Type} [DecidableEq ι] {session : ι → Session ℝ α} {outs : ι → List α}

theorem indexed_decode {next : List α → RandM ℝ α} (h : ∀ ctx, (next ctx).Indexed) (stop : α → Bool) (n : ℕ)
    (ctx : List α) : (decode next stop n ctx).Indexed := by
  induction n generalizing ctx with
  | zero => trivial
  | succ n ih =>
    refine (h ctx).bind fun t => ?_
    split
    · trivial
    · exact (ih _).map _

theorem Session.indexed_finish {s : Session ℝ α} (h : ∀ ctx, (s.next ctx).Indexed) (out : List α) :
    (s.finish out).Indexed := by
  rw [finish]
  split
  · exact (indexed_decode h _ _ _).map _
  · trivial

/-- **One token drawn early** for a caller whose text may go on changes nothing. -/
theorem expect_finishAll_draw (h : ∀ r ctx, ((session r).next ctx).Indexed) {rs : List ι} (hn : rs.Nodup)
    {r : ι} (hr : r ∈ rs) (ho : (session r).Open (outs r)) (f : List (List α) → ℝ) :
    (((session r).next ((session r).prompt ++ outs r)).expect fun t =>
        (finishAll session (Function.update outs r (outs r ++ [t])) rs).expect f) =
      (finishAll session outs rs).expect f := by
  induction rs generalizing f with
  | nil => exact absurd hr List.not_mem_nil
  | cons r' rs ih =>
    obtain ⟨hnot, hn⟩ := List.nodup_cons.1 hn
    simp only [finishAll_cons, RandM.expect_bind, RandM.expect_map]
    rcases List.mem_cons.1 hr with rfl | hr
    · -- the caller itself: its own next token
      rw [Session.finish_open ho, RandM.expect_bind]
      refine congrArg _ (funext fun t => ?_)
      have hothers : ∀ r' ∈ rs, Function.update outs r (outs r ++ [t]) r' = outs r' := fun r' hr' => by
        refine Function.update_of_ne ?_ _ _
        rintro rfl
        exact hnot hr'
      rw [Function.update_self, finishAll_congr hothers]
    · -- a caller before it: the two draws commute
      have hne : r' ≠ r := by
        rintro rfl
        exact hnot hr
      simp only [Function.update_of_ne hne]
      rw [(h r _).expect_comm (Session.indexed_finish (h r') _)]
      exact congrArg _ (funext fun out => ih hn hr _)

/-- **One turn changes nothing.**  By induction on the turn. -/
theorem expect_turn (h : ∀ r ctx, ((session r).next ctx).Indexed) {rs : List ι} (hn : rs.Nodup)
    {turn : List ι} (hturn : turn.Nodup) (hmay : ∀ r ∈ turn, r ∈ rs ∧ (session r).Open (outs r))
    (f : List (List α) → ℝ) :
    ((drawTurn session outs turn).expect fun ts =>
        (finishAll session (fun r => outs r ++ given (turn.zip ts) r) rs).expect f) =
      (finishAll session outs rs).expect f := by
  induction turn generalizing outs with
  | nil =>
    show (finishAll session (fun r => outs r ++ []) rs).expect f = _
    simp only [List.append_nil]
  | cons r turn ih =>
    obtain ⟨hnot, hturn⟩ := List.nodup_cons.1 hturn
    rw [drawTurn_cons, RandM.expect_bind,
      ← expect_finishAll_draw h hn (hmay r List.mem_cons_self).1 (hmay r List.mem_cons_self).2]
    refine congrArg _ (funext fun t => ?_)
    rw [RandM.expect_map]
    have hne : ∀ r' ∈ turn, r' ≠ r := by
      rintro r' hr' rfl
      exact hnot hr'
    have hsame : ∀ r' ∈ turn, Function.update outs r (outs r ++ [t]) r' = outs r' := fun r' hr' =>
      Function.update_of_ne (hne r' hr') _ _
    rw [← ih hturn fun r' hr' => by
      rw [hsame r' hr']
      exact hmay r' (List.mem_cons_of_mem _ hr'), drawTurn_congr hsame]
    refine congrArg _ (funext fun ts => ?_)
    refine congrArg (fun o => (finishAll session o rs).expect f) (funext fun r' => ?_)
    rw [List.zip_cons_cons, given_cons]
    rcases eq_or_ne r' r with rfl | hne
    · rw [if_pos rfl, Function.update_self, List.append_assoc]
    · rw [if_neg hne.symm, Function.update_of_ne hne, List.nil_append]

/-- **The law of a program that serves in turns.**  Wherever it stops, when everyone has gone on alone
from there the texts are distributed as if everyone had gone on alone from the start.  By induction on
the turns. -/
theorem Interleaves.law {rs : List ι} {x : RandM ℝ (ι → List α)} (hx : Interleaves session rs outs x)
    (h : ∀ r ctx, ((session r).next ctx).Indexed) (hn : rs.Nodup) (f : List (List α) → ℝ) :
    (x.expect fun outs' => (finishAll session outs' rs).expect f) = (finishAll session outs rs).expect f := by
  induction hx with
  | stop outs => rfl
  | turn outs turn k nodup may rest ih =>
    rw [RandM.expect_bind, ← expect_turn h hn nodup may]
    refine RandM.expect_sequence_congr _ fun ts hts => ih ts ?_
    rwa [List.length_map] at hts

/-- **Callers that are all served to the end** get texts drawn independently, each as if alone. -/
theorem Interleaves.law_served {rs : List ι} {x : RandM ℝ (ι → List α)}
    (hx : Interleaves session rs (fun _ => []) x) (h : ∀ r ctx, ((session r).next ctx).Indexed)
    (hn : rs.Nodup)
    (hend : ∀ (G : Type) (src : Source ℝ G) (g : G), src.InRange →
      ∀ r ∈ rs, ¬(session r).Open ((x.run src g).1 r))
    (f : List (List α) → ℝ) :
    (x.expect fun outs => f (rs.map outs)) =
      (RandM.sequence (rs.map fun r => (session r).alone)).expect f := by
  rw [← finishAll_nil, ← hx.law h hn]
  refine RandM.expect_congr_of_run (P := fun out => ∀ r ∈ rs, ¬(session r).Open (out r)) hend fun outs' hout => ?_
  rw [finishAll_pure hout]
  rfl

end Autoregressive
