/-
# Two workers in a pipeline

A client, two worker processes and three first-in-first-out queues.  A worker takes an item, works
on it and puts the result on the next queue; on the sentinel `none` it stops, and where its
function raises it fails with the item in its hands.  The client is a program: it puts items on
the first queue, gets results from the last, puts a sentinel on the middle queue, and waits for
nothing in particular (`join`, which may return at any time).

The steps of the three processes interleave in any order.  Along every run nothing is lost,
duplicated or reordered (`Reaches.flows`), what the client has sent and received is what its
program says so far, and no worker sees a sentinel before the client put one
(`Reaches.past`).
-/

import Mathlib.Data.List.Forall2
import Mathlib.Data.List.ReduceOption
import Mathlib.Logic.Relation

namespace Pipeline

variable {α β γ ε σ σ₁ σ₂ : Type}

/-- A worker with its state: between items, with an item, after the sentinel, or after an exception. -/
inductive Proc (σ α : Type)
  | idle (s : σ)
  | busy (a : α) (s : σ)
  | stopped (s : σ)
  | failed (a : α) (s : σ)

namespace Proc

/-- The item a worker has taken and not passed on. -/
def held : Proc σ α → List α
  | busy a _ => [a]
  | failed a _ => [a]
  | _ => []

/-- The state of a worker that has not failed. -/
def Good (I : σ → Prop) : Proc σ α → Prop
  | idle s => I s
  | busy _ s => I s
  | stopped s => I s
  | failed _ _ => True

/-- The process has ended, by the sentinel or by an exception. -/
def Exited : Proc σ α → Prop
  | stopped _ => True
  | failed _ _ => True
  | _ => False

theorem Exited.cases {p : Proc σ α} (h : p.Exited) : (∃ s, p = stopped s) ∨ ∃ a s, p = failed a s := by
  cases p with
  | idle s => exact h.elim
  | busy a s => exact h.elim
  | stopped s => exact Or.inl ⟨s, rfl⟩
  | failed a s => exact Or.inr ⟨a, s, rfl⟩

/-- A step of a worker: the queue it reads before and after, and what it puts on the next. -/
inductive Step (f : σ → α → Except ε β × σ) :
    List (Option α) → Proc σ α → List (Option α) → Proc σ α → List β → Prop
  | take (a : α) (q : List (Option α)) (s : σ) : Step f (some a :: q) (idle s) q (busy a s) []
  | stop (q : List (Option α)) (s : σ) : Step f (none :: q) (idle s) q (stopped s) []
  | done {a : α} {b : β} {s s' : σ} (q : List (Option α)) (h : f s a = (.ok b, s')) :
      Step f q (busy a s) q (idle s') [b]
  | fail {a : α} {e : ε} {s s' : σ} (q : List (Option α)) (h : f s a = (.error e, s')) :
      Step f q (busy a s) q (failed a s') []

end Proc

/-- **What a stage guarantees** while its state satisfies `I`: an item that stands for `a` becomes one that
stands for `a`. -/
def Keeps (f : σ → β → Except ε γ × σ) (I : σ → Prop) (P : α → β → Prop) (Q : α → γ → Prop) : Prop :=
  ∀ ⦃s s' a b c⦄, I s → P a b → f s b = (.ok c, s') → I s' ∧ Q a c

/-- **One step of a worker** keeps the order of what it holds and what waits for it: a part is passed on,
the rest is still there. -/
theorem Proc.Step.flows {f : σ → β → Except ε γ × σ} {I : σ → Prop} {P : α → β → Prop} {Q : α → γ → Prop}
    (hf : Keeps f I P Q) {q q' : List (Option β)} {p p' : Proc σ β} {out : List γ}
    (h : Proc.Step f q p q' p' out) (hgood : p.Good I) {working waiting : List α}
    (hw : List.Forall₂ P working p.held) (hq : List.Forall₂ P waiting q.reduceOption) :
    p'.Good I ∧ ∃ new working' waiting', working ++ waiting = new ++ (working' ++ waiting') ∧
      List.Forall₂ Q new out ∧ List.Forall₂ P working' p'.held ∧ List.Forall₂ P waiting' q'.reduceOption := by
  cases h with
  | take b q s =>
    rw [List.reduceOption_cons_of_some] at hq
    obtain ⟨a, waiting', hab, hq', rfl⟩ := List.forall₂_cons_right_iff.1 hq
    obtain rfl := List.forall₂_nil_right_iff.1 hw
    exact ⟨hgood, [], [a], waiting', rfl, .nil, .cons hab .nil, hq'⟩
  | stop q s =>
    rw [List.reduceOption_cons_of_none] at hq
    exact ⟨hgood, [], working, waiting, rfl, .nil, hw, hq⟩
  | @done b c s s' q hrun =>
    obtain ⟨a, rest, hab, hrest, rfl⟩ := List.forall₂_cons_right_iff.1 hw
    obtain rfl := List.forall₂_nil_right_iff.1 hrest
    obtain ⟨hgood', hac⟩ := hf hgood hab hrun
    exact ⟨hgood', [a], [], waiting, rfl, .cons hac .nil, .nil, hq⟩
  | fail q hrun => exact ⟨trivial, [], working, waiting, rfl, .nil, hw, hq⟩

/-- A worker that has not ended moves unless it waits for an item. -/
theorem Proc.moves (f : σ → α → Except ε β × σ) (q : List (Option α)) {p : Proc σ α} (hp : ¬ p.Exited) :
    (∃ q' p' out, Proc.Step f q p q' p' out) ∨ q = [] ∧ p.held = [] := by
  cases p with
  | idle s =>
    rcases q with - | ⟨- | a, q⟩
    · exact Or.inr ⟨rfl, rfl⟩
    · exact Or.inl ⟨_, _, _, .stop q s⟩
    · exact Or.inl ⟨_, _, _, .take a q s⟩
  | busy a s =>
    rcases hrun : f s a with ⟨e | b, s'⟩
    · exact Or.inl ⟨_, _, _, .fail q hrun⟩
    · exact Or.inl ⟨_, _, _, .done q hrun⟩
  | stopped s => exact absurd trivial hp
  | failed a s => exact absurd trivial hp

/-- The worker has seen a sentinel or has one before it. -/
def Proc.Closed (q : List (Option α)) (p : Proc σ α) : Prop := none ∈ q ∨ ∃ s, p = .stopped s

/-- A worker makes no sentinels. -/
theorem Proc.Step.closed {f : σ → β → Except ε γ × σ} {q q' : List (Option β)} {p p' : Proc σ β}
    {out : List γ} (h : Proc.Step f q p q' p' out) (hc : Proc.Closed q' p') : Proc.Closed q p := by
  cases h with
  | take b q s => exact Or.inl (List.mem_cons_of_mem _ (hc.resolve_right (by simp)))
  | stop q s => exact Or.inl List.mem_cons_self
  | done q hrun => exact Or.inl (hc.resolve_right (by simp))
  | fail q hrun => exact Or.inl (hc.resolve_right (by simp))

/-! ### The client and the whole pipeline -/

/-- A call of the client. -/
inductive Call (α : Type)
  | put (item : Option α)
  | get
  | join
  | putMid

/-- What a call sends. -/
def Call.sends : Call α → List α
  | put item => item.toList
  | _ => []

/-- Whether a call reads a result. -/
def Call.isGet : Call α → Bool
  | get => true
  | _ => false

/-- The pipeline: what the client has still to do, the queues and the workers, and for the record what was
sent and received. -/
structure Net (α β γ σ₁ σ₂ : Type) where
  client : List (Call α)
  inQ : List (Option α)
  first : Proc σ₁ α
  midQ : List (Option β)
  second : Proc σ₂ β
  outQ : List γ
  sent : List α
  received : List γ

/-- Both workers wait, and the client is about to run its program. -/
def start (program : List (Call α)) (s₁ : σ₁) (s₂ : σ₂) : Net α β γ σ₁ σ₂ :=
  ⟨program, [], .idle s₁, [], .idle s₂, [], [], []⟩

variable {f₁ : σ₁ → α → Except ε β × σ₁} {f₂ : σ₂ → β → Except ε γ × σ₂}

/-- A step of one of the three processes. -/
inductive Step (f₁ : σ₁ → α → Except ε β × σ₁) (f₂ : σ₂ → β → Except ε γ × σ₂) :
    Net α β γ σ₁ σ₂ → Net α β γ σ₁ σ₂ → Prop
  | first {n : Net α β γ σ₁ σ₂} {q : List (Option α)} {p : Proc σ₁ α} {out : List β}
      (h : Proc.Step f₁ n.inQ n.first q p out) :
      Step f₁ f₂ n { n with inQ := q, first := p, midQ := n.midQ ++ out.map some }
  | second {n : Net α β γ σ₁ σ₂} {q : List (Option β)} {p : Proc σ₂ β} {out : List γ}
      (h : Proc.Step f₂ n.midQ n.second q p out) :
      Step f₁ f₂ n { n with midQ := q, second := p, outQ := n.outQ ++ out }
  | put {n : Net α β γ σ₁ σ₂} {item : Option α} {rest : List (Call α)} (h : n.client = .put item :: rest) :
      Step f₁ f₂ n { n with client := rest, inQ := n.inQ ++ [item], sent := n.sent ++ item.toList }
  | get {n : Net α β γ σ₁ σ₂} {c : γ} {q : List γ} {rest : List (Call α)} (h : n.client = .get :: rest)
      (hq : n.outQ = c :: q) :
      Step f₁ f₂ n { n with client := rest, outQ := q, received := n.received ++ [c] }
  | join {n : Net α β γ σ₁ σ₂} {rest : List (Call α)} (h : n.client = .join :: rest) :
      Step f₁ f₂ n { n with client := rest }
  | putMid {n : Net α β γ σ₁ σ₂} {rest : List (Call α)} (h : n.client = .putMid :: rest) :
      Step f₁ f₂ n { n with client := rest, midQ := n.midQ ++ [none] }

/-- Any interleaving. -/
def Reaches (f₁ : σ₁ → α → Except ε β × σ₁) (f₂ : σ₂ → β → Except ε γ × σ₂) :
    Net α β γ σ₁ σ₂ → Net α β γ σ₁ σ₂ → Prop :=
  Relation.ReflTransGen (Step f₁ f₂)

/-- **Where what was sent is**: each item in one place, and the places in the order of sending. -/
structure Flows (P : α → β → Prop) (Q : α → γ → Prop) (n : Net α β γ σ₁ σ₂)
    (served working moving : List α) : Prop where
  sent : n.sent = served ++ (working ++ moving) ++ (n.first.held ++ n.inQ.reduceOption)
  served : List.Forall₂ Q served (n.received ++ n.outQ)
  working : List.Forall₂ P working n.second.held
  moving : List.Forall₂ P moving n.midQ.reduceOption

theorem forall₂_eq_self (xs : List α) : List.Forall₂ (· = ·) xs xs :=
  List.forall₂_same.2 fun _ _ => rfl

/-- A queue without sentinels. -/
theorem reduceOption_map_some (xs : List α) : (xs.map some).reduceOption = xs := by
  simp [List.reduceOption]

/-- **One step** of any process keeps every item in its place in the order. -/
theorem Step.flows {I₁ : σ₁ → Prop} {I₂ : σ₂ → Prop} {P : α → β → Prop} {Q : α → γ → Prop}
    (h₁ : Keeps f₁ I₁ (· = ·) P) (h₂ : Keeps f₂ I₂ P Q) {n n' : Net α β γ σ₁ σ₂} (h : Step f₁ f₂ n n')
    (hgood₁ : n.first.Good I₁) (hgood₂ : n.second.Good I₂) {served working moving : List α}
    (hf : Flows P Q n served working moving) :
    n'.first.Good I₁ ∧ n'.second.Good I₂ ∧
      ∃ served' working' moving', Flows P Q n' served' working' moving' := by
  cases h with
  | @first q p out h =>
    obtain ⟨hgood, new, working', waiting', hsplit, hnew, hworking, hwaiting⟩ :=
      h.flows h₁ hgood₁ (forall₂_eq_self _) (forall₂_eq_self _)
    rw [List.forall₂_eq_eq_eq] at hworking hwaiting
    subst hworking hwaiting
    refine ⟨hgood, hgood₂, served, working, moving ++ new, ?_, hf.served, hf.working, ?_⟩
    · rw [hf.sent, hsplit]
      simp only [List.append_assoc]
    · rw [List.reduceOption_append]
      exact List.rel_append hf.moving (by simpa [List.reduceOption] using hnew)
  | @second q p out h =>
    obtain ⟨hgood, new, working', moving', hsplit, hnew, hworking, hmoving⟩ :=
      h.flows h₂ hgood₂ hf.working hf.moving
    refine ⟨hgood₁, hgood, served ++ new, working', moving', ?_, ?_, hworking, hmoving⟩
    · rw [hf.sent, hsplit]
      simp only [List.append_assoc]
    · rw [← List.append_assoc]
      exact List.rel_append hf.served hnew
  | @put item rest h =>
    refine ⟨hgood₁, hgood₂, served, working, moving, ?_, hf.served, hf.working, hf.moving⟩
    rw [hf.sent, List.reduceOption_append]
    cases item <;> simp [List.reduceOption]
  | @get c q rest h hq =>
    refine ⟨hgood₁, hgood₂, served, working, moving, hf.sent, ?_, hf.working, hf.moving⟩
    have hserved := hf.served
    rw [hq] at hserved
    rwa [List.append_assoc]
  | join h => exact ⟨hgood₁, hgood₂, served, working, moving, hf.sent, hf.served, hf.working, hf.moving⟩
  | putMid h =>
    refine ⟨hgood₁, hgood₂, served, working, moving, hf.sent, hf.served, hf.working, ?_⟩
    rw [List.reduceOption_append]
    simpa [List.reduceOption] using hf.moving

/-- **Every run**, whatever the interleaving: the workers that have not failed are in good states, and
each item sent is in exactly one place. -/
theorem Reaches.flows {I₁ : σ₁ → Prop} {I₂ : σ₂ → Prop} {P : α → β → Prop} {Q : α → γ → Prop}
    (h₁ : Keeps f₁ I₁ (· = ·) P) (h₂ : Keeps f₂ I₂ P Q) {program : List (Call α)} {s₁ : σ₁} {s₂ : σ₂}
    (hs₁ : I₁ s₁) (hs₂ : I₂ s₂) {n : Net α β γ σ₁ σ₂} (h : Reaches f₁ f₂ (start program s₁ s₂) n) :
    n.first.Good I₁ ∧ n.second.Good I₂ ∧ ∃ served working moving, Flows P Q n served working moving := by
  induction h with
  | refl => exact ⟨hs₁, hs₂, [], [], [], rfl, .nil, .nil, .nil⟩
  | tail _ hstep ih =>
    obtain ⟨hgood₁, hgood₂, served, working, moving, hf⟩ := ih
    exact hstep.flows h₁ h₂ hgood₁ hgood₂ hf

/-- **What the client has done** is a part of its program: this much was sent, so many results were
received, and a worker has seen a sentinel only if the client put one. -/
structure Past (program past : List (Call α)) (n : Net α β γ σ₁ σ₂) : Prop where
  program : program = past ++ n.client
  sent : n.sent = past.flatMap Call.sends
  received : n.received.length = past.countP Call.isGet
  first : Proc.Closed n.inQ n.first → .put none ∈ past
  second : Proc.Closed n.midQ n.second → .putMid ∈ past

/-- One more call. -/
theorem Past.call {program past rest : List (Call α)} {n : Net α β γ σ₁ σ₂} {c : Call α}
    (h : Past program past n) (hc : n.client = c :: rest) : program = (past ++ [c]) ++ rest := by
  rw [h.program, hc, List.append_assoc]
  rfl

theorem Step.past {program past : List (Call α)} {n n' : Net α β γ σ₁ σ₂} (hstep : Step f₁ f₂ n n')
    (h : Past program past n) : ∃ past', Past program past' n' := by
  have hput : ∀ c, Proc.Closed n.inQ n.first → .put none ∈ past ++ [c] := fun c hc =>
    List.mem_append_left _ (h.first hc)
  have hmid : ∀ c, Proc.Closed n.midQ n.second → .putMid ∈ past ++ [c] := fun c hc =>
    List.mem_append_left _ (h.second hc)
  cases hstep with
  | @first q p out hstep =>
    refine ⟨past, h.program, h.sent, h.received, fun hc => h.first (hstep.closed hc), fun hc => h.second ?_⟩
    exact hc.imp_left fun hmem => (List.mem_append.1 hmem).resolve_right (by simp)
  | second hstep =>
    exact ⟨past, h.program, h.sent, h.received, h.first, fun hc => h.second (hstep.closed hc)⟩
  | @put item rest hc =>
    refine ⟨past ++ [.put item], h.call hc, ?_, ?_, fun hclosed => ?_, hmid _⟩
    · rw [List.flatMap_append, ← h.sent]
      simp [Call.sends]
    · rw [List.countP_append, ← h.received]
      rfl
    · rcases hclosed with hmem | hstopped
      · rcases List.mem_append.1 hmem with hmem | hmem
        · exact hput _ (Or.inl hmem)
        · obtain rfl := List.mem_singleton.1 hmem
          exact List.mem_append_right _ (List.mem_singleton_self _)
      · exact hput _ (Or.inr hstopped)
  | @get c q rest hc hq =>
    refine ⟨past ++ [.get], h.call hc, ?_, ?_, hput _, hmid _⟩
    · rw [List.flatMap_append, ← h.sent]
      simp [Call.sends]
    · rw [List.countP_append, ← h.received, List.length_append]
      rfl
  | @join rest hc =>
    refine ⟨past ++ [.join], h.call hc, ?_, ?_, hput _, hmid _⟩
    · rw [List.flatMap_append, ← h.sent]
      simp [Call.sends]
    · rw [List.countP_append, ← h.received]
      rfl
  | @putMid rest hc =>
    refine ⟨past ++ [.putMid], h.call hc, ?_, ?_, hput _,
      fun _ => List.mem_append_right _ (List.mem_singleton_self _)⟩
    · rw [List.flatMap_append, ← h.sent]
      simp [Call.sends]
    · rw [List.countP_append, ← h.received]
      rfl

/-- **Every run** follows the program. -/
theorem Reaches.past {program : List (Call α)} {s₁ : σ₁} {s₂ : σ₂} {n : Net α β γ σ₁ σ₂}
    (h : Reaches f₁ f₂ (start program s₁ s₂) n) : ∃ past, Past program past n := by
  induction h with
  | refl => exact ⟨[], rfl, rfl, rfl, by simp [start, Proc.Closed], by simp [start, Proc.Closed]⟩
  | tail _ hstep ih =>
    obtain ⟨past, hpast⟩ := ih
    exact hstep.past hpast

/-- **Where a run can end** with both workers alive: nothing is on its way, and a client that has not
finished has received everything. -/
theorem stuck {n : Net α β γ σ₁ σ₂} (hstuck : ∀ n', ¬ Step f₁ f₂ n n') (h₁ : ¬ n.first.Exited)
    (h₂ : ¬ n.second.Exited) :
    n.inQ = [] ∧ n.first.held = [] ∧ n.midQ = [] ∧ n.second.held = [] ∧ (n.client = [] ∨ n.outQ = []) := by
  obtain ⟨hin, hfirst⟩ := (Proc.moves f₁ n.inQ h₁).resolve_left
    fun ⟨_, _, _, hstep⟩ => hstuck _ (.first hstep)
  obtain ⟨hmid, hsecond⟩ := (Proc.moves f₂ n.midQ h₂).resolve_left
    fun ⟨_, _, _, hstep⟩ => hstuck _ (.second hstep)
  refine ⟨hin, hfirst, hmid, hsecond, ?_⟩
  rcases hclient : n.client with - | ⟨c, rest⟩
  · exact Or.inl rfl
  right
  rcases hout : n.outQ with - | ⟨c', q⟩
  · rfl
  exfalso
  cases c with
  | put item => exact hstuck _ (.put hclient)
  | get => exact hstuck _ (.get hclient hout)
  | join => exact hstuck _ (.join hclient)
  | putMid => exact hstuck _ (.putMid hclient)

/-- The first worker does not fail on items that fit. -/
theorem Reaches.first_unfailed {I₁ : σ₁ → Prop} {I₂ : σ₂ → Prop} {P : α → β → Prop} {Q : α → γ → Prop}
    {Fit : α → Prop} (h₁ : Keeps f₁ I₁ (· = ·) P) (h₂ : Keeps f₂ I₂ P Q)
    (total₁ : ∀ s a, I₁ s → Fit a → ∃ b s', f₁ s a = (.ok b, s')) {program : List (Call α)} {s₁ : σ₁}
    {s₂ : σ₂} (hs₁ : I₁ s₁) (hs₂ : I₂ s₂) (hfit : ∀ a ∈ program.flatMap Call.sends, Fit a)
    {n : Net α β γ σ₁ σ₂} (h : Reaches f₁ f₂ (start program s₁ s₂) n) (a : α) (s : σ₁) :
    n.first ≠ .failed a s := by
  induction h with
  | refl => exact fun heq => nomatch heq
  | @tail n n' hreach hstep ih =>
    obtain ⟨hgood, -, served, working, moving, hf⟩ := Reaches.flows h₁ h₂ hs₁ hs₂ hreach
    obtain ⟨past, hpast⟩ := Reaches.past hreach
    cases hstep with
    | first hstep =>
      generalize hp : n.first = p at hstep hgood
      generalize n.inQ = q₀ at hstep
      cases hstep with
      | take b q s' => exact fun heq => nomatch heq
      | stop q s' => exact fun heq => nomatch heq
      | done q hrun => exact fun heq => nomatch heq
      | @fail b e s₀ s' q hrun =>
        have hmem : b ∈ program.flatMap Call.sends := by
          have hheld : b ∈ n.first.held := by
            rw [hp]
            exact List.mem_singleton_self b
          have hsent : b ∈ n.sent := by
            rw [hf.sent]
            exact List.mem_append_right _ (List.mem_append_left _ hheld)
          rw [hpast.program, List.flatMap_append, ← hpast.sent]
          exact List.mem_append_left _ hsent
        obtain ⟨c, s'', hok⟩ := total₁ s₀ b hgood (hfit b hmem)
        rw [hrun] at hok
        cases hok
    | second hstep => exact ih
    | put hc => exact ih
    | get hc hq => exact ih
    | join hc => exact ih
    | putMid hc => exact ih

/-- Where every item has come back, nothing is on its way. -/
theorem Flows.settled {P : α → β → Prop} {Q : α → γ → Prop} {n : Net α β γ σ₁ σ₂}
    {served working moving : List α} (h : Flows P Q n served working moving)
    (hall : n.sent.length ≤ n.received.length) :
    n.midQ.reduceOption = [] ∧ n.first.held = [] ∧ n.inQ.reduceOption = [] := by
  have hsent := congrArg List.length h.sent
  have hserved := h.served.length_eq
  have hmoving := h.moving.length_eq
  simp only [List.length_append] at hsent hserved
  refine ⟨List.length_eq_zero_iff.1 ?_, List.length_eq_zero_iff.1 ?_, List.length_eq_zero_iff.1 ?_⟩
  all_goals omega

/-! ### Making runs -/

/-- The client may put everything before a worker moves. -/
theorem Reaches.puts (items : List α) {n : Net α β γ σ₁ σ₂} {rest : List (Call α)}
    (h : n.client = items.map (fun a => .put (some a)) ++ rest) :
    Reaches f₁ f₂ n { n with client := rest, inQ := n.inQ ++ items.map some, sent := n.sent ++ items } := by
  induction items generalizing n with
  | nil =>
    have hn : n = { n with client := rest, inQ := n.inQ ++ [], sent := n.sent ++ [] } := by
      rw [List.append_nil, List.append_nil, ← show n.client = rest from h]
    rw [List.map_nil, ← hn]
    exact .refl
  | cons a items ih =>
    have hput : n.client = .put (some a) :: (items.map (fun a => .put (some a)) ++ rest) := h
    have hrest := ih (n := { n with
      client := items.map (fun a => .put (some a)) ++ rest
      inQ := n.inQ ++ [some a]
      sent := n.sent ++ [a] }) rfl
    rw [List.append_assoc, List.append_assoc] at hrest
    exact .head (.put hput) hrest

/-- The first worker may pass one item on while nothing else moves. -/
theorem Reaches.passOn {n : Net α β γ σ₁ σ₂} {a : α} {b : β} {q : List (Option α)} {s₁ s₁' : σ₁}
    (hin : n.inQ = some a :: q) (hfirst : n.first = .idle s₁) (h₁ : f₁ s₁ a = (.ok b, s₁')) :
    Reaches f₁ f₂ n { n with inQ := q, first := .idle s₁', midQ := n.midQ ++ [some b] } := by
  obtain ⟨client, inQ, first, midQ, second, outQ, sent, received⟩ := n
  dsimp only at hin hfirst ⊢
  subst hin hfirst
  have htake : Step f₁ f₂ ⟨client, some a :: q, .idle s₁, midQ, second, outQ, sent, received⟩ _ :=
    .first (.take a q s₁)
  have hdone : Step f₁ f₂ ⟨client, q, .busy a s₁, midQ, second, outQ, sent, received⟩ _ := .first (.done q h₁)
  rw [List.map_nil, List.append_nil] at htake
  exact .head htake (.single hdone)

/-- One item goes through both workers while nothing else moves. -/
theorem Reaches.serve {n : Net α β γ σ₁ σ₂} {a : α} {b : β} {c : γ} {q : List (Option α)} {s₁ s₁' : σ₁}
    {s₂ s₂' : σ₂} (hin : n.inQ = some a :: q) (hfirst : n.first = .idle s₁) (hmid : n.midQ = [])
    (hsecond : n.second = .idle s₂) (h₁ : f₁ s₁ a = (.ok b, s₁')) (h₂ : f₂ s₂ b = (.ok c, s₂')) :
    Reaches f₁ f₂ n { n with inQ := q, first := .idle s₁', second := .idle s₂', outQ := n.outQ ++ [c] } := by
  refine (Reaches.passOn hin hfirst h₁).trans ?_
  obtain ⟨client, inQ, first, midQ, second, outQ, sent, received⟩ := n
  dsimp only at hmid hsecond ⊢
  subst hmid hsecond
  have htake : Step f₁ f₂ ⟨client, q, .idle s₁', [some b], .idle s₂, outQ, sent, received⟩ _ :=
    .second (.take b [] s₂)
  have hdone : Step f₁ f₂ ⟨client, q, .idle s₁', [], .busy b s₂, outQ, sent, received⟩ _ :=
    .second (.done [] h₂)
  rw [List.append_nil] at htake
  exact .head htake (.single hdone)

/-- Stages that do not fail on good items serve them one after the other. -/
theorem Reaches.serves {I₁ : σ₁ → Prop} {I₂ : σ₂ → Prop} {P : α → β → Prop} {Q : α → γ → Prop}
    {Fit : α → Prop} (h₁ : Keeps f₁ I₁ (· = ·) P) (h₂ : Keeps f₂ I₂ P Q)
    (total₁ : ∀ s a, I₁ s → Fit a → ∃ b s', f₁ s a = (.ok b, s'))
    (total₂ : ∀ s a b, I₂ s → Fit a → P a b → ∃ c s', f₂ s b = (.ok c, s')) (items : List α)
    (hfit : ∀ a ∈ items, Fit a) {n : Net α β γ σ₁ σ₂} {q : List (Option α)} {s₁ : σ₁} {s₂ : σ₂}
    (hin : n.inQ = items.map some ++ q) (hfirst : n.first = .idle s₁) (hmid : n.midQ = [])
    (hsecond : n.second = .idle s₂) (hs₁ : I₁ s₁) (hs₂ : I₂ s₂) :
    ∃ s₁' s₂' out, List.Forall₂ Q items out ∧ I₁ s₁' ∧ I₂ s₂' ∧
      Reaches f₁ f₂ n
        { n with inQ := q, first := .idle s₁', second := .idle s₂', outQ := n.outQ ++ out } := by
  induction items generalizing n s₁ s₂ with
  | nil =>
    refine ⟨s₁, s₂, [], .nil, hs₁, hs₂, ?_⟩
    obtain ⟨client, inQ, first, midQ, second, outQ, sent, received⟩ := n
    dsimp only at hin hfirst hmid hsecond ⊢
    subst hin hfirst hmid hsecond
    rw [List.append_nil]
    exact .refl
  | cons a items ih =>
    obtain ⟨b, s₁', hrun₁⟩ := total₁ s₁ a hs₁ (hfit a List.mem_cons_self)
    obtain ⟨hs₁', hab⟩ := h₁ hs₁ rfl hrun₁
    obtain ⟨c, s₂', hrun₂⟩ := total₂ s₂ a b hs₂ (hfit a List.mem_cons_self) hab
    obtain ⟨hs₂', hac⟩ := h₂ hs₂ hab hrun₂
    have hserve := Reaches.serve (q := items.map some ++ q) hin hfirst hmid hsecond hrun₁ hrun₂
    obtain ⟨s₁'', s₂'', out, hout, hs₁'', hs₂'', hrest⟩ := ih
      (n := { n with
        inQ := items.map some ++ q
        first := .idle s₁'
        second := .idle s₂'
        outQ := n.outQ ++ [c] })
      (fun a ha => hfit a (List.mem_cons_of_mem _ ha)) rfl rfl hmid rfl hs₁' hs₂'
    refine ⟨s₁'', s₂'', c :: out, .cons hac hout, hs₁'', hs₂'', hserve.trans ?_⟩
    rw [List.append_assoc] at hrest
    exact hrest

/-- The client collects what is ready. -/
theorem Reaches.gets (out : List γ) {n : Net α β γ σ₁ σ₂} {rest : List (Call α)} {q : List γ}
    (h : n.client = List.replicate out.length .get ++ rest) (hq : n.outQ = out ++ q) :
    Reaches f₁ f₂ n { n with client := rest, outQ := q, received := n.received ++ out } := by
  induction out generalizing n with
  | nil =>
    obtain ⟨client, inQ, first, midQ, second, outQ, sent, received⟩ := n
    dsimp only at h hq ⊢
    subst h hq
    rw [List.append_nil]
    exact .refl
  | cons c out ih =>
    have hrest := ih (n := { n with
      client := List.replicate out.length .get ++ rest
      outQ := out ++ q
      received := n.received ++ [c] }) rfl rfl
    rw [List.append_assoc] at hrest
    exact .head (.get h hq) hrest

/-- The second worker may stop on a sentinel of the client before it sees what waits before the first. -/
theorem Reaches.stop {n : Net α β γ σ₁ σ₂} {rest : List (Call α)} {s₂ : σ₂}
    (h : n.client = .put none :: .join :: .putMid :: rest) (hmid : n.midQ = [])
    (hsecond : n.second = .idle s₂) :
    Reaches f₁ f₂ n { n with client := rest, inQ := n.inQ ++ [none], second := .stopped s₂ } := by
  obtain ⟨client, inQ, first, midQ, second, outQ, sent, received⟩ := n
  dsimp only at h hmid hsecond ⊢
  subst h hmid hsecond
  have hput : Step f₁ f₂
      ⟨.put none :: .join :: .putMid :: rest, inQ, first, [], .idle s₂, outQ, sent, received⟩ _ := .put rfl
  have hjoin : Step f₁ f₂ ⟨.join :: .putMid :: rest, inQ ++ [none], first, [], .idle s₂, outQ, sent, received⟩
      _ := .join rfl
  have hmid : Step f₁ f₂ ⟨.putMid :: rest, inQ ++ [none], first, [], .idle s₂, outQ, sent, received⟩ _ :=
    .putMid rfl
  have hstop : Step f₁ f₂ ⟨rest, inQ ++ [none], first, [none], .idle s₂, outQ, sent, received⟩ _ :=
    .second (.stop [] s₂)
  rw [List.append_nil] at hstop
  rw [Option.toList_none, List.append_nil] at hput
  exact .head hput (.head hjoin (.head hmid (.single hstop)))

/-- The first worker may pass everything on while the second does not move. -/
theorem Reaches.passes {I₁ : σ₁ → Prop} {P : α → β → Prop} {Fit : α → Prop} (h₁ : Keeps f₁ I₁ (· = ·) P)
    (total₁ : ∀ s a, I₁ s → Fit a → ∃ b s', f₁ s a = (.ok b, s')) (items : List α) (hfit : ∀ a ∈ items, Fit a)
    {n : Net α β γ σ₁ σ₂} {q : List (Option α)} {s₁ : σ₁} (hin : n.inQ = items.map some ++ q)
    (hfirst : n.first = .idle s₁) (hs₁ : I₁ s₁) :
    ∃ s₁' out, List.Forall₂ P items out ∧
      Reaches f₁ f₂ n { n with inQ := q, first := .idle s₁', midQ := n.midQ ++ out.map some } := by
  induction items generalizing n s₁ with
  | nil =>
    refine ⟨s₁, [], .nil, ?_⟩
    obtain ⟨client, inQ, first, midQ, second, outQ, sent, received⟩ := n
    dsimp only at hin hfirst ⊢
    subst hin hfirst
    rw [List.map_nil, List.append_nil]
    exact .refl
  | cons a items ih =>
    obtain ⟨b, s₁', hrun⟩ := total₁ s₁ a hs₁ (hfit a List.mem_cons_self)
    obtain ⟨hs₁', hab⟩ := h₁ hs₁ rfl hrun
    have hpass : Reaches f₁ f₂ n { n with
        inQ := items.map some ++ q
        first := .idle s₁'
        midQ := n.midQ ++ [some b] } := Reaches.passOn hin hfirst hrun
    obtain ⟨s₁'', out, hout, hrest⟩ := ih
      (n := { n with inQ := items.map some ++ q, first := .idle s₁', midQ := n.midQ ++ [some b] })
      (fun a ha => hfit a (List.mem_cons_of_mem _ ha)) rfl rfl hs₁'
    refine ⟨s₁'', b :: out, .cons hab hout, hpass.trans ?_⟩
    rw [List.append_assoc] at hrest
    exact hrest

end Pipeline
