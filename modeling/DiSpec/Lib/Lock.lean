/-
# Critical sections under one lock

Threads work on shared memory in sections, each under the same lock.  The code of a section is a
sequence of uninterrupted operations, what comes next depending on what was read (`Code`).
Between any two operations of one thread the others may move: call a section, wait for the lock, take
it when it is free.

Every such run is a run of whole sections, in the order in which they took the lock
(`Between.reaches`): where the lock is free, memory and results are those of the sections so far, and where it is
held the rest of the code will end as the whole would have (`finishes`).  So nobody sees another's section half
done.
-/

import Mathlib.Logic.Function.Basic
import Mathlib.Logic.Relation

namespace Lock

variable {ι S α β γ : Type}

/-! ### Code -/

/-- The code of a section: its result, or an operation on the memory and what comes after it. -/
inductive Code (S α : Type)
  | done (a : α)
  | op (upd : S → S) (next : S → Code S α)

namespace Code

/-- A code, then one that depends on its result. -/
def bind : Code S α → (α → Code S β) → Code S β
  | done a, k => k a
  | op upd next, k => op upd fun s => (next s).bind k

instance : Monad (Code S) where
  pure := done
  bind := bind

/-- One operation, with what it returns. -/
def once (f : S → α × S) : Code S α := op (fun s => (f s).2) fun s => done (f s).1

/-- The code without interruption. -/
def run : Code S α → S → S × α
  | done a, s => (s, a)
  | op upd next, s => (next s).run (upd s)

@[simp] theorem run_pure (a : α) (s : S) : (pure a : Code S α).run s = (s, a) := rfl

@[simp] theorem run_once (f : S → α × S) (s : S) : (once f).run s = ((f s).2, (f s).1) := rfl

@[simp] theorem run_bind (c : Code S α) (k : α → Code S β) (s : S) :
    (c >>= k).run s = (k (c.run s).2).run (c.run s).1 := by
  induction c generalizing s with
  | done a => rfl
  | op upd next ih => exact ih s (upd s)

end Code

/-! ### Threads -/

/-- Where a thread is: outside, before the lock with a call, or inside with the rest of its code. -/
inductive Phase (S α β : Type)
  | outside
  | waiting (b : β)
  | inside (b : β) (c : Code S α)

/-- The memory, the thread that holds the lock, where the threads are, and what the calls of each have
returned so far. -/
structure Threads (ι S α β : Type) where
  shared : S
  owner : Option ι
  phase : ι → Phase S α β
  log : ι → List (β × α)

/-- Nobody has called anything. -/
def Threads.start (s : S) : Threads ι S α β := ⟨s, none, fun _ => .outside, fun _ => []⟩

section

variable [DecidableEq ι] (code : β → Code S α) (may : ι → List (β × α) → β → Prop)

/-- A move of one thread.  `code b` is the section of call `b`, and `may i log b` says that thread `i` can make
that call after those it has made. -/
inductive Step : Threads ι S α β → Threads ι S α β → Prop
  | call {m : Threads ι S α β} {i : ι} {b : β} (hout : m.phase i = .outside) (hmay : may i (m.log i) b) :
    Step m { m with phase := Function.update m.phase i (.waiting b) }
  | acquire {m : Threads ι S α β} {i : ι} {b : β} (hfree : m.owner = none) (hwait : m.phase i = .waiting b) :
    Step m { m with owner := some i, phase := Function.update m.phase i (.inside b (code b)) }
  | op {m : Threads ι S α β} {i : ι} {b : β} {upd : S → S} {next : S → Code S α}
      (hin : m.phase i = .inside b (.op upd next)) :
    Step m { m with
      shared := upd m.shared
      phase := Function.update m.phase i (.inside b (next m.shared)) }
  | release {m : Threads ι S α β} {i : ι} {b : β} {a : α} (hin : m.phase i = .inside b (.done a)) :
    Step m { m with
      owner := none
      phase := Function.update m.phase i .outside
      log := Function.update m.log i (m.log i ++ [(b, a)]) }

/-- The threads can come from one state to another. -/
def Reaches : Threads ι S α β → Threads ι S α β → Prop := Relation.ReflTransGen (Step code may)

/-- One thread runs a whole section. -/
inductive Section : S × (ι → List (β × α)) → S × (ι → List (β × α)) → Prop
  | run {s : S} {log : ι → List (β × α)} {i : ι} {b : β} (hmay : may i (log i) b) :
    Section (s, log) (((code b).run s).1, Function.update log i (log i ++ [(b, ((code b).run s).2)]))

/-- Sections run one after another. -/
def Serial : S × (ι → List (β × α)) → S × (ι → List (β × α)) → Prop := Relation.ReflTransGen (Section code may)

/-! ### The order of the lock -/

/-- **A state of the threads between two sections**: `s` is the memory when the lock was last free.  Who is
inside holds the lock, and will leave the memory and return what its whole section does from `s`. -/
structure Between (m : Threads ι S α β) (s : S) : Prop where
  waits : ∀ i b, m.phase i = .waiting b → may i (m.log i) b
  inside : ∀ i b c, m.phase i = .inside b c →
    m.owner = some i ∧ may i (m.log i) b ∧ c.run m.shared = (code b).run s
  held : ∀ i, m.owner = some i → ∃ b c, m.phase i = .inside b c
  free : m.owner = none → m.shared = s

variable {code may}

omit [DecidableEq ι] in
theorem between_start (s : S) : Between code may (Threads.start s : Threads ι S α β) s := by
  refine ⟨fun i b h => ?_, fun i b c h => ?_, fun i h => ?_, fun _ => rfl⟩
  · cases h
  · cases h
  · cases h

/-- A phase after one of them has changed. -/
theorem update_cases {f : ι → Phase S α β} {i j : ι} {x y : Phase S α β}
    (h : Function.update f i x j = y) : j = i ∧ x = y ∨ j ≠ i ∧ f j = y := by
  rcases eq_or_ne j i with rfl | hne
  · rw [Function.update_self] at h
    exact Or.inl ⟨rfl, h⟩
  · rw [Function.update_of_ne hne] at h
    exact Or.inr ⟨hne, h⟩

variable {m m' : Threads ι S α β} {s : S}

omit [DecidableEq ι] in
/-- Who is inside holds the lock alone. -/
theorem Between.alone (h : Between code may m s) {i j : ι} {b : β} {c : Code S α} (hi : m.owner = some i)
    (hj : m.phase j = .inside b c) : j = i :=
  Option.some.inj ((h.inside j b c hj).1.symm.trans hi)

/-- **One move** goes on with the section in progress or ends it. -/
theorem Between.step (h : Between code may m s) (hstep : Step code may m m') :
    ∃ s', Serial code may (s, m.log) (s', m'.log) ∧ Between code may m' s' := by
  cases hstep with
  | @call i b hout hmay =>
    refine ⟨s, .refl, fun j b' hj => ?_, fun j b' c hj => ?_, fun j hj => ?_, h.free⟩
    · rcases update_cases hj with ⟨rfl, heq⟩ | ⟨-, hj⟩
      · cases heq
        exact hmay
      · exact h.waits j b' hj
    · rcases update_cases hj with ⟨-, heq⟩ | ⟨-, hj⟩
      · cases heq
      · exact h.inside j b' c hj
    · obtain ⟨b', c, hin⟩ := h.held j hj
      have hne : j ≠ i := fun heq => by
        rw [heq, hout] at hin
        cases hin
      exact ⟨b', c, (Function.update_of_ne hne _ _).trans hin⟩
  | @acquire i b hfree hwait =>
    refine ⟨s, .refl, fun j b' hj => ?_, fun j b' c hj => ?_, fun j hj => ?_, fun hnone => ?_⟩
    · rcases update_cases hj with ⟨-, heq⟩ | ⟨-, hj⟩
      · cases heq
      · exact h.waits j b' hj
    · rcases update_cases hj with ⟨rfl, heq⟩ | ⟨-, hj⟩
      · cases heq
        exact ⟨rfl, h.waits j b hwait, by rw [h.free hfree]⟩
      · have howner := (h.inside j b' c hj).1
        rw [hfree] at howner
        cases howner
    · obtain rfl := Option.some.inj hj
      exact ⟨b, code b, Function.update_self _ _ _⟩
    · cases hnone
  | @op i b upd next hin =>
    obtain ⟨howner, hmay, hrun⟩ := h.inside i b _ hin
    refine ⟨s, .refl, fun j b' hj => ?_, fun j b' c hj => ?_, fun j hj => ?_, fun hnone => ?_⟩
    · rcases update_cases hj with ⟨-, heq⟩ | ⟨-, hj⟩
      · cases heq
      · exact h.waits j b' hj
    · rcases update_cases hj with ⟨rfl, heq⟩ | ⟨hne, hj⟩
      · cases heq
        exact ⟨howner, hmay, hrun⟩
      · exact absurd (h.alone howner hj) hne
    · obtain rfl := Option.some.inj (howner.symm.trans hj)
      exact ⟨b, _, Function.update_self _ _ _⟩
    · exact absurd (howner.symm.trans hnone) (Option.some_ne_none i)
  | @release i b a hin =>
    -- the section ends here
    obtain ⟨howner, hmay, hrun⟩ := h.inside i b _ hin
    have hsection : Section code may (s, m.log) _ := .run hmay
    rw [← hrun] at hsection
    refine ⟨m.shared, .single hsection, fun j b' hj => ?_, fun j b' c hj => ?_, fun j hj => ?_, fun _ => rfl⟩
    · rcases update_cases hj with ⟨-, heq⟩ | ⟨hne, hj⟩
      · cases heq
      · show may j (Function.update m.log i _ j) b'
        rw [Function.update_of_ne hne]
        exact h.waits j b' hj
    · rcases update_cases hj with ⟨-, heq⟩ | ⟨hne, hj⟩
      · cases heq
      · exact absurd (h.alone howner hj) hne
    · cases hj

/-- **Every interleaving is a run of whole sections.** -/
theorem Between.reaches (h : Between code may m s) (hm : Reaches code may m m') :
    ∃ s', Serial code may (s, m.log) (s', m'.log) ∧ Between code may m' s' := by
  induction hm with
  | refl => exact ⟨s, .refl, h⟩
  | tail _ hstep ih =>
    obtain ⟨s₁, hserial, hbetween⟩ := ih
    obtain ⟨s₂, hserial', hbetween'⟩ := hbetween.step hstep
    exact ⟨s₂, hserial.trans hserial', hbetween'⟩

/-- **A section ends** by moves of its thread alone, so the lock is never lost. -/
theorem finishes {i : ι} {b : β} {c : Code S α} (hin : m.phase i = .inside b c) :
    Reaches code may m
      { shared := (c.run m.shared).1
        owner := none
        phase := Function.update m.phase i .outside
        log := Function.update m.log i (m.log i ++ [(b, (c.run m.shared).2)]) } := by
  induction c generalizing m with
  | done a => exact .single (.release hin)
  | op upd next ih =>
    have hrest := ih m.shared (m := { m with
      shared := upd m.shared
      phase := Function.update m.phase i (.inside b (next m.shared)) }) (Function.update_self _ _ _)
    rw [Function.update_idem] at hrest
    exact hrest.head (.op hin)

end

end Lock
