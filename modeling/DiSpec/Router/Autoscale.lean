/-
# The draft-pool autoscaler

`dispec/router/autoscale.py`: `AutoscaleConfig`, `DraftPoolAutoscaler.observe`.

Two thresholds on the utilisation decide whether a replica is added or released.  Whether the count can turn
back depends on how the utilisation jumps when it changes by one: with thresholds a factor of two apart a load
that asks for more than `r ≥ 1` replicas never asks for fewer than `r + 1` (`not_below_of_above`).  From this
the counts under a constant load settle, and those of two controllers under ordered loads stay in order
(`replicas_monotone`).

At zero replicas there is no capacity, the utilisation is infinite, and the factor says nothing.  There the
controller adds a replica under any load, and if one replica is too many it takes it back: it flaps
(`settles_iff`).
-/

import DiSpec.Lib.Settle
import Mathlib.Algebra.Order.Field.Basic
import Mathlib.Algebra.Order.Ring.WithTop
import Mathlib.Tactic.Linarith
import Mathlib.Tactic.Ring

namespace DiSpec

open Settle

/-- `AutoscaleConfig`. -/
structure AutoscaleConfig (R : Type) where
  minReplicas : ℤ
  maxReplicas : ℤ
  seqsPerReplica : R
  scaleUpUtil : R
  scaleDownUtil : R

/-- `DraftPoolAutoscaler`. -/
structure DraftPoolAutoscaler (R : Type) where
  cfg : AutoscaleConfig R
  replicas : ℤ

section

variable {R : Type} [Field R]

/-- The defaults of `AutoscaleConfig`. -/
def AutoscaleConfig.default : AutoscaleConfig R := ⟨1, 8, 4, 8 / 10, 4 / 10⟩

namespace DraftPoolAutoscaler

/-- `DraftPoolAutoscaler.__init__`. -/
def init (cfg : Option (AutoscaleConfig R)) : DraftPoolAutoscaler R :=
  let cfg := cfg.getD .default
  ⟨cfg, cfg.minReplicas⟩

/-- `self.replicas * c.seqs_per_replica`. -/
def capacity (a : DraftPoolAutoscaler R) : R := a.replicas * a.cfg.seqsPerReplica

variable [LinearOrder R]

/-- The utilisation, infinite without capacity. -/
def util (a : DraftPoolAutoscaler R) (activeSeqs : R) : WithTop R :=
  if 0 < a.capacity then ((activeSeqs / a.capacity : R) : WithTop R) else ⊤

/-- `observe`: the desired replica count, and the controller that has it.  The load may be any number. -/
def observe (a : DraftPoolAutoscaler R) (activeSeqs : R) : ℤ × DraftPoolAutoscaler R :=
  let c := a.cfg
  let util := a.util activeSeqs
  let a :=
    if (c.scaleUpUtil : WithTop R) < util ∧ a.replicas < c.maxReplicas then
      { a with replicas := a.replicas + 1 }
    else if util < (c.scaleDownUtil : WithTop R) ∧ c.minReplicas < a.replicas then
      { a with replicas := a.replicas - 1 }
    else a
  (a.replicas, a)

/-- The counts that a history of loads leads to, and the controller after it. -/
def observes : DraftPoolAutoscaler R → List R → List ℤ × DraftPoolAutoscaler R
  | a, [] => ([], a)
  | a, x :: xs =>
    match a.observe x with
    | (r, a) => match a.observes xs with
      | (rs, a) => (r :: rs, a)

/-- The count after `n` calls under a constant load. -/
def countAfter (a : DraftPoolAutoscaler R) (load : R) (n : ℕ) : ℤ :=
  (a.observes (List.replicate n load)).2.replicas

end DraftPoolAutoscaler

/-- What the analysis assumes of a configuration: a range of counts, and thresholds a factor of two apart. -/
structure AutoscaleConfig.Apart [LinearOrder R] (c : AutoscaleConfig R) : Prop where
  min_nonneg : 0 ≤ c.minReplicas
  min_le_max : c.minReplicas ≤ c.maxReplicas
  seqs_pos : 0 < c.seqsPerReplica
  down_pos : 0 < 2 * c.scaleDownUtil
  down_le_up : 2 * c.scaleDownUtil ≤ c.scaleUpUtil

end

/-! ### One step -/

namespace AutoscaleConfig

variable {R : Type} [Field R] [LinearOrder R]

/-- The count that follows `r` under a load. -/
def next (c : AutoscaleConfig R) (load : R) (r : ℤ) : ℤ := (DraftPoolAutoscaler.observe ⟨c, r⟩ load).1

theorem observe_eq (c : AutoscaleConfig R) (load : R) (r : ℤ) :
    DraftPoolAutoscaler.observe ⟨c, r⟩ load = (c.next load r, ⟨c, c.next load r⟩) := by
  unfold next DraftPoolAutoscaler.observe
  dsimp only
  split
  · rfl
  · split
    · rfl
    · rfl

variable [IsStrictOrderedRing R] {c : AutoscaleConfig R} {x y : R} {r r' : ℤ}

/-- **A step from a positive count**, the utilisation multiplied out. -/
theorem next_of_pos (hs : 0 < c.seqsPerReplica) (hr : 0 < r) (x : R) : c.next x r =
    if c.scaleUpUtil * (r * c.seqsPerReplica) < x ∧ r < c.maxReplicas then r + 1
    else if x < c.scaleDownUtil * (r * c.seqsPerReplica) ∧ c.minReplicas < r then r - 1 else r := by
  have hcap : (0 : R) < r * c.seqsPerReplica := mul_pos (Int.cast_pos.2 hr) hs
  unfold next DraftPoolAutoscaler.observe DraftPoolAutoscaler.util DraftPoolAutoscaler.capacity
  simp only [if_pos hcap, WithTop.coe_lt_coe, lt_div_iff₀ hcap, div_lt_iff₀ hcap]
  split
  · rfl
  · split
    · rfl
    · rfl

omit [IsStrictOrderedRing R] in
/-- **A step from no replicas** does not depend on the load. -/
theorem next_zero (c : AutoscaleConfig R) (x : R) : c.next x 0 = if 0 < c.maxReplicas then 1 else 0 := by
  unfold next DraftPoolAutoscaler.observe DraftPoolAutoscaler.util DraftPoolAutoscaler.capacity
  rw [Int.cast_zero, zero_mul, if_neg (lt_irrefl (0 : R))]
  by_cases hmax : 0 < c.maxReplicas
  · simp only [WithTop.coe_lt_top, hmax, and_self, if_true]
    rfl
  · simp only [hmax, and_false, if_false, not_top_lt, false_and]

/-- **What a step from a positive count can do**, with the test it has passed. -/
theorem next_cases (hs : 0 < c.seqsPerReplica) (hr : 0 < r) (x : R) :
    (c.next x r = r + 1 ∧ c.scaleUpUtil * (r * c.seqsPerReplica) < x ∧ r < c.maxReplicas) ∨
      (c.next x r = r - 1 ∧ x < c.scaleDownUtil * (r * c.seqsPerReplica) ∧ c.minReplicas < r) ∨
      c.next x r = r := by
  rw [next_of_pos hs hr]
  split
  · next h => exact Or.inl ⟨rfl, h⟩
  · split
    · next h => exact Or.inr (Or.inl ⟨rfl, h⟩)
    · exact Or.inr (Or.inr rfl)

/-- **The two tests do not overlap across a step**: a load above the band of `r` replicas is not below that of
`r + 1`, since one more replica at most doubles the capacity. -/
theorem not_below_of_above (h : c.Apart) (hr : 1 ≤ r) (hxy : x ≤ y)
    (hx : c.scaleUpUtil * (r * c.seqsPerReplica) < x) :
    ¬y < c.scaleDownUtil * ((r + 1 : ℤ) * c.seqsPerReplica) := by
  intro hy
  have hs := h.seqs_pos
  have hdown : 0 ≤ c.scaleDownUtil := by linarith [h.down_pos]
  have hrR : (1 : R) ≤ r := by exact_mod_cast hr
  have hdouble : ((r + 1 : ℤ) : R) * c.seqsPerReplica ≤ 2 * (r * c.seqsPerReplica) := by
    push_cast
    nlinarith [mul_le_mul_of_nonneg_right hrR hs.le]
  have hle : c.scaleDownUtil * ((r + 1 : ℤ) * c.seqsPerReplica) ≤ c.scaleUpUtil * (r * c.seqsPerReplica) :=
    calc c.scaleDownUtil * ((r + 1 : ℤ) * c.seqsPerReplica)
        ≤ c.scaleDownUtil * (2 * (r * c.seqsPerReplica)) := mul_le_mul_of_nonneg_left hdouble hdown
      _ = 2 * c.scaleDownUtil * (r * c.seqsPerReplica) := by ring
      _ ≤ c.scaleUpUtil * (r * c.seqsPerReplica) :=
          mul_le_mul_of_nonneg_right h.down_le_up (mul_nonneg (by linarith) hs.le)
  exact absurd (hx.trans_le hxy) (not_lt.2 (hy.le.trans hle))

omit [IsStrictOrderedRing R] in
/-- A load at or above the band of one replica is not below it. -/
theorem not_below_one (hx : c.scaleDownUtil * c.seqsPerReplica ≤ x) :
    ¬x < c.scaleDownUtil * ((1 : ℤ) * c.seqsPerReplica) := by
  rw [Int.cast_one, one_mul]
  exact not_lt.2 hx

/-- **A step keeps the count in range.** -/
theorem next_mem (h : c.Apart) (hlo : c.minReplicas ≤ r) (hhi : r ≤ c.maxReplicas) (x : R) :
    c.minReplicas ≤ c.next x r ∧ c.next x r ≤ c.maxReplicas := by
  have hmin := h.min_nonneg
  rcases hmin.trans hlo |>.eq_or_lt with hzero | hpos
  · subst hzero
    rw [next_zero]
    split
    · constructor <;> omega
    · exact ⟨hlo, hhi⟩
  · rcases next_cases h.seqs_pos hpos x with ⟨heq, -, hlt⟩ | ⟨heq, -, hlt⟩ | heq
    · rw [heq]
      constructor <;> omega
    · rw [heq]
      constructor <;> omega
    · rw [heq]
      exact ⟨hlo, hhi⟩

/-- **Steps keep the order**: of two counts under ordered loads the smaller does not get ahead. -/
theorem next_mono (h : c.Apart) (hr : 1 ≤ r) (hle : r ≤ r') (hhi : r' ≤ c.maxReplicas) (hxy : x ≤ y) :
    c.next x r ≤ c.next y r' := by
  have hx := next_cases h.seqs_pos (show 0 < r by omega) x
  have hy := next_cases h.seqs_pos (show 0 < r' by omega) y
  rcases hle.eq_or_lt with rfl | hlt
  · -- the same count: the same tests, which a larger load passes, or fails, the more
    rw [next_of_pos h.seqs_pos (by omega), next_of_pos h.seqs_pos (by omega)]
    split
    · next hup => rw [if_pos ⟨hup.1.trans_le hxy, hup.2⟩]
    · split
      · split
        · omega
        · split <;> omega
      · next hdown =>
        split
        · omega
        · rw [if_neg (fun hbelow => hdown ⟨hxy.trans_lt hbelow.1, hbelow.2⟩)]
  · -- counts apart can only cross when they are neighbours that step towards each other
    rcases hx with ⟨hx, habove, -⟩ | ⟨hx, -⟩ | hx
    · rcases hy with ⟨hy, -⟩ | ⟨hy, hbelow, -⟩ | hy
      · omega
      · have hne : r' ≠ r + 1 := by
          rintro rfl
          exact not_below_of_above h hr hxy habove hbelow
        omega
      · omega
    · rcases hy with ⟨hy, -⟩ | ⟨hy, -⟩ | hy <;> omega
    · rcases hy with ⟨hy, -⟩ | ⟨hy, -⟩ | hy <;> omega

end AutoscaleConfig

/-! ### Runs -/

namespace DraftPoolAutoscaler

variable {R : Type} [Field R] [LinearOrder R]

theorem observe_cfg (a : DraftPoolAutoscaler R) (x : R) : (a.observe x).2.cfg = a.cfg := by
  obtain ⟨c, r⟩ := a
  rw [AutoscaleConfig.observe_eq]

theorem observes_cfg (a : DraftPoolAutoscaler R) (xs : List R) : (a.observes xs).2.cfg = a.cfg := by
  induction xs generalizing a with
  | nil => rfl
  | cons x xs ih => exact (ih (a.observe x).2).trans (a.observe_cfg x)

theorem observes_concat (a : DraftPoolAutoscaler R) (xs : List R) (x : R) :
    (a.observes (xs ++ [x])).2 = ((a.observes xs).2.observe x).2 := by
  induction xs generalizing a with
  | nil => rfl
  | cons y xs ih => exact ih (a.observe y).2

/-- Under a constant load the count goes from each value to the next. -/
theorem countAfter_succ (a : DraftPoolAutoscaler R) (load : R) (n : ℕ) :
    a.countAfter load (n + 1) = a.cfg.next load (a.countAfter load n) := by
  unfold countAfter
  rw [List.replicate_succ', observes_concat]
  have hcfg := a.observes_cfg (List.replicate n load)
  generalize (a.observes (List.replicate n load)).2 = b at hcfg
  obtain ⟨c, r⟩ := b
  rw [AutoscaleConfig.observe_eq]
  rw [← hcfg]

variable [IsStrictOrderedRing R]

/-- **Every history keeps the count in range.** -/
theorem observes_mem {a : DraftPoolAutoscaler R} (h : a.cfg.Apart) (hlo : a.cfg.minReplicas ≤ a.replicas)
    (hhi : a.replicas ≤ a.cfg.maxReplicas) (xs : List R) :
    a.cfg.minReplicas ≤ (a.observes xs).2.replicas ∧ (a.observes xs).2.replicas ≤ a.cfg.maxReplicas := by
  induction xs generalizing a with
  | nil => exact ⟨hlo, hhi⟩
  | cons x xs ih =>
    obtain ⟨c, r⟩ := a
    have hmem := AutoscaleConfig.next_mem h hlo hhi x
    have hrest := @ih ⟨c, c.next x r⟩ h hmem.1 hmem.2
    rwa [show (observes ⟨c, r⟩ (x :: xs)).2 = ((observe ⟨c, r⟩ x).2.observes xs).2 from rfl,
      AutoscaleConfig.observe_eq]

end DraftPoolAutoscaler

/-! ### A constant load -/

namespace AutoscaleConfig

variable {R : Type} [Field R] [LinearOrder R] [IsStrictOrderedRing R] {c : AutoscaleConfig R} {x : R} {r : ℤ}

/-- What keeps the controller off the turn at no replicas: it never gets there, may not leave, or the load
keeps one replica in the band. -/
def NoZeroTurn (c : AutoscaleConfig R) (x : R) : Prop :=
  1 ≤ c.minReplicas ∨ c.maxReplicas = 0 ∨ c.scaleDownUtil * c.seqsPerReplica ≤ x

/-- **A step up is not taken back.** -/
theorem next_up (h : c.Apart) (hz : c.NoZeroTurn x) (hlo : c.minReplicas ≤ r) (hhi : r ≤ c.maxReplicas)
    (hup : r ≤ c.next x r) : c.next x r ≤ c.next x (c.next x r) := by
  have hmin := h.min_nonneg
  rcases hmin.trans hlo |>.eq_or_lt with hzero | hpos
  · -- from no replicas to one, which the load keeps in the band
    subst hzero
    rw [next_zero]
    split
    · next hmax =>
      have hload : c.scaleDownUtil * c.seqsPerReplica ≤ x := by
        rcases hz with hz | hz | hz
        · omega
        · omega
        · exact hz
      rcases next_cases h.seqs_pos one_pos x with ⟨heq, -⟩ | ⟨-, hbelow, -⟩ | heq
      · omega
      · exact absurd hbelow (not_below_one hload)
      · omega
    · next hmax => rw [next_zero, if_neg hmax]
  · rcases next_cases h.seqs_pos hpos x with ⟨heq, habove, -⟩ | ⟨heq, -⟩ | heq
    · rw [heq]
      rcases next_cases h.seqs_pos (show 0 < r + 1 by omega) x with ⟨heq', -⟩ | ⟨-, hbelow, -⟩ | heq'
      · omega
      · exact absurd hbelow (not_below_of_above h hpos le_rfl habove)
      · omega
    · omega
    · rw [heq, heq]

/-- **A step down is not taken back.** -/
theorem next_down (h : c.Apart) (hz : c.NoZeroTurn x) (hlo : c.minReplicas ≤ r) (hhi : r ≤ c.maxReplicas)
    (hdown : c.next x r ≤ r) : c.next x (c.next x r) ≤ c.next x r := by
  have hmin := h.min_nonneg
  rcases hmin.trans hlo |>.eq_or_lt with hzero | hpos
  · subst hzero
    have heq : c.next x 0 = 0 := le_antisymm hdown (hmin.antisymm hlo ▸ (next_mem h hlo hhi x).1)
    rw [heq, heq]
  · rcases next_cases h.seqs_pos hpos x with ⟨heq, -⟩ | ⟨heq, hbelow, hlt⟩ | heq
    · omega
    · rw [heq]
      rcases eq_or_ne r 1 with rfl | hne
      · -- from one replica to none, which the load does not ask for
        exfalso
        rcases hz with hz | hz | hz
        · omega
        · omega
        · exact not_below_one hz hbelow
      · rcases next_cases h.seqs_pos (show 0 < r - 1 by omega) x with ⟨-, habove, -⟩ | ⟨heq', -⟩ | heq'
        · refine absurd ?_ (not_below_of_above h (show 1 ≤ r - 1 by omega) le_rfl habove)
          rwa [sub_add_cancel]
        · omega
        · omega
    · rw [heq, heq]

/-- **Where the condition fails nothing is a rest**: none of the counts in range is followed by itself. -/
theorem next_ne (h : c.Apart) (hz : ¬c.NoZeroTurn x) (hlo : c.minReplicas ≤ r) : c.next x r ≠ r := by
  obtain ⟨hmin, hmax, hload⟩ : ¬1 ≤ c.minReplicas ∧ ¬c.maxReplicas = 0 ∧
      ¬c.scaleDownUtil * c.seqsPerReplica ≤ x := by
    unfold NoZeroTurn at hz
    tauto
  have hge := h.min_nonneg
  have hle := h.min_le_max
  rcases hge.trans hlo |>.eq_or_lt with hzero | hpos
  · subst hzero
    rw [next_zero, if_pos (by omega)]
    exact one_ne_zero
  · -- a load below the band of one replica is below that of any number of them
    have hrR : (1 : R) ≤ r := by exact_mod_cast hpos
    have hdown : 0 < c.scaleDownUtil := by linarith [h.down_pos]
    have hone : c.seqsPerReplica ≤ r * c.seqsPerReplica := le_mul_of_one_le_left h.seqs_pos.le hrR
    have hbelow : x < c.scaleDownUtil * (r * c.seqsPerReplica) :=
      (not_le.1 hload).trans_le (mul_le_mul_of_nonneg_left hone hdown.le)
    have hnot : ¬c.scaleUpUtil * (r * c.seqsPerReplica) < x := by
      have hup : c.scaleDownUtil ≤ c.scaleUpUtil := by linarith [h.down_le_up]
      have hcap : 0 ≤ r * c.seqsPerReplica := h.seqs_pos.le.trans hone
      exact not_lt.2 (hbelow.le.trans (mul_le_mul_of_nonneg_right hup hcap))
    rw [next_of_pos h.seqs_pos hpos, if_neg (fun hup => hnot hup.1), if_pos ⟨hbelow, by omega⟩]
    omega

end AutoscaleConfig

/-! ### The two results -/

open DraftPoolAutoscaler

/-- The defaults with another least count. -/
def AutoscaleConfig.defaultFrom (minReplicas : ℤ) : AutoscaleConfig ℚ :=
  { AutoscaleConfig.default with minReplicas }

theorem AutoscaleConfig.apart_defaultFrom {m : ℤ} (h0 : 0 ≤ m) (h8 : m ≤ 8) :
    (AutoscaleConfig.defaultFrom m).Apart where
  min_nonneg := h0
  min_le_max := h8
  seqs_pos := by norm_num [defaultFrom, default]
  down_pos := by norm_num [defaultFrom, default]
  down_le_up := by norm_num [defaultFrom, default]

section

variable {R : Type} [Field R] [LinearOrder R] [IsStrictOrderedRing R]

/-- **The autoscaler settles under every constant load exactly when it is not at the turn at zero**: from
whatever count a history of loads has led to, the counts stay in range, go one way only and come to rest
within `max_replicas - min_replicas` calls, if at least one replica is kept, none may be added, or the load
keeps one replica busy.  Otherwise they never rest. -/
theorem settles_iff {c : AutoscaleConfig R} (h : c.Apart) (history : List R) (load : R) :
    Settles c.minReplicas c.maxReplicas (((init (some c)).observes history).2.countAfter load) ↔
      1 ≤ c.minReplicas ∨ c.maxReplicas = 0 ∨ c.scaleDownUtil * c.seqsPerReplica ≤ load := by
  have hmem : c.minReplicas ≤ ((init (some c)).observes history).2.replicas ∧
      ((init (some c)).observes history).2.replicas ≤ c.maxReplicas :=
    @observes_mem R _ _ _ (init (some c)) h le_rfl h.min_le_max history
  have hcfg : ((init (some c)).observes history).2.cfg = c := (init (some c)).observes_cfg history
  generalize ((init (some c)).observes history).2 = a at hmem hcfg
  subst hcfg
  have hnext := a.countAfter_succ load
  have hrange : ∀ n, a.cfg.minReplicas ≤ a.countAfter load n ∧ a.countAfter load n ≤ a.cfg.maxReplicas :=
    fun n => observes_mem h hmem.1 hmem.2 (List.replicate n load)
  constructor
  · intro hsettles
    by_contra hturn
    set rest := (a.cfg.maxReplicas - a.cfg.minReplicas).toNat
    have hstill : a.countAfter load (rest + 1) = a.countAfter load rest :=
      hsettles.still (rest + 1) (Nat.le_succ rest)
    rw [hnext] at hstill
    exact AutoscaleConfig.next_ne h hturn (hrange rest).1 hstill
  · intro hz
    exact Settles.of_noTurn hnext hrange (fun r hlo hhi => AutoscaleConfig.next_up h hz hlo hhi)
      (fun r hlo hhi => AutoscaleConfig.next_down h hz hlo hhi)

/-- The defaults after a burst, with a load that asks for three replicas. -/
theorem settles_iff_default :
    Settles 1 8 (((init (some (AutoscaleConfig.defaultFrom 1))).observes [9, 9, 40]).2.countAfter 9) :=
  (settles_iff (AutoscaleConfig.apart_defaultFrom (by decide) (by decide)) [9, 9, 40] 9).2 (Or.inl le_rfl)

/-- The defaults from zero replicas, idle: a replica is added and taken back for ever. -/
theorem not_settles_idle : (AutoscaleConfig.defaultFrom 0).Apart ∧
    ((init (some (AutoscaleConfig.defaultFrom 0))).observes [0, 0, 0, 0]).1 = [1, 0, 1, 0] ∧
    ¬Settles 0 8 ((init (some (AutoscaleConfig.defaultFrom 0))).countAfter 0) := by
  refine ⟨AutoscaleConfig.apart_defaultFrom le_rfl (by decide), by decide +kernel, fun h => ?_⟩
  rcases h.oneWay with hup | hdown
  · exact absurd (hup 1) (by decide +kernel)
  · exact absurd (hdown 2) (by decide +kernel)

/-- **More load never yields fewer replicas**: of two controllers with one configuration, at ordered counts
in range and under pointwise ordered loads, the counts stay ordered after every call. -/
theorem replicas_monotone {c : AutoscaleConfig R} (h : c.Apart) (hmin : 1 ≤ c.minReplicas)
    {a b : DraftPoolAutoscaler R} (ha : a.cfg = c) (hb : b.cfg = c) (hlo : c.minReplicas ≤ a.replicas)
    (hab : a.replicas ≤ b.replicas) (hhi : b.replicas ≤ c.maxReplicas) {xs ys : List R}
    (hxy : List.Forall₂ (· ≤ ·) xs ys) : List.Forall₂ (· ≤ ·) (a.observes xs).1 (b.observes ys).1 := by
  induction hxy generalizing a b with
  | nil => exact List.Forall₂.nil
  | @cons x y xs ys hle _ ih =>
    obtain ⟨ca, r⟩ := a
    obtain ⟨cb, r'⟩ := b
    obtain rfl : ca = c := ha
    obtain rfl : cb = ca := hb
    have hr : r ≤ r' := hab
    have hstep : cb.next x r ≤ cb.next y r' := AutoscaleConfig.next_mono h (hmin.trans hlo) hr hhi hle
    have hrest := @ih ⟨cb, cb.next x r⟩ ⟨cb, cb.next y r'⟩ rfl rfl
      (AutoscaleConfig.next_mem h hlo (hr.trans hhi) x).1 hstep
      (AutoscaleConfig.next_mem h (hlo.trans hr) hhi y).2
    unfold observes
    rw [AutoscaleConfig.observe_eq, AutoscaleConfig.observe_eq]
    exact List.Forall₂.cons hstep hrest

/-- Two controllers one replica apart, under loads that part. -/
theorem replicas_monotone_default : List.Forall₂ (· ≤ ·)
    (observes ⟨AutoscaleConfig.defaultFrom 1, 1⟩ [4, 4, 4]).1
    (observes ⟨AutoscaleConfig.defaultFrom 1, 2⟩ [4, 5, 9]).1 :=
  replicas_monotone (AutoscaleConfig.apart_defaultFrom (by decide) (by decide)) le_rfl rfl rfl le_rfl
    (by decide) (by decide) (by norm_num)

end

end DiSpec
