/-
# Scattered writes

`scatter f as bs` is the memory `f` after the values `bs` were written at the
addresses `as`, in order.  Written at distinct addresses, each value is read back
(`scatter_map`), and every other address keeps what it held
(`scatter_of_notMem`).
-/

import Mathlib.Data.List.Nodup
import Mathlib.Logic.Function.Basic

variable {α β ι : Type} [DecidableEq α]

/-- Write the values at the addresses, one after the other. -/
def scatter (f : α → β) : List α → List β → α → β
  | a :: as, b :: bs => scatter (Function.update f a b) as bs
  | _, _ => f

/-- An address that is not written keeps its value. -/
theorem scatter_of_notMem (f : α → β) {as : List α} (bs : List β) {a : α} (h : a ∉ as) :
    scatter f as bs a = f a := by
  induction as generalizing f bs with
  | nil => rfl
  | cons a' as ih =>
    cases bs with
    | nil => rfl
    | cons b bs =>
      rw [List.mem_cons, not_or] at h
      rw [scatter, ih _ _ h.2, Function.update_of_ne h.1]

/-- **Distinct addresses are read back.**  The entries `L` are written at `addr` with
values `val`. -/
theorem scatter_map (f : α → β) {L : List ι} (addr : ι → α) (val : ι → β)
    (hn : (L.map addr).Nodup) {e : ι} (he : e ∈ L) :
    scatter f (L.map addr) (L.map val) (addr e) = val e := by
  induction L generalizing f with
  | nil => exact absurd he List.not_mem_nil
  | cons e' L ih =>
    rw [List.map_cons, List.nodup_cons] at hn
    rw [List.map_cons, List.map_cons, scatter]
    rcases List.mem_cons.1 he with rfl | he
    · rw [scatter_of_notMem _ _ hn.1, Function.update_self]
    · exact ih _ hn.2 he

/-- Distinct addresses are read back, index by index. -/
theorem scatter_getElem (f : α → β) {as : List α} {bs : List β} (hn : as.Nodup) (i : ℕ)
    (ha : i < as.length) (hb : i < bs.length) : scatter f as bs as[i] = bs[i] := by
  induction as generalizing f bs i with
  | nil => exact absurd ha (Nat.not_lt_zero i)
  | cons a as ih =>
    cases bs with
    | nil => exact absurd hb (Nat.not_lt_zero i)
    | cons b bs =>
      rw [List.nodup_cons] at hn
      rw [scatter]
      cases i with
      | zero =>
        rw [List.getElem_cons_zero, List.getElem_cons_zero, scatter_of_notMem _ _ hn.1, Function.update_self]
      | succ i => exact ih _ hn.2 i (Nat.lt_of_succ_lt_succ ha) (Nat.lt_of_succ_lt_succ hb)
