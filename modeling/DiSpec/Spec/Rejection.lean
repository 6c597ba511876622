/-
# Rejection sampling

`dispec/spec/rejection.py`: `rejection_sample`.

The draft tokens are checked in turn, each with its own row of `q` and of `p`; the
rows of the two tensors `(K, V)` have one length.  Token `t` is accepted when
`rand` is below `min(1, p[t] / q[t])`; the first one that is not is replaced by a
draw from the positive part of `p - q`, and nothing after it is looked at.  If
all are accepted one more token is drawn from `p_bonus`.  A token outside a row
raises `IndexError`.

`rejectionSample_eq` is the shape of every result: accepted drafts, then one more
token.
-/

import DiSpec.KV.BlockManager
import DiSpec.Sampling

namespace DiSpec

variable {R G : Type} [Field R] [LinearOrder R]

/-- The row that the correction is drawn from: `clamp(p - q, min=0)` normalized, or `p`
where that is zero. -/
def residual (q p : List R) : List R :=
  let resid := List.zipWith (fun a b => max (a - b) 0) p q
  let s := resid.sum
  if 0 < s then resid.map (· / s) else p

/-- The probability of accepting a token with draft probability `qi` and target
probability `pi`. -/
def acceptRatio (qi pi : R) : R := if qi ≤ 0 then 1 else min 1 (pi / qi)

/-- `out.append(t)` in front of what the rest of the loop returns. -/
def accepted (t : ℕ) : Except Exc (List ℕ × ℕ) → Except Exc (List ℕ × ℕ)
  | .error x => .error x
  | .ok (out, n) => .ok (t :: out, n + 1)

/-- `rejection_sample`: the tokens to emit, and how many of them are draft tokens. -/
def rejectionSample (pBonus : List R) :
    (draftTokens : List ℕ) → (q p : List (List R)) → RandM R (Except Exc (List ℕ × ℕ))
  | [], _, _ => (sampleFromProbs pBonus).map fun t => .ok ([t], 0)
  | t :: ts, qi :: q, pi :: p =>
    match qi[t]?, pi[t]? with
    | some qt, some pt => .rand fun r =>
      if r < acceptRatio qt pt then (rejectionSample pBonus ts q p).map (accepted t)
      else (sampleFromProbs (residual qi pi)).map fun t => .ok ([t], 0)
    | _, _ => .pure (.error .IndexError)
  | _ :: _, _, _ => .pure (.error .IndexError)

/-- The rows of a family along the tokens `ts` after `ctx`. -/
def rowsAlong (f : List ℕ → List R) : (ctx ts : List ℕ) → List (List R)
  | _, [] => []
  | ctx, t :: ts => f ctx :: rowsAlong f (ctx ++ [t]) ts

omit [Field R] [LinearOrder R] in
/-- Each row is that of the tokens before it. -/
theorem rowsAlong_eq (f : List ℕ → List R) (ctx ts : List ℕ) :
    rowsAlong f ctx ts = (List.range ts.length).map fun i => f (ctx ++ ts.take i) := by
  induction ts generalizing ctx with
  | nil => rfl
  | cons t ts ih =>
    rw [rowsAlong, ih, List.length_cons, List.range_succ_eq_map, List.map_cons, List.map_map,
      List.take_zero, List.append_nil]
    simp only [Function.comp_def, List.append_assoc, List.singleton_append, List.take_succ_cons]

/-- Every draft token is an index of its two rows. -/
def InRows : (draftTokens : List ℕ) → (q p : List (List R)) → Prop
  | [], _, _ => True
  | t :: ts, qi :: q, pi :: p => t < qi.length ∧ t < pi.length ∧ InRows ts q p
  | _ :: _, _, _ => False

omit [Field R] [LinearOrder R] in
/-- Tokens of a vocabulary are indices of rows over it. -/
theorem inRows_rowsAlong {V : ℕ} {q p : List ℕ → List R} (hq : ∀ ctx, (q ctx).length = V)
    (hp : ∀ ctx, (p ctx).length = V) {ts : List ℕ} (h : ∀ t ∈ ts, t < V) (ctx : List ℕ) :
    InRows ts (rowsAlong q ctx ts) (rowsAlong p ctx ts) := by
  induction ts generalizing ctx with
  | nil => exact trivial
  | cons t ts ih =>
    have ht : t < V := h t List.mem_cons_self
    refine ⟨?_, ?_, ih (fun u hu => h u (List.mem_cons_of_mem _ hu)) _⟩
    · rwa [hq]
    · rwa [hp]

/-- **The shape of a result**: the draft tokens up to the first rejection, then exactly
one more token.  The only other outcome is the `IndexError` for a token outside its
rows. -/
theorem rejectionSample_eq (pBonus : List R) (src : Source R G) (ts : List ℕ) (q p : List (List R))
    (g : G) :
    (∃ n t, n ≤ ts.length ∧
      ((rejectionSample pBonus ts q p).run src g).1 = .ok (ts.take n ++ [t], n)) ∨
    ¬ InRows ts q p ∧ ((rejectionSample pBonus ts q p).run src g).1 = .error .IndexError := by
  induction ts generalizing q p g with
  | nil => exact Or.inl ⟨0, _, le_rfl, rfl⟩
  | cons t ts ih =>
    rcases q with - | ⟨qi, q⟩
    · exact Or.inr ⟨id, rfl⟩
    rcases p with - | ⟨pi, p⟩
    · exact Or.inr ⟨id, rfl⟩
    rw [rejectionSample]
    rcases hq : qi[t]? with - | qt
    · refine Or.inr ⟨fun h => ?_, rfl⟩
      exact absurd h.1 (not_lt.2 (List.getElem?_eq_none_iff.1 hq))
    rcases hp : pi[t]? with - | pt
    · refine Or.inr ⟨fun h => ?_, rfl⟩
      exact absurd h.2.1 (not_lt.2 (List.getElem?_eq_none_iff.1 hp))
    simp only [RandM.run]
    split
    · rw [RandM.run_map]
      rcases ih q p (src.rand g).2 with ⟨n, u, hn, heq⟩ | ⟨hrows, heq⟩
      · refine Or.inl ⟨n + 1, u, Nat.succ_le_succ hn, ?_⟩
        rw [heq]
        rfl
      · refine Or.inr ⟨fun h => hrows h.2.2, ?_⟩
        rw [heq]
        rfl
    · exact Or.inl ⟨0, _, Nat.zero_le _, rfl⟩

end DiSpec
