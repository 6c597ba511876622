/-
# What applying a map computes

Each step of `dispec/kv/transfer.py` gets one specification: on tensors whose shapes fit it
returns, with the shape and the entries it says.

A rotation works on each head vector by itself (`rotateWith_spec`), the design rows list the
features of the selected layers in the order layer, head, dim (`design_spec`), and the loops over
layers fill one layer after the other (`fillLayers_spec`).  What a map does to a row is
`LayerMap.matrix`, the weight or the product of the factors, and the bias.
-/

import DiSpec.KV.Transfer
import Mathlib.Algebra.BigOperators.Group.Finset.Sigma

namespace DiSpec

open Tensor

/-! ### Indices -/

theorem within₂ {i j a b : ℕ} (hi : i < a) (hj : j < b) : Within [i, j] [a, b] :=
  within_cons.2 ⟨hi, within_cons.2 ⟨hj, within_nil⟩⟩

theorem within₃ {i j k a b c : ℕ} (hi : i < a) (hj : j < b) (hk : k < c) :
    Within [i, j, k] [a, b, c] := within_cons.2 ⟨hi, within₂ hj hk⟩

theorem within₄ {i j k l a b c d : ℕ} (hi : i < a) (hj : j < b) (hk : k < c) (hl : l < d) :
    Within [i, j, k, l] [a, b, c, d] := within_cons.2 ⟨hi, within₃ hj hk hl⟩

theorem exists_of_within₂ {idx : List ℕ} {a b : ℕ} (h : Within idx [a, b]) :
    ∃ i j, idx = [i, j] ∧ i < a ∧ j < b := by
  match idx, h with
  | [i, j], .cons hi (.cons hj .nil) => exact ⟨i, j, rfl, hi, hj⟩

theorem exists_of_within₄ {idx : List ℕ} {a b c d : ℕ} (h : Within idx [a, b, c, d]) :
    ∃ i j k l, idx = [i, j, k, l] ∧ i < a ∧ j < b ∧ k < c ∧ l < d := by
  match idx, h with
  | [i, j, k, l], .cons hi (.cons hj (.cons hk (.cons hl .nil))) => exact ⟨i, j, k, l, rfl, hi, hj, hk, hl⟩

/-- The place of head `k` and dim `l` of layer `s` in a row of features. -/
def feature (heads dim s k l : ℕ) : ℕ := s * (heads * dim) + (k * dim + l)

theorem feature_lt {heads dim n s k l : ℕ} (hs : s < n) (hk : k < heads) (hl : l < dim) :
    feature heads dim s k l < n * (heads * dim) := by
  have h := ravel_lt (within₃ hs hk hl)
  simpa [ravel, feature] using h

/-! ### Rotations -/

section Rotations

variable {R : Type} [Ring R]

/-- What `_rotate_half` makes of a vector of `d` entries. -/
def halfAt (d : ℕ) (x : ℕ → R) (l : ℕ) : R :=
  if l < d - (d + 1) / 2 then -(x ((d + 1) / 2 + l)) else x (l - (d - (d + 1) / 2))

/-- A vector rotated by the rows `c` and `s` of the tables, `op` being `+` or `-`. -/
def rotated (op : R → R → R) (d : ℕ) (c s x : ℕ → R) (l : ℕ) : R := op (x l * c l) (halfAt d x l * s l)

/-- Only the entries of the vector count. -/
theorem rotated_congr (op : R → R → R) {d : ℕ} (c s : ℕ → R) {x x' : ℕ → R}
    (h : ∀ l < d, x l = x' l) {l : ℕ} (hl : l < d) : rotated op d c s x l = rotated op d c s x' l := by
  rw [rotated, rotated, h l hl]
  congr 2
  rw [halfAt, halfAt]
  split
  · rw [h _ (by omega)]
  · rw [h _ (by omega)]

/-- The common body of `strip_rope` and `apply_rope`. -/
def rotateWith (op : R → R → R) (keys : Tensor R) (rope : RopeTables R) :
    Except TransferExc (Tensor R) := do
  let cos ← unsqueeze rope.cos
  let sin ← unsqueeze rope.sin
  let xc ← orRuntimeError (keys.zipWith (· * ·) cos)
  let half ← rotateHalf keys
  let xs ← orRuntimeError (half.zipWith (· * ·) sin)
  orRuntimeError (xc.zipWith op xs)

theorem stripRope_eq (keys : Tensor R) (rope : RopeTables R) :
    stripRope keys rope = rotateWith (· - ·) keys rope := rfl

theorem applyRope_eq (keys : Tensor R) (rope : RopeTables R) :
    applyRope keys rope = rotateWith (· + ·) keys rope := rfl

/-- The two halves of head vectors of any length but one, the first the longer one. -/
theorem chunk2_spec {x : Tensor R} {a b h d : ℕ} (hx : x.shape = [a, b, h, d]) (hd : d ≠ 1) :
    ∃ x1 x2, chunk2 x = .ok (x1, x2) ∧ x1.shape = [a, b, h, (d + 1) / 2] ∧
      x2.shape = [a, b, h, d - (d + 1) / 2] ∧
      (∀ i < a, ∀ j < b, ∀ k < h, ∀ l < (d + 1) / 2, x1.at [i, j, k, l] = x.at [i, j, k, l]) ∧
      ∀ i < a, ∀ j < b, ∀ k < h, ∀ l < d - (d + 1) / 2,
        x2.at [i, j, k, l] = x.at [i, j, k, (d + 1) / 2 + l] := by
  rw [chunk2, hx]
  dsimp only
  rw [if_neg hd]
  exact ⟨_, _, rfl, rfl, rfl, fun i hi j hj k hk l hl => at_build _ (within₄ hi hj hk hl),
    fun i hi j hj k hk l hl => at_build _ (within₄ hi hj hk hl)⟩

theorem catLast_spec {x y : Tensor R} {a b h c c' : ℕ} (hx : x.shape = [a, b, h, c])
    (hy : y.shape = [a, b, h, c']) : ∃ z, catLast x y = .ok z ∧ z.shape = [a, b, h, c + c'] ∧
      ∀ i < a, ∀ j < b, ∀ k < h, ∀ l < c + c',
        z.at [i, j, k, l] = if l < c then x.at [i, j, k, l] else y.at [i, j, k, l - c] := by
  rw [catLast, hx, hy]
  dsimp only
  rw [if_pos ⟨rfl, rfl, rfl⟩]
  exact ⟨_, rfl, rfl, fun i hi j hj k hk l hl => at_build _ (within₄ hi hj hk hl)⟩

/-- **`_rotate_half`** of head vectors of any length but one. -/
theorem rotateHalf_spec {x : Tensor R} {a b h d : ℕ} (hx : x.shape = [a, b, h, d]) (hd : d ≠ 1) :
    ∃ y, rotateHalf x = .ok y ∧ y.shape = [a, b, h, d] ∧ ∀ i < a, ∀ j < b, ∀ k < h, ∀ l < d,
      y.at [i, j, k, l] = halfAt d (fun l => x.at [i, j, k, l]) l := by
  have hsum : d - (d + 1) / 2 + (d + 1) / 2 = d := by omega
  obtain ⟨x1, x2, hchunk, hshape₁, hshape₂, hat₁, hat₂⟩ := chunk2_spec hx hd
  have hneg : (x2.map (- ·)).shape = [a, b, h, d - (d + 1) / 2] := hshape₂
  obtain ⟨y, hcat, hyshape, hyat⟩ := catLast_spec hneg hshape₁
  refine ⟨y, ?_, by rw [hyshape, hsum], fun i hi j hj k hk l hl => ?_⟩
  · rw [rotateHalf, hchunk]
    exact hcat
  · rw [hyat i hi j hj k hk l (hsum.symm ▸ hl), halfAt]
    by_cases hlt : l < d - (d + 1) / 2
    · rw [if_pos hlt, if_pos hlt, at_map _ (hshape₂ ▸ within₄ hi hj hk hlt), hat₂ i hi j hj k hk l hlt]
    · rw [if_neg hlt, if_neg hlt]
      exact hat₁ i hi j hj k hk _ (by omega)

/-- A single entry cannot be halved. -/
theorem rotateHalf_one {x : Tensor R} {a b h : ℕ} (hx : x.shape = [a, b, h, 1]) :
    ∃ e, rotateHalf x = .error e := by
  refine ⟨.ValueError "not enough values to unpack (expected 2, got 1)", ?_⟩
  rw [rotateHalf, chunk2, hx]
  rfl

/-- `table[None, :, None, :]`. -/
theorem unsqueeze_spec {table : Tensor R} {t d : ℕ} (h : table.shape = [t, d]) :
    ∃ y, unsqueeze table = .ok y ∧ y.shape = [1, t, 1, d] ∧
      ∀ j l, y.at [0, j, 0, l] = table.at [j, l] := by
  have hsize : table.shape.prod = [1, t, 1, d].prod := by rw [h]; simp
  refine ⟨table.reshape [1, t, 1, d] hsize, ?_, rfl, fun j l => ?_⟩
  · rw [unsqueeze, h]
    simp only [view_spec table hsize]
    rfl
  · refine at_reshape table hsize ?_
    rw [h]
    simp [ravel]

/-- An operation of head vectors with a table that has a row for each token. -/
theorem zipWith_table (op : R → R → R) {x table : Tensor R} {a t h d : ℕ} (hx : x.shape = [a, t, h, d])
    (ht : table.shape = [1, t, 1, d]) : ∃ y, x.zipWith op table = some y ∧ y.shape = [a, t, h, d] ∧
      ∀ i < a, ∀ j < t, ∀ k < h, ∀ l < d,
        y.at [i, j, k, l] = op (x.at [i, j, k, l]) (table.at [0, j, 0, l]) := by
  have hb : broadcast x.shape table.shape = some [a, t, h, d] := by
    rw [hx, ht]
    simp [broadcast, broadcastRev]
  refine ⟨.build [a, t, h, d] fun idx => op (x.at (project x.shape idx))
    (table.at (project table.shape idx)), by rw [zipWith, hb, Option.map_some], rfl,
    fun i hi j hj k hk l hl => ?_⟩
  rw [at_build _ (within₄ hi hj hk hl), hx, ht, project_self (within₄ hi hj hk hl)]
  have hproj : project [1, t, 1, d] [i, j, k, l] = [0, j, 0, l] := by
    simp only [project, List.length_cons, List.length_nil, Nat.sub_self, List.drop_zero,
      List.zipWith_cons_cons, List.zipWith_nil_left, if_true]
    congr 2
    · split <;> omega
    · congr 2
      split <;> omega
  rw [hproj]

/-- **Rotating** turns each head vector at a token by the token's rows of the tables. -/
theorem rotateWith_spec (op : R → R → R) {x : Tensor R} {rope : RopeTables R} {a t h d : ℕ}
    (hx : x.shape = [a, t, h, d]) (hd : d ≠ 1) (hc : rope.cos.shape = [t, d])
    (hs : rope.sin.shape = [t, d]) : ∃ y, rotateWith op x rope = .ok y ∧ y.shape = [a, t, h, d] ∧
      ∀ i < a, ∀ j < t, ∀ k < h, ∀ l < d, y.at [i, j, k, l] =
        rotated op d (fun l => rope.cos.at [j, l]) (fun l => rope.sin.at [j, l])
          (fun l => x.at [i, j, k, l]) l := by
  obtain ⟨cos, hcos, hcshape, hcat⟩ := unsqueeze_spec hc
  obtain ⟨sin, hsin, hsshape, hsat⟩ := unsqueeze_spec hs
  obtain ⟨xc, hxc, hxcshape, hxcat⟩ := zipWith_table (· * ·) hx hcshape
  obtain ⟨half, hhalf, hhshape, hhat⟩ := rotateHalf_spec hx hd
  obtain ⟨xs, hxs, hxsshape, hxsat⟩ := zipWith_table (· * ·) hhshape hsshape
  obtain ⟨y, hy, hyshape, hyat⟩ := zipWith_same op (hxsshape.trans hxcshape.symm)
  refine ⟨y, ?_, hyshape.trans hxcshape, fun i hi j hj k hk l hl => ?_⟩
  · rw [rotateWith, hcos, hsin]
    simp only [bind, Except.bind, hxc, orRuntimeError, hhalf, hxs, hy]
  · rw [hyat _ (hxcshape ▸ within₄ hi hj hk hl), hxcat i hi j hj k hk l hl, hxsat i hi j hj k hk l hl,
      hcat, hsat, hhat i hi j hj k hk l hl]
    rfl

/-- Rotating heads of one entry raises. -/
theorem rotateWith_one (op : R → R → R) {x : Tensor R} (rope : RopeTables R) {a t h : ℕ}
    (hx : x.shape = [a, t, h, 1]) : ∃ e, rotateWith op x rope = .error e := by
  obtain ⟨e, he⟩ := rotateHalf_one hx
  rw [rotateWith]
  cases unsqueeze rope.cos with
  | error e' => exact ⟨e', rfl⟩
  | ok cos =>
    cases unsqueeze rope.sin with
    | error e' => exact ⟨e', rfl⟩
    | ok sin =>
      simp only [bind, Except.bind]
      cases orRuntimeError (x.zipWith (· * ·) cos) with
      | error e' => exact ⟨e', rfl⟩
      | ok xc => exact ⟨e, by rw [he]⟩

end Rotations

/-! ### Loops over layers -/

section Layers

variable {R : Type} [Ring R]

namespace CrossModelKVMap

/-- **Filling layer after layer**: each layer is what was computed for it. -/
theorem fillLayers_spec {f : ℕ → Except TransferExc (Tensor R)} (out : Tensor R) {size n : ℕ}
    {rest : List ℕ} (hout : out.shape = size :: rest) (hn : n ≤ size)
    (hf : ∀ l < n, ∃ y, f l = .ok y ∧ y.shape = rest) :
    ∃ out', fillLayers f out n = .ok out' ∧ out'.shape = size :: rest ∧
      ∀ l < n, ∀ y, f l = .ok y → ∀ idx, Within idx rest → out'.at (l :: idx) = y.at idx := by
  induction n with
  | zero => exact ⟨out, rfl, hout, fun l hl => absurd hl (Nat.not_lt_zero l)⟩
  | succ n ih =>
    obtain ⟨out₁, heq, hshape, hat⟩ := ih (by omega) fun l hl => hf l (by omega)
    obtain ⟨y, hy, hyshape⟩ := hf n (Nat.lt_succ_self n)
    obtain ⟨out₂, hassign, hshape₂, hat₂⟩ := assign_spec hshape hyshape n
    refine ⟨out₂, ?_, hshape₂, fun l hl y' hy' idx hidx => ?_⟩
    · rw [fillLayers, heq]
      simp only [bind, Except.bind, hy, hassign, orRuntimeError]
    · rw [hat₂ l (by omega) idx hidx]
      rcases eq_or_ne l n with rfl | hne
      · rw [if_pos rfl, Except.ok.inj (hy.symm.trans hy')]
      · rw [if_neg hne]
        exact hat l (by omega) y' hy' idx hidx

/-- If the loop returns, every layer was computed. -/
theorem fillLayers_ok {f : ℕ → Except TransferExc (Tensor R)} {out out' : Tensor R} {n : ℕ}
    (h : fillLayers f out n = .ok out') : ∀ l < n, ∃ y, f l = .ok y := by
  induction n generalizing out' with
  | zero => exact fun l hl => absurd hl (Nat.not_lt_zero l)
  | succ n ih =>
    rw [fillLayers] at h
    cases hprev : fillLayers f out n with
    | error e =>
      rw [hprev] at h
      cases h
    | ok out₁ =>
      rw [hprev] at h
      intro l hl
      rcases Nat.lt_succ_iff_lt_or_eq.1 hl with hlt | rfl
      · exact ih hprev l hlt
      · cases hy : f l with
        | error e =>
          simp only [bind, Except.bind, hy] at h
          cases h
        | ok y => exact ⟨y, rfl⟩

/-- Places that are in range are read as they are. -/
theorem mapM_place {n : ℕ} {layers : List ℤ} (h : ∀ s ∈ layers, 0 ≤ s ∧ s < n) :
    layers.mapM (place n) = .ok (layers.map Int.toNat) := by
  induction layers with
  | nil => rfl
  | cons s layers ih =>
    rw [List.mapM_cons, ih fun s' hs' => h s' (List.mem_cons_of_mem _ hs'), place,
      if_pos (h s List.mem_cons_self)]
    rfl

/-- **The design rows** list the features of the selected layers: layer, then head, then dim. -/
theorem design_spec {source : Tensor R} {n seq heads dim : ℕ} (hsrc : source.shape = [n, seq, heads, dim])
    (hseq : 0 < seq) {layers : List ℤ} (hlayers : ∀ s ∈ layers, 0 ≤ s ∧ s < n) :
    ∃ x, design source layers = .ok x ∧ x.shape = [seq, layers.length * (heads * dim)] ∧
      ∀ t < seq, ∀ s < layers.length, ∀ k < heads, ∀ l < dim,
        x.at [t, feature heads dim s k l] = source.at [(layers.getD s 0).toNat, t, k, l] := by
  have hsel : (source.select (layers.map Int.toNat)).shape = [layers.length, seq, heads, dim] := by
    rw [select, shape_build, hsrc, List.length_map]
    rfl
  have hswap := shape_swap _ hsel
  have hsize : (source.select (layers.map Int.toNat)).swap.shape.prod =
      [seq, layers.length * (heads * dim)].prod := by
    rw [hswap]
    simp
  refine ⟨(source.select (layers.map Int.toNat)).swap.reshape _ hsize, ?_, rfl,
    fun t ht s hs k hk l hl => ?_⟩
  · rw [design, hsrc]
    simp only [mapM_place hlayers, bind, Except.bind, rows_spec _ hseq hsize]
    rfl
  · have hpos : ravel [seq, layers.length * (heads * dim)] [t, feature heads dim s k l] =
        ravel (source.select (layers.map Int.toNat)).swap.shape [t, s, k, l] := by
      rw [hswap]
      simp [ravel, feature]
    rw [at_reshape _ hsize hpos, at_swap _ hsel ht hs (within₂ hk hl),
      at_select _ (by rwa [List.length_map]) (by rw [hsrc]; exact within₃ ht hk hl)]
    congr 2
    rw [List.getD_eq_getElem _ _ (by rwa [List.length_map]), List.getElem_map,
      List.getD_eq_getElem _ _ hs]

/-- With no token the length of a design row is not determined, and `reshape` raises. -/
theorem design_empty {source : Tensor R} {n heads dim : ℕ} (hsrc : source.shape = [n, 0, heads, dim])
    (layers : List ℤ) : ∃ e, design source layers = .error e := by
  rw [design, hsrc]
  simp only
  cases layers.mapM (place n) with
  | error e => exact ⟨e, rfl⟩
  | ok ls => exact ⟨.RuntimeError, rfl⟩

end CrossModelKVMap

/-! ### The map of one layer -/

/-- A row added to, or combined with, each row of a matrix. -/
theorem zipWith_row (op : R → R → R) {x b : Tensor R} {m p : ℕ} (hx : x.shape = [m, p])
    (hb : b.shape = [p]) : ∃ y, x.zipWith op b = some y ∧ y.shape = [m, p] ∧
      ∀ i < m, ∀ j < p, y.at [i, j] = op (x.at [i, j]) (b.at [j]) := by
  have hbc : broadcast x.shape b.shape = some [m, p] := by
    rw [hx, hb]
    simp [broadcast, broadcastRev]
  refine ⟨.build [m, p] fun idx => op (x.at (project x.shape idx)) (b.at (project b.shape idx)),
    by rw [zipWith, hbc, Option.map_some], rfl, fun i hi j hj => ?_⟩
  rw [at_build _ (within₂ hi hj), hx, hb, project_self (within₂ hi hj)]
  have hproj : project [p] [i, j] = [j] := by
    simp only [project, List.length_cons, List.length_nil, List.zipWith_nil_left,
      List.drop_succ_cons, List.drop_zero, List.zipWith_cons_cons, Nat.reduceAdd, Nat.reduceSub]
    congr 1
    split <;> omega
  rw [hproj]

namespace LayerMap

/-- The matrix that `apply` multiplies by: the product of the factors if they are stored, which have to
be matrices for that, else the weight. -/
def matrix (m : LayerMap R) : Option (Tensor R) :=
  match m.factors with
  | some (left, right) =>
    if left.shape.length = 2 ∧ right.shape.length = 2 then left.matmul right else none
  | none => m.weight

/-- Factors that have a matrix are matrices with a common dimension. -/
theorem shapes_of_matrix {m : LayerMap R} {w : Tensor R} {q p : ℕ} (hw : m.matrix = some w)
    (hshape : w.shape = [q, p]) {left right : Tensor R} (hf : m.factors = some (left, right)) :
    left.matmul right = some w ∧ ∃ r, left.shape = [q, r] ∧ right.shape = [r, p] := by
  rw [matrix, hf] at hw
  simp only at hw
  split at hw
  next hdims =>
    obtain ⟨a, b, hl⟩ := List.length_eq_two.1 hdims.1
    obtain ⟨c, d, hr⟩ := List.length_eq_two.1 hdims.2
    have hs := shape_matmul left right
    rw [hw, hl, hr, Option.map_some, hshape] at hs
    simp only [matmulShape, List.reverse_cons, List.reverse_nil, List.nil_append, List.cons_append] at hs
    split at hs
    next heq =>
      simp only [broadcastRev, Option.map_some, List.reverse_nil, List.nil_append, List.cons_append,
        Option.some.injEq, List.cons.injEq, and_true] at hs
      exact ⟨hw, b, by rw [hl, hs.1], by rw [hr, hs.2, heq]⟩
    next => cases hs
  next => cases hw

/-- **The product** is the row times the matrix, by the factors or at once. -/
theorem product_spec {m : LayerMap R} {x w : Tensor R} {n q p : ℕ} (hx : x.shape = [n, q])
    (hw : m.matrix = some w) (hshape : w.shape = [q, p]) :
    ∃ y, m.product x = .ok y ∧ y.shape = [n, p] ∧ ∀ i < n, ∀ j < p,
      y.at [i, j] = ∑ f ∈ Finset.range q, x.at [i, f] * w.at [f, j] := by
  rw [product]
  cases hf : m.factors with
  | none =>
    rw [matrix, hf] at hw
    simp only at hw ⊢
    obtain ⟨y, hy, hyshape, hyat⟩ := matmul_spec hx hshape
    exact ⟨y, by rw [hw]; simp only [hy, orRuntimeError], hyshape, hyat⟩
  | some lr =>
    obtain ⟨left, right⟩ := lr
    simp only
    obtain ⟨hw, r, hl, hr⟩ := shapes_of_matrix hw hshape hf
    obtain ⟨z, hz, hzshape, hzat⟩ := matmul_spec hx hl
    obtain ⟨y, hy, hyshape, hyat⟩ := matmul_spec hzshape hr
    obtain ⟨w', hw', -, hwat⟩ := matmul_spec hl hr
    obtain rfl := Option.some.inj (hw.symm.trans hw')
    refine ⟨y, by simp only [hz, bind, Except.bind, hy, orRuntimeError], hyshape, fun i hi j hj => ?_⟩
    -- (x L) R = x (L R), entry by entry
    calc y.at [i, j] = ∑ k ∈ Finset.range r, z.at [i, k] * right.at [k, j] := hyat i hi j hj
      _ = ∑ k ∈ Finset.range r, ∑ f ∈ Finset.range q, x.at [i, f] * (left.at [f, k] * right.at [k, j]) := by
        refine Finset.sum_congr rfl fun k hk => ?_
        rw [hzat i hi k (Finset.mem_range.1 hk), Finset.sum_mul]
        exact Finset.sum_congr rfl fun f _ => mul_assoc _ _ _
      _ = ∑ f ∈ Finset.range q, x.at [i, f] * w.at [f, j] := by
        rw [Finset.sum_comm]
        refine Finset.sum_congr rfl fun f hf => ?_
        rw [hwat f (Finset.mem_range.1 hf) j hj, Finset.mul_sum]

/-- **The affine part**: the row times the matrix, and the bias. -/
theorem affine_spec {m : LayerMap R} {x w : Tensor R} {n q p : ℕ} (hx : x.shape = [n, q])
    (hw : m.matrix = some w) (hshape : w.shape = [q, p]) (hb : m.bias.shape = [p]) :
    ∃ xw y, m.product x = .ok xw ∧ xw.zipWith (· + ·) m.bias = some y ∧ y.shape = [n, p] ∧
      ∀ i < n, ∀ j < p,
        y.at [i, j] = (∑ f ∈ Finset.range q, x.at [i, f] * w.at [f, j]) + m.bias.at [j] := by
  obtain ⟨xw, hxw, hxwshape, hxwat⟩ := product_spec hx hw hshape
  obtain ⟨y, hy, hyshape, hyat⟩ := zipWith_row (· + ·) hxwshape hb
  refine ⟨xw, y, hxw, hy, hyshape, fun i hi j hj => ?_⟩
  rw [hyat i hi j hj, hxwat i hi j hj]

/-- **`apply` without a residual** is the affine map. -/
theorem apply_spec (gelu : R → R) {m : LayerMap R} {x w : Tensor R} {n q p : ℕ} (hx : x.shape = [n, q])
    (hw : m.matrix = some w) (hshape : w.shape = [q, p]) (hb : m.bias.shape = [p])
    {useResidual : Bool} (hres : useResidual = false ∨ m.residual = none) :
    ∃ y, m.apply gelu x useResidual = .ok y ∧ y.shape = [n, p] ∧ ∀ i < n, ∀ j < p,
      y.at [i, j] = (∑ f ∈ Finset.range q, x.at [i, f] * w.at [f, j]) + m.bias.at [j] := by
  obtain ⟨xw, y, hxw, hy, hyshape, hyat⟩ := affine_spec hx hw hshape hb
  refine ⟨y, ?_, hyshape, hyat⟩
  rw [apply, hxw]
  rcases hres with rfl | hres
  · simp only [bind, Except.bind, hy, orRuntimeError]
    rfl
  · simp only [bind, Except.bind, hy, orRuntimeError, hres]
    cases useResidual <;> rfl

end LayerMap

/-- A bias that fits one row is a row of the same length, or one entry, or a scalar. -/
theorem shape_of_fits_row {s : List ℕ} {h : ℕ} (hs : broadcast s [1, h] = some [1, h]) :
    s = [] ∨ s = [1] ∨ s = [h] ∨ s = [1, 1] ∨ s = [1, h] := by
  have hrev : broadcastRev s.reverse [h, 1] = some [h, 1] := by
    rw [broadcast] at hs
    obtain ⟨r, hr, hr'⟩ := Option.map_eq_some_iff.1 hs
    rw [show ([1, h] : List ℕ).reverse = [h, 1] from rfl] at hr
    rw [hr, ← List.reverse_reverse r, hr']
    rfl
  rw [← List.reverse_reverse s]
  generalize s.reverse = r at hrev
  rcases r with _ | ⟨a, _ | ⟨b, _ | ⟨c, r⟩⟩⟩
  · exact Or.inl rfl
  · simp only [broadcastRev] at hrev
    split at hrev
    · simp at hrev
      simp [hrev]
    · split at hrev
      next h1 => simp [h1]
      next => cases hrev
  · simp only [broadcastRev] at hrev
    split at hrev
    · simp at hrev
      simp [hrev]
    · split at hrev
      next h1 =>
        simp at hrev
        simp [h1, hrev]
      next => cases hrev
  · simp only [broadcastRev] at hrev
    split at hrev
    · simp at hrev
    · split at hrev <;> simp at hrev

/-- A bias that fits one row fits any number of them. -/
theorem fits_rows {s : List ℕ} {h : ℕ} (hs : broadcast s [1, h] = some [1, h]) (n : ℕ) :
    broadcast s [n, h] = some [n, h] := by
  rcases shape_of_fits_row hs with hs | hs | hs | hs | hs <;> rw [hs, broadcast_comm] <;>
    simp [broadcast, broadcastRev]

/-! ### The map of all layers -/

/-- A head vector at token `t`, rotated if there are tables. -/
def turned (rope : Option (RopeTables R)) (d t : ℕ) (x : ℕ → R) (l : ℕ) : R :=
  match rope with
  | some rope => rotated (· + ·) d (fun l => rope.cos.at [t, l]) (fun l => rope.sin.at [t, l]) x l
  | none => x l

/-- The tables have a row for each of `seq` tokens, and heads of `d` entries can be halved. -/
def RopeTables.Fits (rope : RopeTables R) (seq d : ℕ) : Prop :=
  d ≠ 1 ∧ rope.cos.shape = [seq, d] ∧ rope.sin.shape = [seq, d]

namespace CrossModelKVMap

/-- One target layer, the mapped rows being anything of the right size: split into heads and rotated. -/
theorem applyLayer_sized (gelu : R → R) {self : CrossModelKVMap R} {source : Tensor R} {n seq : ℕ}
    (hsrc : source.shape = [n, seq, self.numKvHeads, self.headDim]) {m : LayerMap R}
    {useResidual : Bool} {x y : Tensor R} (hx : design source m.sourceLayers = .ok x)
    (hy : m.apply gelu x useResidual = .ok y)
    (hsize : y.shape.prod = [1, seq, self.numKvHeads, self.headDim].prod) {rope : Option (RopeTables R)}
    (hrope : ∀ r, rope = some r → r.Fits seq self.headDim) :
    ∃ z, self.applyLayer gelu source m useResidual rope = .ok z ∧
      z.shape = [seq, self.numKvHeads, self.headDim] ∧
      ∀ t < seq, ∀ k < self.numKvHeads, ∀ l < self.headDim, z.at [t, k, l] =
        turned rope self.headDim t (fun l => (y.reshape _ hsize).at [0, t, k, l]) l := by
  set y₁ := y.reshape _ hsize
  have hview : y.view [1, seq, self.numKvHeads, self.headDim] = some y₁ := view_spec y hsize
  have hseq : source.shape.getD 1 0 = seq := by
    rw [hsrc]
    rfl
  cases rope with
  | none =>
    refine ⟨y₁.first, ?_, rfl, fun t ht k hk l hl => at_first y₁ (within₃ ht hk hl)⟩
    simp only [applyLayer, hseq, hx, hy, hview, bind, Except.bind, orRuntimeError]
    rfl
  | some r =>
    obtain ⟨hd, hcos, hsin⟩ := hrope r rfl
    obtain ⟨z, hz, hzshape, hzat⟩ := rotateWith_spec (· + ·) (x := y₁) rfl hd hcos hsin
    refine ⟨z.first, ?_, by rw [first, shape_build, hzshape]; rfl, fun t ht k hk l hl => ?_⟩
    · simp only [applyLayer, hseq, hx, hy, hview, bind, Except.bind, orRuntimeError, applyRope_eq, hz]
      rfl
    · rw [at_first z (hzshape ▸ within₃ ht hk hl), hzat 0 Nat.one_pos t ht k hk l hl]
      rfl

/-- **One target layer**: the mapped rows, split into heads and rotated. -/
theorem applyLayer_spec (gelu : R → R) {self : CrossModelKVMap R} {source : Tensor R} {n seq : ℕ}
    (hsrc : source.shape = [n, seq, self.numKvHeads, self.headDim]) {m : LayerMap R}
    {useResidual : Bool} {x y : Tensor R} (hx : design source m.sourceLayers = .ok x)
    (hy : m.apply gelu x useResidual = .ok y)
    (hyshape : y.shape = [seq, self.numKvHeads * self.headDim]) {rope : Option (RopeTables R)}
    (hrope : ∀ r, rope = some r → r.Fits seq self.headDim) :
    ∃ z, self.applyLayer gelu source m useResidual rope = .ok z ∧
      z.shape = [seq, self.numKvHeads, self.headDim] ∧
      ∀ t < seq, ∀ k < self.numKvHeads, ∀ l < self.headDim, z.at [t, k, l] =
        turned rope self.headDim t (fun l => y.at [t, k * self.headDim + l]) l := by
  have hsize : y.shape.prod = [1, seq, self.numKvHeads, self.headDim].prod := by
    rw [hyshape]
    simp
  obtain ⟨z, hz, hzshape, hzat⟩ := applyLayer_sized gelu hsrc hx hy hsize hrope
  refine ⟨z, hz, hzshape, fun t ht k hk l hl => ?_⟩
  have hat : ∀ l, (y.reshape _ hsize).at [0, t, k, l] = y.at [t, k * self.headDim + l] := by
    intro l
    refine at_reshape y hsize ?_
    rw [hyshape]
    simp [ravel]
  rw [hzat t ht k hk l hl]
  simp only [hat]

/-- `_apply` fills layer after layer with what its map gives. -/
theorem applyMaps_fill (gelu : R → R) (self : CrossModelKVMap R) (source : Tensor R)
    (maps : List (LayerMap R)) (useResidual : Bool) (rope : Option (RopeTables R)) :
    ∃ f : ℕ → Except TransferExc (Tensor R), self.applyMaps gelu source maps useResidual rope =
        fillLayers f (.build [maps.length, source.shape.getD 1 0, self.numKvHeads, self.headDim] fun _ => 0)
          maps.length ∧
      ∀ layer m, maps[layer]? = some m → f layer = self.applyLayer gelu source m useResidual rope :=
  ⟨_, rfl, fun layer m hm => by simp only [hm]⟩

/-- **All target layers.** -/
theorem applyMaps_spec (gelu : R → R) {self : CrossModelKVMap R} {source : Tensor R} {n seq : ℕ}
    (hsrc : source.shape = [n, seq, self.numKvHeads, self.headDim]) (maps : List (LayerMap R))
    (useResidual : Bool) (rope : Option (RopeTables R))
    (hmaps : ∀ m ∈ maps, ∃ z, self.applyLayer gelu source m useResidual rope = .ok z ∧
      z.shape = [seq, self.numKvHeads, self.headDim]) :
    ∃ out, self.applyMaps gelu source maps useResidual rope = .ok out ∧
      out.shape = [maps.length, seq, self.numKvHeads, self.headDim] ∧
      ∀ layer m z, maps[layer]? = some m → self.applyLayer gelu source m useResidual rope = .ok z →
        ∀ t < seq, ∀ k < self.numKvHeads, ∀ l < self.headDim,
          out.at [layer, t, k, l] = z.at [t, k, l] := by
  have hseq : source.shape.getD 1 0 = seq := by
    rw [hsrc]
    rfl
  obtain ⟨f, hfill, hf⟩ := applyMaps_fill gelu self source maps useResidual rope
  obtain ⟨out, hout, hshape, hat⟩ := fillLayers_spec (f := f)
    (.build [maps.length, seq, self.numKvHeads, self.headDim] fun _ => 0) rfl le_rfl
    fun layer hlayer => by
      rw [hf layer _ (List.getElem?_eq_getElem hlayer)]
      exact hmaps _ (List.getElem_mem hlayer)
  refine ⟨out, by rw [hfill, hseq]; exact hout, hshape, ?_⟩
  intro layer m z hm hz t ht k hk l hl
  have hlayer : layer < maps.length := (List.getElem?_eq_some_iff.1 hm).1
  exact hat layer hlayer z ((hf layer m hm).trans hz) _ (within₃ ht hk hl)

/-- If the loop over target layers returns, every layer did. -/
theorem applyMaps_ok (gelu : R → R) {self : CrossModelKVMap R} {source : Tensor R}
    {maps : List (LayerMap R)} {useResidual : Bool} {rope : Option (RopeTables R)} {out : Tensor R}
    (h : self.applyMaps gelu source maps useResidual rope = .ok out) :
    ∀ m ∈ maps, ∃ z, self.applyLayer gelu source m useResidual rope = .ok z := by
  intro m hm
  obtain ⟨layer, hlayer, rfl⟩ := List.getElem_of_mem hm
  obtain ⟨z, hz⟩ := fillLayers_ok h layer hlayer
  simp only [List.getElem?_eq_getElem hlayer] at hz
  exact ⟨z, hz⟩

/-- **The content keys** are the cached keys with their rotation undone. -/
theorem content_spec {k : Tensor R} {rope : RopeTables R} {n seq heads dim : ℕ}
    (hk : k.shape = [n, seq, heads, dim]) (hrope : n = 0 ∨ rope.Fits seq dim) :
    ∃ c, content k rope = .ok c ∧ c.shape = [n, seq, heads, dim] ∧
      ∀ s < n, ∀ t < seq, ∀ h < heads, ∀ l < dim, c.at [s, t, h, l] =
        rotated (· - ·) dim (fun l => rope.cos.at [t, l]) (fun l => rope.sin.at [t, l])
          (fun l => k.at [s, t, h, l]) l := by
  have hlen : k.shape.getD 0 0 = n := by
    rw [hk]
    rfl
  -- each layer taken out of its rotation by itself
  have hlayer : ∀ s < n, ∃ y, (do
      let y ← stripRope (k.select [s]) rope
      return y.first : Except TransferExc (Tensor R)) = .ok y ∧ y.shape = [seq, heads, dim] ∧
      ∀ t < seq, ∀ h < heads, ∀ l < dim, y.at [t, h, l] =
        rotated (· - ·) dim (fun l => rope.cos.at [t, l]) (fun l => rope.sin.at [t, l])
          (fun l => k.at [s, t, h, l]) l := by
    intro s hs
    obtain ⟨hd, hcos, hsin⟩ := hrope.resolve_left (by omega)
    have hsel : (k.select [s]).shape = [1, seq, heads, dim] := by
      rw [select, shape_build, hk]
      rfl
    obtain ⟨y, hy, hyshape, hyat⟩ := rotateWith_spec (· - ·) hsel hd hcos hsin
    refine ⟨y.first, ?_, by rw [first, shape_build, hyshape]; rfl, fun t ht h hh l hl => ?_⟩
    · rw [stripRope_eq, hy]
      rfl
    · rw [at_first y (hyshape ▸ within₃ ht hh hl), hyat 0 Nat.one_pos t ht h hh l hl]
      have hrow : ∀ l < dim, (k.select [s]).at [0, t, h, l] = k.at [s, t, h, l] := fun l hl =>
        at_select k Nat.one_pos (hk ▸ within₃ ht hh hl)
      exact rotated_congr _ _ _ hrow hl
  obtain ⟨c, hc, hshape, hat⟩ := fillLayers_spec (.build k.shape fun _ => 0) hk le_rfl
    fun s hs => by
      obtain ⟨y, hy, hyshape, -⟩ := hlayer s hs
      exact ⟨y, hy, hyshape⟩
  refine ⟨c, by rw [content, hlen]; exact hc, hshape, fun s hs t ht h hh l hl => ?_⟩
  obtain ⟨y, hy, hyshape, hyat⟩ := hlayer s hs
  rw [hat s hs y hy _ (within₃ ht hh hl), hyat t ht h hh l hl]

end CrossModelKVMap

end Layers

end DiSpec
