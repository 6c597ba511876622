/-
# Tensors in row-major order

A tensor is a shape and the list of its entries, the last axis running fastest.  `ravel` is the
position of an index in that list and `indices` lists the indices in the same order
(`indices_ravel`), so a tensor is determined by its entries (`ext_at`) and can be built from them
(`at_build`).

Rearranging is stated on entries: `select`, `narrow` and `swap` read other indices of the same tensor, and
`reshape` keeps the list and changes the shape, so an entry stays where `ravel` says
(`at_reshape`).  Arithmetic checks shapes and gives none where they do not match: `zipWith`
broadcasts, aligning shapes at their last axis, `matmul` multiplies vectors, matrices and batches of
matrices.  The shape of a result is a function of the shapes of the operands (`broadcast`,
`matmulShape`), whatever the entries are.
-/

import Mathlib.Algebra.BigOperators.Group.Finset.Basic
import Mathlib.Algebra.BigOperators.Ring.Finset
import Mathlib.Data.List.Forall2
import Mathlib.Data.List.GetD

/-- A shape and the entries in row-major order. -/
structure Tensor (α : Type) where
  shape : List ℕ
  data : List α
  size : data.length = shape.prod

namespace Tensor

/-- The position of an index in row-major order. -/
def ravel : List ℕ → List ℕ → ℕ
  | _ :: shape, i :: idx => i * shape.prod + ravel shape idx
  | _, _ => 0

/-- The index is one of a tensor of this shape. -/
def Within (idx shape : List ℕ) : Prop := List.Forall₂ (· < ·) idx shape

/-- All indices in row-major order. -/
def indices : List ℕ → List (List ℕ)
  | [] => [[]]
  | n :: shape => (List.range n).flatMap fun i => (indices shape).map (i :: ·)

theorem within_nil : Within [] [] := List.Forall₂.nil

theorem within_cons {i n : ℕ} {idx shape : List ℕ} :
    Within (i :: idx) (n :: shape) ↔ i < n ∧ Within idx shape := List.forall₂_cons

/-- Entry `j` of block `i` of a list of blocks of `m`. -/
theorem getElem?_flatMap_block {β γ : Type} (f : β → List γ) {m : ℕ} (l : List β)
    (hm : ∀ x ∈ l, (f x).length = m) (i : ℕ) {j : ℕ} (hj : j < m) :
    (l.flatMap f)[i * m + j]? = l[i]?.bind fun x => (f x)[j]? := by
  induction l generalizing i with
  | nil => simp
  | cons x l ih =>
    have hx : (f x).length = m := hm x List.mem_cons_self
    rw [List.flatMap_cons]
    cases i with
    | zero =>
      rw [Nat.zero_mul, Nat.zero_add, List.getElem?_append_left (by omega)]
      rfl
    | succ i =>
      rw [List.getElem?_append_right (by rw [hx, Nat.succ_mul]; omega), hx,
        show (i + 1) * m + j - m = i * m + j by rw [Nat.succ_mul]; omega]
      exact ih (fun y hy => hm y (List.mem_cons_of_mem _ hy)) i

@[simp] theorem length_indices (shape : List ℕ) : (indices shape).length = shape.prod := by
  induction shape with
  | nil => rfl
  | cons n shape ih => simp [indices, List.length_flatMap, ih]

theorem ravel_lt {idx shape : List ℕ} (h : Within idx shape) : ravel shape idx < shape.prod := by
  induction h with
  | nil => exact Nat.one_pos
  | @cons i n idx shape hi _ ih =>
    rw [ravel, List.prod_cons]
    calc i * shape.prod + ravel shape idx < i * shape.prod + shape.prod := by omega
      _ = (i + 1) * shape.prod := (Nat.succ_mul _ _).symm
      _ ≤ n * shape.prod := Nat.mul_le_mul_right _ hi

/-- **An index stands at its position.** -/
theorem indices_ravel {idx shape : List ℕ} (h : Within idx shape) :
    (indices shape)[ravel shape idx]? = some idx := by
  induction h with
  | nil => rfl
  | @cons i n idx shape hi hidx ih =>
    rw [indices, ravel, getElem?_flatMap_block _ _ (fun x _ => by simp) i (ravel_lt hidx),
      List.getElem?_range hi, Option.bind_some, List.getElem?_map, ih]
    rfl

theorem within_of_mem {idx shape : List ℕ} (h : idx ∈ indices shape) : Within idx shape := by
  induction shape generalizing idx with
  | nil =>
    rw [List.mem_singleton.1 h]
    exact within_nil
  | cons n shape ih =>
    obtain ⟨i, hi, h⟩ := List.mem_flatMap.1 h
    obtain ⟨idx', hidx, rfl⟩ := List.mem_map.1 h
    exact within_cons.2 ⟨List.mem_range.1 hi, ih hidx⟩

/-! ### Entries -/

section Entries

variable {α : Type} [Zero α]

/-- The entry at an index. -/
def «at» (t : Tensor α) (idx : List ℕ) : α := t.data.getD (ravel t.shape idx) 0

/-- The tensor with the given entries. -/
def build (shape : List ℕ) (f : List ℕ → α) : Tensor α := ⟨shape, (indices shape).map f, by simp⟩

omit [Zero α] in
@[simp] theorem shape_build (shape : List ℕ) (f : List ℕ → α) : (build shape f).shape = shape := rfl

theorem at_build {shape idx : List ℕ} (f : List ℕ → α) (h : Within idx shape) :
    (build shape f).at idx = f idx := by
  rw [Tensor.at, List.getD_eq_getElem?_getD]
  show (((indices shape).map f)[ravel shape idx]?).getD 0 = f idx
  rw [List.getElem?_map, indices_ravel h]
  rfl

/-- **A tensor is its entries.** -/
theorem build_at (t : Tensor α) : build t.shape t.at = t := by
  obtain ⟨shape, data, size⟩ := t
  have hdata : (indices shape).map (Tensor.at ⟨shape, data, size⟩) = data := by
    refine List.ext_getElem? fun n => ?_
    rw [List.getElem?_map]
    by_cases hn : n < shape.prod
    · have hlen : n < (indices shape).length := by simpa using hn
      have hin := within_of_mem (List.getElem_mem hlen)
      have hpos : ravel shape (indices shape)[n] = n := by
        have hnodup : (indices shape).Nodup := by
          clear hlen hin hn size data
          induction shape with
          | nil => exact List.nodup_singleton _
          | cons k shape ih =>
            rw [indices, List.nodup_flatMap]
            refine ⟨fun i _ => ih.map fun _ _ h => (List.cons.inj h).2, ?_⟩
            refine List.nodup_range.imp fun hne => ?_
            intro x hx hy
            obtain ⟨_, _, rfl⟩ := List.mem_map.1 hx
            obtain ⟨_, _, heq⟩ := List.mem_map.1 hy
            exact hne (List.cons.inj heq).1.symm
        have hlt : ravel shape (indices shape)[n] < (indices shape).length := by
          simpa using ravel_lt hin
        have heq := indices_ravel hin
        rw [List.getElem?_eq_getElem hlt] at heq
        exact (hnodup.getElem_inj_iff).1 (Option.some.inj heq)
      rw [List.getElem?_eq_getElem hlen, Option.map_some, Tensor.at]
      show some (data.getD (ravel shape (indices shape)[n]) 0) = _
      rw [hpos, List.getD_eq_getElem _ _ (by omega), List.getElem?_eq_getElem (by omega)]
    · rw [List.getElem?_eq_none (by simpa using hn), List.getElem?_eq_none (by omega)]
      rfl
  simp only [build, hdata]

/-- **Tensors of one shape with the same entries are equal.** -/
theorem ext_at {t t' : Tensor α} (hshape : t.shape = t'.shape)
    (h : ∀ idx, Within idx t.shape → t.at idx = t'.at idx) : t = t' := by
  rw [← build_at t, ← build_at t', ← hshape]
  have hdata : (indices t.shape).map t.at = (indices t.shape).map t'.at :=
    List.map_congr_left fun idx hidx => h idx (within_of_mem hidx)
  simp only [build, hdata]

/-! ### Rearranging -/

/-- The same entries in another shape of the same size. -/
def reshape (t : Tensor α) (shape : List ℕ) (h : t.shape.prod = shape.prod) : Tensor α :=
  ⟨shape, t.data, t.size.trans h⟩

omit [Zero α] in
@[simp] theorem shape_reshape (t : Tensor α) (shape : List ℕ) (h : t.shape.prod = shape.prod) :
    (t.reshape shape h).shape = shape := rfl

/-- An entry stays at its position. -/
theorem at_reshape (t : Tensor α) {shape idx idx' : List ℕ} (h : t.shape.prod = shape.prod)
    (hpos : ravel shape idx = ravel t.shape idx') : (t.reshape shape h).at idx = t.at idx' := by
  rw [Tensor.at, Tensor.at, ← hpos]
  rfl

/-- Another shape, if it has the same size. -/
def view (t : Tensor α) (shape : List ℕ) : Option (Tensor α) :=
  if h : t.shape.prod = shape.prod then some (t.reshape shape h) else none

/-- `n` rows of as many entries as it takes: with no row the length of a row is not determined. -/
def rows (t : Tensor α) (n : ℕ) : Option (Tensor α) :=
  if n = 0 then none else t.view [n, t.shape.prod / n]

omit [Zero α] in
theorem view_spec (t : Tensor α) {shape : List ℕ} (h : t.shape.prod = shape.prod) :
    t.view shape = some (t.reshape shape h) := dif_pos h

omit [Zero α] in
/-- The rows of a tensor whose size they divide. -/
theorem rows_spec (t : Tensor α) {n m : ℕ} (hn : 0 < n) (h : t.shape.prod = [n, m].prod) :
    t.rows n = some (t.reshape [n, m] h) := by
  have hm : t.shape.prod / n = m := by
    rw [h, List.prod_cons, List.prod_singleton, Nat.mul_div_cancel_left _ hn]
  rw [rows, if_neg (by omega), hm, view_spec t h]

/-- The first entry along the first axis. -/
def first (t : Tensor α) : Tensor α := build t.shape.tail fun idx => t.at (0 :: idx)

theorem at_first (t : Tensor α) {idx : List ℕ} (h : Within idx t.shape.tail) :
    t.first.at idx = t.at (0 :: idx) := at_build _ h

/-- The entries along the first axis at the places `ls`. -/
def select (t : Tensor α) (ls : List ℕ) : Tensor α :=
  build (ls.length :: t.shape.tail) fun idx => t.at (ls.getD idx.headI 0 :: idx.tail)

theorem at_select (t : Tensor α) {ls : List ℕ} {i : ℕ} {idx : List ℕ} (hi : i < ls.length)
    (h : Within idx t.shape.tail) : (t.select ls).at (i :: idx) = t.at (ls.getD i 0 :: idx) :=
  at_build _ (within_cons.2 ⟨hi, h⟩)

/-- `len` entries from `start` on along the axis `dim`. -/
def narrow (t : Tensor α) (dim start len : ℕ) : Tensor α :=
  build (t.shape.set dim len) fun idx => t.at (idx.modify dim (start + ·))

theorem at_narrow (t : Tensor α) {dim start len : ℕ} {idx : List ℕ}
    (h : Within idx (t.shape.set dim len)) :
    (t.narrow dim start len).at idx = t.at (idx.modify dim (start + ·)) := at_build _ h

/-- The first two axes exchanged. -/
def swap (t : Tensor α) : Tensor α :=
  match t.shape with
  | a :: b :: rest => build (b :: a :: rest) fun
    | i :: j :: idx => t.at (j :: i :: idx)
    | _ => 0
  | _ => t

theorem shape_swap (t : Tensor α) {a b : ℕ} {rest : List ℕ} (ht : t.shape = a :: b :: rest) :
    t.swap.shape = b :: a :: rest := by
  unfold swap
  split
  next a' b' rest' heq =>
    rw [ht] at heq
    obtain ⟨rfl, rfl, rfl⟩ : a = a' ∧ b = b' ∧ rest = rest' := by simpa using heq
    rfl
  next hne => exact absurd ht (hne a b rest)

theorem at_swap (t : Tensor α) {a b : ℕ} {rest : List ℕ} (ht : t.shape = a :: b :: rest) {i j : ℕ}
    {idx : List ℕ} (hi : i < b) (hj : j < a) (h : Within idx rest) :
    t.swap.at (i :: j :: idx) = t.at (j :: i :: idx) := by
  unfold swap
  split
  next a' b' rest' heq =>
    rw [ht] at heq
    obtain ⟨rfl, rfl, rfl⟩ : a = a' ∧ b = b' ∧ rest = rest' := by simpa using heq
    exact at_build _ (within_cons.2 ⟨hi, within_cons.2 ⟨hj, h⟩⟩)
  next hne => exact absurd ht (hne a b rest)

/-- Every entry mapped. -/
def map {β : Type} (f : α → β) (t : Tensor α) : Tensor β := ⟨t.shape, t.data.map f, by simp [t.size]⟩

theorem at_map {β : Type} [Zero β] (f : α → β) {t : Tensor α} {idx : List ℕ} (h : Within idx t.shape) :
    (t.map f).at idx = f (t.at idx) := by
  have hlt : ravel t.shape idx < t.data.length := (ravel_lt h).trans_eq t.size.symm
  rw [Tensor.at, Tensor.at, List.getD_eq_getElem _ _ hlt]
  show (t.data.map f).getD (ravel t.shape idx) 0 = _
  rw [List.getD_eq_getElem _ _ (hlt.trans_eq (List.length_map f).symm), List.getElem_map]

/-! ### Arithmetic -/

/-- The shape two shapes broadcast to, last axis first. -/
def broadcastRev : List ℕ → List ℕ → Option (List ℕ)
  | [], bs => some bs
  | as, [] => some as
  | a :: as, b :: bs =>
    if a = b ∨ b = 1 then (broadcastRev as bs).map (a :: ·)
    else if a = 1 then (broadcastRev as bs).map (b :: ·)
    else none

/-- The shape two shapes broadcast to. -/
def broadcast (a b : List ℕ) : Option (List ℕ) := (broadcastRev a.reverse b.reverse).map List.reverse

/-- The index that an index of the broadcast shape reads. -/
def project (shape idx : List ℕ) : List ℕ :=
  List.zipWith (fun n i => if n = 1 then 0 else i) shape (idx.drop (idx.length - shape.length))

/-- An operation on the entries of two tensors, broadcast. -/
def zipWith (op : α → α → α) (t u : Tensor α) : Option (Tensor α) :=
  (broadcast t.shape u.shape).map fun shape =>
    build shape fun idx => op (t.at (project t.shape idx)) (u.at (project u.shape idx))

theorem broadcastRev_self (s : List ℕ) : broadcastRev s s = some s := by
  induction s with
  | nil => rfl
  | cons a s ih => rw [broadcastRev, if_pos (Or.inl rfl), ih]; rfl

theorem broadcast_self (s : List ℕ) : broadcast s s = some s := by
  rw [broadcast, broadcastRev_self, Option.map_some, List.reverse_reverse]

theorem broadcastRev_comm (a b : List ℕ) : broadcastRev a b = broadcastRev b a := by
  induction a generalizing b with
  | nil => cases b <;> rfl
  | cons x a ih =>
    cases b with
    | nil => rfl
    | cons y b =>
      rw [broadcastRev, broadcastRev, ih]
      rcases eq_or_ne x y with rfl | hxy
      · rfl
      · by_cases hx : x = 1 <;> by_cases hy : y = 1 <;> simp_all [Ne.symm hxy]

theorem broadcast_comm (a b : List ℕ) : broadcast a b = broadcast b a := by
  rw [broadcast, broadcast, broadcastRev_comm]

/-- An index of the shape itself is read as it is. -/
theorem project_self {idx shape : List ℕ} (h : Within idx shape) : project shape idx = idx := by
  rw [project, show idx.length - shape.length = 0 by rw [List.Forall₂.length_eq h]; omega,
    List.drop_zero]
  induction h with
  | nil => rfl
  | @cons i n idx shape hi _ ih =>
    rw [List.zipWith_cons_cons, ih]
    split
    next hn =>
      subst hn
      rw [Nat.lt_one_iff.1 hi]
    next => rfl

/-- **The same shape on both sides.** -/
theorem zipWith_same (op : α → α → α) {t u : Tensor α} (h : u.shape = t.shape) :
    ∃ s, zipWith op t u = some s ∧ s.shape = t.shape ∧
      ∀ idx, Within idx t.shape → s.at idx = op (t.at idx) (u.at idx) := by
  refine ⟨build t.shape fun idx => op (t.at (project t.shape idx)) (u.at (project u.shape idx)),
    by rw [zipWith, h, broadcast_self, Option.map_some], rfl, fun idx hidx => ?_⟩
  rw [at_build _ hidx, h, project_self hidx]

/-- `t[i] = u`: the entries of `u`, broadcast, at place `i` of the first axis. -/
def assign (t : Tensor α) (i : ℕ) (u : Tensor α) : Option (Tensor α) :=
  if broadcast u.shape t.shape.tail = some t.shape.tail then
    some (build t.shape fun idx =>
      if idx.headI = i then u.at (project u.shape idx.tail) else t.at idx)
  else none

/-- **An assignment of the right shape.** -/
theorem assign_spec {t u : Tensor α} {n : ℕ} {rest : List ℕ} (ht : t.shape = n :: rest)
    (hu : u.shape = rest) (i : ℕ) : ∃ s, t.assign i u = some s ∧ s.shape = n :: rest ∧
      ∀ j < n, ∀ idx, Within idx rest → s.at (j :: idx) = if j = i then u.at idx else t.at (j :: idx) := by
  refine ⟨build t.shape fun idx =>
      if idx.headI = i then u.at (project u.shape idx.tail) else t.at idx, ?_, ht, fun j hj idx hidx => ?_⟩
  · rw [assign, ht, hu, List.tail_cons, if_pos (broadcast_self rest)]
  · rw [at_build _ (ht ▸ within_cons.2 ⟨hj, hidx⟩), hu]
    simp only [List.headI_cons, List.tail_cons, project_self hidx]

/-- The shape of a product.  The last two axes are those of matrices, the others of batches, which are
broadcast.  A vector is one row on the left and one column on the right, an axis that the product does
not have. -/
def matmulShape (s s' : List ℕ) : Option (List ℕ) :=
  match s.reverse, s'.reverse with
  | [n], [n'] => if n = n' then some [] else none
  | [n], p :: n' :: bs => if n = n' then some (p :: bs).reverse else none
  | n :: m :: as, [n'] => if n = n' then some (m :: as).reverse else none
  | n :: m :: as, p :: n' :: bs =>
    if n = n' then (broadcastRev as bs).map fun cs => (p :: m :: cs).reverse else none
  | _, _ => none

/-- The index that a product reads of a factor: its own of the batch, and the last two places.  Of a
vector it reads place `k`. -/
def factorIndex (shape batch : List ℕ) (k : ℕ) (places : List ℕ) : List ℕ :=
  if shape.length = 1 then [k] else project shape.dropLast.dropLast batch ++ places

/-- The product of vectors, matrices or batches of matrices. -/
def matmul {α : Type} [NonUnitalNonAssocSemiring α] (t u : Tensor α) : Option (Tensor α) :=
  (matmulShape t.shape u.shape).map fun shape => build shape fun idx =>
    -- what the index has behind the batch: a row and a column, but for those of vectors
    let places := (if t.shape.length = 1 then 0 else 1) + if u.shape.length = 1 then 0 else 1
    let batch := idx.take (idx.length - places)
    let rest := idx.drop (idx.length - places)
    ∑ k ∈ Finset.range (t.shape.getLastD 0),
      t.at (factorIndex t.shape batch k [rest.headI, k]) *
        u.at (factorIndex u.shape batch k [k, rest.getLastD 0])

/-- The transpose of a matrix; a vector or a scalar is its own. -/
def transpose (t : Tensor α) : Option (Tensor α) := if t.shape.length ≤ 2 then some t.swap else none

theorem shape_zipWith (op : α → α → α) (t u : Tensor α) :
    (zipWith op t u).map shape = broadcast t.shape u.shape := by
  rw [zipWith, Option.map_map]
  exact Option.map_id'

theorem shape_transpose (t : Tensor α) :
    t.transpose.map shape = if t.shape.length ≤ 2 then some t.shape.reverse else none := by
  unfold transpose
  split
  next h =>
    rw [Option.map_some]
    rcases hs : t.shape with _ | ⟨a, _ | ⟨b, _ | ⟨c, s⟩⟩⟩
    · unfold swap
      split <;> simp_all
    · unfold swap
      split <;> simp_all
    · rw [shape_swap t hs]
      rfl
    · rw [hs] at h
      simp only [List.length_cons] at h
      omega
  next => rfl

end Entries

section Matmul

variable {α : Type} [NonUnitalNonAssocSemiring α] {t u : Tensor α}

theorem shape_matmul (t u : Tensor α) : (matmul t u).map shape = matmulShape t.shape u.shape := by
  rw [matmul, Option.map_map]
  exact Option.map_id'

/-- **Matrices with a common dimension multiply.** -/
theorem matmul_spec {m n p : ℕ} (ht : t.shape = [m, n]) (hu : u.shape = [n, p]) :
    ∃ s, matmul t u = some s ∧ s.shape = [m, p] ∧ ∀ i < m, ∀ j < p,
      s.at [i, j] = ∑ k ∈ Finset.range n, t.at [i, k] * u.at [k, j] := by
  have hshape : matmulShape [m, n] [n, p] = some [m, p] := by simp [matmulShape, broadcastRev]
  rw [matmul, ht, hu, hshape]
  refine ⟨_, rfl, rfl, fun i hi j hj => ?_⟩
  rw [at_build _ (within_cons.2 ⟨hi, within_cons.2 ⟨hj, within_nil⟩⟩)]
  rfl

end Matmul

end Tensor
