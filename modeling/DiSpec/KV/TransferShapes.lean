/-
# Validated maps and the shapes they are applied to

`dispec/kv/transfer.py`: `CrossModelKVMap._check` against `LayerMap.apply`.

`_check` looks at the weight if there is one and else at the outer dimensions of the factors;
`apply` uses the factors if there are any, and the residual.  What acceptance says of each layer
map is `LayerMap.Checked` (`init_ok`).  Neither the inner dimension of the factors, nor factors
stored beside a weight, nor the hidden size and the bias of the residual are looked at.

What `apply` returns has a shape that depends on shapes alone (`LayerMap.shapeOf_apply`), so whether it
can be split into heads is a condition on the shapes of the stored tensors (`LayerMap.Fits`; of
matrices, `LayerMap.fits_iff`).  A map that was accepted returns on every source KV, in both
residual modes, with the matrices that were checked, exactly when these compose as well
(`LayerMap.Composes`) and heads can be halved (`accepted_applies_iff`).
-/

import DiSpec.KV.TransferSpec

namespace DiSpec

open Tensor

/-! ### What `_check` accepts -/

theorem bind_ok {α β : Type} {x : Except TransferExc α} {f : α → Except TransferExc β} {b : β} :
    x >>= f = .ok b ↔ ∃ a, x = .ok a ∧ f a = .ok b := by
  cases x with
  | error e => exact ⟨nofun, fun ⟨_, h, _⟩ => nomatch h⟩
  | ok a => exact ⟨fun h => ⟨a, rfl, h⟩, fun ⟨_, h, hf⟩ => Except.ok.inj h ▸ hf⟩

/-- A check that raises, and what follows it. -/
theorem guard_ok {α β : Type} {c : Prop} [Decidable c] {e : TransferExc}
    {f : α → Except TransferExc β} {y : Except TransferExc β} {b : β} :
    (if c then throw e >>= f else y) = .ok b ↔ ¬ c ∧ y = .ok b := by
  split
  next hc => exact ⟨nofun, fun h => absurd hc h.1⟩
  next hc => exact ⟨fun h => ⟨hc, h⟩, fun h => h.2⟩

section Checked

variable {R : Type}

/-- What `_check` accepts of a layer map. -/
structure LayerMap.Checked (m : LayerMap R) (nSrc kvDim : ℕ) : Prop where
  layers : ∀ s ∈ m.sourceLayers, 0 ≤ s ∧ s < nSrc
  shape : CrossModelKVMap.checkedShape m = .ok [m.sourceLayers.length * kvDim, kvDim]
  bias : m.bias.shape = [kvDim]
  residual : ∀ downW downB upW, m.residual = some (downW, downB, upW) →
    downW.shape[1]? = some (m.sourceLayers.length * kvDim) ∧ upW.shape[0]? = some kvDim

/-- Without factors the weight was looked at. -/
theorem LayerMap.Checked.weight_of_factors {m : LayerMap R} {nSrc kvDim : ℕ} (h : m.Checked nSrc kvDim)
    (hf : m.factors = none) : ∃ w, m.weight = some w ∧ w.shape = [m.sourceLayers.length * kvDim, kvDim] := by
  have hshape := h.shape
  rw [CrossModelKVMap.checkedShape] at hshape
  cases hw : m.weight with
  | some w =>
    rw [hw] at hshape
    exact ⟨w, rfl, Except.ok.inj hshape⟩
  | none =>
    rw [hw, hf] at hshape
    cases hshape

namespace CrossModelKVMap

theorem checkLayer_ok {kind : String} {nSrc kvDim layer : ℕ} {m : LayerMap R}
    (h : checkLayer kind nSrc kvDim layer m = .ok ()) : m.Checked nSrc kvDim := by
  unfold checkLayer at h
  obtain ⟨hbad, hrest⟩ := guard_ok.1 h
  obtain ⟨shape, hshape, hrest⟩ := bind_ok.1 hrest
  obtain ⟨hfits, hres⟩ := guard_ok.1 hrest
  obtain ⟨hs, hb⟩ := not_or.1 hfits
  refine ⟨fun s hsrc => ?_, not_not.1 hs ▸ hshape, not_not.1 hb, fun downW downB upW hsome => ?_⟩
  · by_contra hout
    exact List.filter_eq_nil_iff.1 (not_not.1 hbad) s hsrc (decide_eq_true hout)
  · rw [hsome] at hres
    cases hd : downW.shape[1]? with
    | none =>
      simp only [hd] at hres
      cases hres
    | some d =>
      simp only [hd] at hres
      obtain ⟨hdim, hup⟩ := guard_ok.1 hres
      cases hu : upW.shape[0]? with
      | none =>
        simp only [hu] at hup
        cases hup
      | some u =>
        simp only [hu] at hup
        split at hup
        next => cases hup
        next hne => exact ⟨congrArg some (not_not.1 hdim), congrArg some (not_not.1 hne)⟩

theorem checkLayers_ok {kind : String} {nSrc kvDim layer : ℕ} {maps : List (LayerMap R)}
    (h : checkLayers kind nSrc kvDim layer maps = .ok ()) : ∀ m ∈ maps, m.Checked nSrc kvDim := by
  induction maps generalizing layer with
  | nil => exact fun m hm => absurd hm List.not_mem_nil
  | cons m maps ih =>
    obtain ⟨⟨⟩, hm, hrest⟩ := bind_ok.1 h
    intro m' hm'
    rcases List.mem_cons.1 hm' with rfl | hm'
    · exact checkLayer_ok hm
    · exact ih hrest m' hm'

theorem checkKind_ok {kind : String} {nSrc nTgt kvDim : ℕ} {maps : List (LayerMap R)}
    (h : checkKind kind nSrc nTgt kvDim maps = .ok ()) :
    maps.length = nTgt ∧ ∀ m ∈ maps, m.Checked nSrc kvDim := by
  obtain ⟨hlen, h⟩ := guard_ok.1 h
  exact ⟨not_not.1 hlen, checkLayers_ok h⟩

theorem checkConfigs_ok {src tgt : ModelConfig} (h : checkConfigs src tgt = .ok ()) :
    src.numKeyValueHeads = tgt.numKeyValueHeads ∧ headDimOf src = headDimOf tgt ∧
      src.vocabSize = tgt.vocabSize := by
  obtain ⟨ds, hds, h⟩ := bind_ok.1 h
  obtain ⟨dt, hdt, h⟩ := bind_ok.1 h
  rw [hds, hdt]
  obtain ⟨⟨⟩, h₁, hrest⟩ := bind_ok.1 h
  obtain ⟨⟨⟩, h₂, hrest⟩ := bind_ok.1 hrest
  obtain ⟨⟨⟩, h₃, -⟩ := bind_ok.1 hrest
  have hsame : ∀ {a b : ℕ} {e : TransferExc},
      (if a ≠ b then throw e else pure () : Except TransferExc Unit) = .ok () → a = b := by
    intro a b e hok
    by_contra hne
    rw [if_pos hne] at hok
    cases hok
  exact ⟨hsame h₁, congrArg _ (hsame h₂), hsame h₃⟩

/-- What `__init__` accepts: the models agree, and each layer map is accepted by `_check`. -/
structure Accepted (kvMap : CrossModelKVMap R) (src tgt : ModelConfig) : Prop where
  heads : kvMap.numKvHeads = src.numKeyValueHeads
  targetHeads : kvMap.numKvHeads = tgt.numKeyValueHeads
  dims : headDimOf src = .ok kvMap.headDim ∧ headDimOf tgt = .ok kvMap.headDim
  keysLength : kvMap.keys.length = tgt.numHiddenLayers
  valuesLength : kvMap.values.length = tgt.numHiddenLayers
  checked : ∀ m ∈ kvMap.keys ++ kvMap.values,
    m.Checked src.numHiddenLayers (kvMap.numKvHeads * kvMap.headDim)

/-- **Construction** keeps the given maps and accepts them. -/
theorem init_ok {keys values : List (LayerMap R)} {src tgt : ModelConfig} {self : CrossModelKVMap R}
    (h : init keys values src tgt = .ok self) :
    self.keys = keys ∧ self.values = values ∧ self.Accepted src tgt := by
  obtain ⟨headDim, hdim, h₁⟩ := bind_ok.1 h
  obtain ⟨⟨⟩, hcheck, h₂⟩ := bind_ok.1 h₁
  obtain rfl := Except.ok.inj h₂
  obtain ⟨⟨⟩, hconfigs, h₃⟩ := bind_ok.1 hcheck
  obtain ⟨⟨⟩, hkeys, hvalues⟩ := bind_ok.1 h₃
  obtain ⟨hheads, hdims, -⟩ := checkConfigs_ok hconfigs
  obtain ⟨hklen, hk⟩ := checkKind_ok hkeys
  obtain ⟨hvlen, hv⟩ := checkKind_ok hvalues
  refine ⟨rfl, rfl, hheads.symm, rfl, ⟨hdims.trans hdim, hdim⟩, hklen, hvlen, fun m hm => ?_⟩
  rcases List.mem_append.1 hm with hm | hm
  · exact hk m hm
  · exact hv m hm

end CrossModelKVMap

end Checked

/-! ### What `apply` needs -/

section Needs

variable {R : Type} [Ring R]

theorem orRuntimeError_ok {α : Type} {o : Option α} {a : α} (h : orRuntimeError o = .ok a) : o = some a := by
  cases o with
  | none => cases h
  | some a' => exact congrArg some (Except.ok.inj h)

/-- The shape of what a step returns. -/
def shapeOf (r : Except TransferExc (Tensor R)) : Option (List ℕ) := r.toOption.map shape

omit [Ring R] in
theorem shapeOf_eq_some {r : Except TransferExc (Tensor R)} {s : List ℕ} :
    shapeOf r = some s ↔ ∃ y, r = .ok y ∧ y.shape = s := by
  cases r with
  | error e => exact ⟨nofun, fun ⟨_, h, _⟩ => nomatch h⟩
  | ok y => exact ⟨fun h => ⟨y, rfl, Option.some.inj h⟩, fun ⟨_, h, hs⟩ => Except.ok.inj h ▸ congrArg some hs⟩

omit [Ring R] in
theorem shapeOf_orRuntimeError (o : Option (Tensor R)) : shapeOf (orRuntimeError o) = o.map shape := by
  cases o <;> rfl

omit [Ring R] in
/-- The shape of a sequence of steps. -/
theorem shapeOf_bind (r : Except TransferExc (Tensor R)) {f : Tensor R → Except TransferExc (Tensor R)}
    {shapes : List ℕ → Option (List ℕ)} (h : ∀ y, shapeOf (f y) = shapes y.shape) :
    shapeOf (r >>= f) = (shapeOf r).bind shapes := by
  cases r with
  | error e => rfl
  | ok y => exact h y

/-- The shape of `F.linear`. -/
def linearShape (s w : List ℕ) (b : Option (List ℕ)) : Option (List ℕ) :=
  (if w.length ≤ 2 then some w.reverse else none).bind fun wt =>
    (matmulShape s wt).bind fun y =>
      match b with
      | none => some y
      | some b => if wt.length = 2 ∧ broadcast b y = some y then some y else none

theorem shapeOf_linear (x w : Tensor R) (b : Option (Tensor R)) :
    shapeOf (linear x w b) = linearShape x.shape w.shape (b.map shape) := by
  unfold linear linearShape
  rw [← shape_transpose, ← shapeOf_orRuntimeError]
  refine shapeOf_bind _ fun wt => ?_
  rw [← shape_matmul, ← shapeOf_orRuntimeError]
  refine shapeOf_bind _ fun y => ?_
  cases b with
  | none => rfl
  | some b =>
    simp only [Option.map_some]
    split
    next h => rw [shapeOf_orRuntimeError, shape_zipWith, broadcast_comm, h.2]
    next => rfl

omit [Ring R] in
/-- The width of rows to which a row of `p` entries, and perhaps rows of `p`, were added: if the sum
has the size of rows of `p`, the width was `p` or 1. -/
theorem width_of_size {n p p' : ℕ} (hn : 0 < n) {s₀ s : List ℕ} (hs₀ : broadcast [n, p'] [p] = some s₀)
    (hs : s = s₀ ∨ broadcast s₀ [n, p] = some s) (hsize : s.prod = n * p) : p' = p ∨ p' = 1 := by
  by_contra hne
  obtain ⟨hp, hone⟩ := not_or.1 hne
  have hp1 : p = 1 := by
    by_contra hp1
    simp [broadcast, broadcastRev, hp, hp1, hone] at hs₀
  subst hp1
  obtain rfl : s₀ = [n, p'] := by
    simpa [broadcast, broadcastRev] using hs₀.symm
  obtain rfl : s = [n, p'] := by
    rcases hs with hs | hs
    · exact hs
    · simpa [broadcast, broadcastRev] using hs.symm
  rw [List.prod_cons, List.prod_singleton] at hsize
  exact hone (Nat.eq_of_mul_eq_mul_left hn hsize)

omit [Ring R] in
theorem matmulShape_matrices (n q q' p : ℕ) :
    matmulShape [n, q] [q', p] = if q = q' then some [n, p] else none := by
  simp [matmulShape, broadcastRev]

omit [Ring R] in
theorem matmulShape_vector (n q q' : ℕ) : matmulShape [n, q] [q'] = if q = q' then some [n] else none := by
  simp [matmulShape]

omit [Ring R] in
/-- With a bias `F.linear` of rows takes a matrix with as many columns, and a bias that fits the rows. -/
theorem of_linearShape_bias {n q : ℕ} {w b y : List ℕ} (h : linearShape [n, q] w (some b) = some y) :
    ∃ p, w = [p, q] ∧ y = [n, p] ∧ broadcast b [n, p] = some [n, p] := by
  rcases w with _ | ⟨a, _ | ⟨c, _ | ⟨d, w⟩⟩⟩
  · simp [linearShape, matmulShape] at h
  · by_cases hq : q = a <;> simp [linearShape, matmulShape_vector, hq] at h
  · by_cases hq : q = c
    · by_cases hb : broadcast b [n, a] = some [n, a]
      · simp [linearShape, matmulShape_matrices, hq, hb] at h
        exact ⟨a, by rw [hq], h.symm, hb⟩
      · simp [linearShape, matmulShape_matrices, hq, hb] at h
    · simp [linearShape, matmulShape_matrices, hq] at h
  · simp [linearShape] at h

omit [Ring R] in
/-- Without one it takes a vector too. -/
theorem of_linearShape {n q : ℕ} {w y : List ℕ} (h : linearShape [n, q] w none = some y) :
    (∃ p, w = [p, q] ∧ y = [n, p]) ∨ w = [q] ∧ y = [n] := by
  rcases w with _ | ⟨a, _ | ⟨c, _ | ⟨d, w⟩⟩⟩
  · simp [linearShape, matmulShape] at h
  · by_cases hq : q = a
    · simp [linearShape, matmulShape_vector, hq] at h
      exact Or.inr ⟨by rw [hq], h.symm⟩
    · simp [linearShape, matmulShape_vector, hq] at h
  · by_cases hq : q = c
    · simp [linearShape, matmulShape_matrices, hq] at h
      exact Or.inl ⟨a, by rw [hq], h.symm⟩
    · simp [linearShape, matmulShape_matrices, hq] at h
  · simp [linearShape] at h

omit [Ring R] in
theorem linearShape_matrix {n q p : ℕ} {b : Option (List ℕ)}
    (hb : ∀ s, b = some s → broadcast s [n, p] = some [n, p]) : linearShape [n, q] [p, q] b = some [n, p] := by
  cases b with
  | none => simp [linearShape, matmulShape_matrices]
  | some s => simp [linearShape, matmulShape_matrices, hb s rfl]

omit [Ring R] in
theorem broadcast_row (n p : ℕ) : broadcast [n, p] [p] = some [n, p] := by simp [broadcast, broadcastRev]

namespace LayerMap

/-- The shape of the product that `apply` begins with. -/
def productShape (m : LayerMap R) (s : List ℕ) : Option (List ℕ) :=
  match m.factors with
  | some (left, right) => (matmulShape s left.shape).bind (matmulShape · right.shape)
  | none => m.weight.bind fun w => matmulShape s w.shape

/-- The shape of what `apply` returns: it is a matter of the shapes alone. -/
def applyShape (m : LayerMap R) (s : List ℕ) (useResidual : Bool) : Option (List ℕ) :=
  ((m.productShape s).bind (broadcast · m.bias.shape)).bind fun y =>
    match useResidual, m.residual with
    | true, some (downW, downB, upW) =>
      ((linearShape s downW.shape (some downB.shape)).bind (linearShape · upW.shape none)).bind (broadcast y)
    | _, _ => some y

theorem shapeOf_product (m : LayerMap R) (x : Tensor R) : shapeOf (m.product x) = m.productShape x.shape := by
  unfold product productShape
  cases m.factors with
  | some lr =>
    simp only
    rw [← shape_matmul, ← shapeOf_orRuntimeError]
    refine shapeOf_bind _ fun y => ?_
    rw [shapeOf_orRuntimeError, shape_matmul]
  | none =>
    cases m.weight with
    | some w => exact (shapeOf_orRuntimeError _).trans (shape_matmul x w)
    | none => rfl

/-- **`apply` returns if the shapes compose**, and returns the shape that they compose to. -/
theorem shapeOf_apply (gelu : R → R) (m : LayerMap R) (x : Tensor R) (useResidual : Bool) :
    shapeOf (m.apply gelu x useResidual) = m.applyShape x.shape useResidual := by
  unfold apply applyShape
  rw [← shapeOf_product, Option.bind_assoc]
  refine shapeOf_bind _ fun xw => ?_
  rw [← shape_zipWith (· + ·), ← shapeOf_orRuntimeError]
  refine shapeOf_bind _ fun y => ?_
  cases useResidual with
  | false => rfl
  | true =>
    cases m.residual with
    | none => rfl
    | some t =>
      obtain ⟨downW, downB, upW⟩ := t
      simp only
      rw [Option.bind_assoc, show some downB.shape = (some downB).map shape from rfl, ← shapeOf_linear]
      refine shapeOf_bind _ fun down => ?_
      rw [show down.shape = (down.map gelu).shape from rfl, show none = (none : Option (Tensor R)).map shape
        from rfl, ← shapeOf_linear]
      refine shapeOf_bind _ fun up => ?_
      rw [shapeOf_orRuntimeError, shape_zipWith]

/-- The stored tensors of a map from `q` to `p` features compose: the factors share a dimension,
and so do the two layers of the residual, whose bias fits one row. -/
structure Composes (m : LayerMap R) (q p : ℕ) : Prop where
  factors : ∀ left right, m.factors = some (left, right) →
    ∃ r, left.shape = [q, r] ∧ right.shape = [r, p]
  residual : ∀ downW downB upW, m.residual = some (downW, downB, upW) →
    ∃ h, downW.shape = [h, q] ∧ upW.shape = [p, h] ∧ broadcast downB.shape [1, h] = some [1, h]

/-- What `apply` of `n` rows needs of them: the shapes compose to one with as many entries as `n` rows
of `p`. -/
def Fits (m : LayerMap R) (n q p : ℕ) (useResidual : Bool) : Prop :=
  ∃ s, m.applyShape [n, q] useResidual = some s ∧ s.prod = n * p

omit [Ring R] in
/-- The weight or the factors of a map that composes make rows into rows. -/
theorem productShape_eq {m : LayerMap R} {nSrc kvDim : ℕ} (h : m.Checked nSrc kvDim)
    (hfac : ∀ left right, m.factors = some (left, right) →
      ∃ r, left.shape = [m.sourceLayers.length * kvDim, r] ∧ right.shape = [r, kvDim]) (n : ℕ) :
    m.productShape [n, m.sourceLayers.length * kvDim] = some [n, kvDim] := by
  rw [productShape]
  cases hf : m.factors with
  | some lr =>
    obtain ⟨left, right⟩ := lr
    obtain ⟨r, hl, hr⟩ := hfac left right hf
    simp only [hl, hr, matmulShape_matrices, if_true, Option.bind_some]
  | none =>
    obtain ⟨w, hw, hshape⟩ := h.weight_of_factors hf
    simp only [hw, Option.bind_some, hshape, matmulShape_matrices, if_true]

omit [Ring R] in
/-- **Tensors that compose fit any rows.** -/
theorem Composes.fits {m : LayerMap R} {nSrc kvDim : ℕ}
    (hc : m.Composes (m.sourceLayers.length * kvDim) kvDim) (h : m.Checked nSrc kvDim) (n : ℕ)
    (useResidual : Bool) :
    m.Fits n (m.sourceLayers.length * kvDim) kvDim useResidual := by
  refine ⟨[n, kvDim], ?_, by rw [List.prod_cons, List.prod_singleton]⟩
  rw [applyShape, productShape_eq h hc.factors, h.bias, Option.bind_some, broadcast_row, Option.bind_some]
  cases useResidual with
  | false => rfl
  | true =>
    cases hr : m.residual with
    | none => rfl
    | some t =>
      obtain ⟨downW, downB, upW⟩ := t
      obtain ⟨hid, hdown, hup, hbias⟩ := hc.residual downW downB upW hr
      have hb : ∀ s, some downB.shape = some s → broadcast s [n, hid] = some [n, hid] := fun s hs =>
        Option.some.inj hs ▸ fits_rows hbias n
      simp only [hdown, hup, linearShape_matrix hb, Option.bind_some, linearShape_matrix (b := none) nofun,
        broadcast_self]

omit [Ring R] in
/-- A residual that fits rows: matrices whose hidden size and bias fit, or a vector at its end. -/
theorem Fits.residual {m : LayerMap R} {nSrc kvDim n : ℕ} (h : m.Checked nSrc kvDim)
    (hfit : m.Fits n (m.sourceLayers.length * kvDim) kvDim true) {downW downB upW : Tensor R}
    (hr : m.residual = some (downW, downB, upW)) :
    ∃ hid, downW.shape = [hid, m.sourceLayers.length * kvDim] ∧
      broadcast downB.shape [n, hid] = some [n, hid] ∧
      (upW.shape = [kvDim, hid] ∨ upW.shape = [kvDim] ∧ ∃ y₀ s, (m.productShape
        [n, m.sourceLayers.length * kvDim]).bind (broadcast · [kvDim]) = some y₀ ∧
          broadcast y₀ [n] = some s ∧ s.prod = n * kvDim) := by
  obtain ⟨s, hs, hsize⟩ := hfit
  obtain ⟨-, hupdim⟩ := h.residual downW downB upW hr
  rw [applyShape, hr, h.bias] at hs
  obtain ⟨y₀, hy₀, hlast⟩ := Option.bind_eq_some_iff.1 hs
  obtain ⟨u, hup, hsum⟩ := Option.bind_eq_some_iff.1 hlast
  obtain ⟨d, hd, hu⟩ := Option.bind_eq_some_iff.1 hup
  obtain ⟨hid, hdown, rfl, hbias⟩ := of_linearShape_bias hd
  refine ⟨hid, hdown, hbias, ?_⟩
  rcases of_linearShape hu with ⟨p, hmat, rfl⟩ | ⟨hvec, rfl⟩
  · rw [hmat] at hupdim
    obtain rfl : p = kvDim := Option.some.inj hupdim
    exact Or.inl hmat
  · rw [hvec] at hupdim
    obtain rfl : hid = kvDim := Option.some.inj hupdim
    exact Or.inr ⟨hvec, y₀, s, hy₀, hsum, hsize⟩

/-- **A map that fits one row and more of them**, with a matrix of the shape looked at, composes: the sum of
rows and a vector has another shape for some number of rows. -/
theorem composes_of_fits {m : LayerMap R} {nSrc kvDim : ℕ} (h : m.Checked nSrc kvDim) {w : Tensor R}
    (hw : m.matrix = some w) (hshape : w.shape = [m.sourceLayers.length * kvDim, kvDim])
    (hone : m.Fits 1 (m.sourceLayers.length * kvDim) kvDim true)
    (hmore : m.Fits (kvDim + 2) (m.sourceLayers.length * kvDim) kvDim true) :
    m.Composes (m.sourceLayers.length * kvDim) kvDim := by
  have hfac : ∀ left right, m.factors = some (left, right) →
      ∃ r, left.shape = [m.sourceLayers.length * kvDim, r] ∧ right.shape = [r, kvDim] :=
    fun left right hf => (shapes_of_matrix hw hshape hf).2
  refine ⟨hfac, fun downW downB upW hr => ?_⟩
  obtain ⟨hid, hdown, hbias, hup | ⟨hup, -⟩⟩ := hone.residual h hr
  · exact ⟨hid, hdown, hup, hbias⟩
  obtain ⟨hid', -, -, hup' | ⟨-, y₀, s, hy₀, hs, hsize⟩⟩ := hmore.residual h hr
  · rw [hup] at hup'
    cases hup'
  rw [productShape_eq h hfac, Option.bind_some, broadcast_row] at hy₀
  obtain rfl := Option.some.inj hy₀
  exfalso
  rcases eq_or_ne kvDim 1 with rfl | hne
  · rw [show broadcast [1 + 2, 1] [1 + 2] = some [3, 3] by decide] at hs
    obtain rfl := Option.some.inj hs
    exact absurd hsize (by decide)
  · simp [broadcast, broadcastRev, hne] at hs

omit [Ring R] in
/-- What the product of rows shows of factors that are matrices. -/
theorem of_productShape {m : LayerMap R} {n q : ℕ} {s : List ℕ} {left right : Tensor R}
    (hf : m.factors = some (left, right)) (hdims : left.shape.length = 2 ∧ right.shape.length = 2)
    (h : m.productShape [n, q] = some s) :
    ∃ r p', left.shape = [q, r] ∧ right.shape = [r, p'] ∧ s = [n, p'] := by
  obtain ⟨a, b, hl⟩ := List.length_eq_two.1 hdims.1
  obtain ⟨c, d, hr⟩ := List.length_eq_two.1 hdims.2
  simp only [productShape, hf, hl, hr, matmulShape_matrices] at h
  by_cases ha : q = a
  · rw [if_pos ha, Option.bind_some, matmulShape_matrices] at h
    by_cases hb : b = c
    · rw [if_pos hb] at h
      exact ⟨b, d, by rw [hl, ha], by rw [hr, hb], (Option.some.inj h).symm⟩
    · rw [if_neg hb] at h
      cases h
  · rw [if_neg ha] at h
    cases h

/-- The factors are matrices, and so is the last layer of the residual. -/
structure Matrices (m : LayerMap R) : Prop where
  factors : ∀ left right, m.factors = some (left, right) → left.shape.length = 2 ∧ right.shape.length = 2
  residual : ∀ downW downB upW, m.residual = some (downW, downB, upW) → upW.shape.length = 2

omit [Ring R] in
/-- **Which matrices fit.**  Beside a weight that was looked at instead, the second factor may also be a
column: the bias expands the product. -/
theorem fits_iff {m : LayerMap R} {nSrc kvDim n : ℕ} (h : m.Checked nSrc kvDim) (hm : m.Matrices)
    (hn : 0 < n) (useResidual : Bool) :
    m.Fits n (m.sourceLayers.length * kvDim) kvDim useResidual ↔
      (∀ left right, m.factors = some (left, right) → ∃ r p', left.shape = [m.sourceLayers.length * kvDim, r] ∧
        right.shape = [r, p'] ∧ (p' = kvDim ∨ p' = 1)) ∧
      (useResidual = true → ∀ downW downB upW, m.residual = some (downW, downB, upW) →
        ∃ hid, downW.shape = [hid, m.sourceLayers.length * kvDim] ∧ upW.shape = [kvDim, hid] ∧
          broadcast downB.shape [n, hid] = some [n, hid]) := by
  constructor
  · intro hfit
    have hres : useResidual = true → ∀ downW downB upW, m.residual = some (downW, downB, upW) →
        ∃ hid, downW.shape = [hid, m.sourceLayers.length * kvDim] ∧ upW.shape = [kvDim, hid] ∧
          broadcast downB.shape [n, hid] = some [n, hid] := by
      rintro rfl downW downB upW hr
      obtain ⟨hid, hdown, hbias, hup | ⟨hup, -⟩⟩ := hfit.residual h hr
      · exact ⟨hid, hdown, hup, hbias⟩
      · have hdims := hm.residual downW downB upW hr
        rw [hup] at hdims
        cases hdims
    refine ⟨fun left right hf => ?_, hres⟩
    obtain ⟨s, hs, hsize⟩ := hfit
    rw [applyShape, h.bias] at hs
    obtain ⟨s₀, hfirst, hlast⟩ := Option.bind_eq_some_iff.1 hs
    obtain ⟨xw, hxw, hs₀⟩ := Option.bind_eq_some_iff.1 hfirst
    obtain ⟨r, p', hl, hr, rfl⟩ := of_productShape hf (hm.factors left right hf) hxw
    refine ⟨r, p', hl, hr, width_of_size hn hs₀ ?_ hsize⟩
    cases useResidual with
    | false => exact Or.inl (Option.some.inj hlast).symm
    | true =>
      cases hres' : m.residual with
      | none =>
        rw [hres'] at hlast
        exact Or.inl (Option.some.inj hlast).symm
      | some t =>
        obtain ⟨downW, downB, upW⟩ := t
        obtain ⟨hid, hdown, hup, hbias⟩ := hres rfl downW downB upW hres'
        have hbias : ∀ s, some downB.shape = some s → broadcast s [n, hid] = some [n, hid] := fun s hs =>
          Option.some.inj hs ▸ hbias
        simp only [hres', hdown, hup, linearShape_matrix hbias, Option.bind_some,
          linearShape_matrix (b := none) nofun] at hlast
        exact Or.inr hlast
  · rintro ⟨hfac, hres⟩
    obtain ⟨p', hproduct, hp'⟩ : ∃ p', m.productShape [n, m.sourceLayers.length * kvDim] = some [n, p'] ∧
        (p' = kvDim ∨ p' = 1) := by
      cases hf : m.factors with
      | some lr =>
        obtain ⟨left, right⟩ := lr
        obtain ⟨r, p', hl, hr, hp'⟩ := hfac left right hf
        refine ⟨p', ?_, hp'⟩
        simp only [productShape, hf, hl, hr, matmulShape_matrices, if_true, Option.bind_some]
      | none => exact ⟨kvDim, productShape_eq h (fun left right hf' => absurd (hf.symm.trans hf') nofun) n,
          Or.inl rfl⟩
    have hexpand : broadcast [n, p'] [kvDim] = some [n, kvDim] := by
      rcases hp' with rfl | rfl
      · exact broadcast_row n p'
      · rcases eq_or_ne kvDim 1 with rfl | hne
        · exact broadcast_row n 1
        · simp [broadcast, broadcastRev, hne, hne.symm]
    refine ⟨[n, kvDim], ?_, by rw [List.prod_cons, List.prod_singleton]⟩
    rw [applyShape, hproduct, h.bias, Option.bind_some, hexpand, Option.bind_some]
    cases useResidual with
    | false => rfl
    | true =>
      cases hr : m.residual with
      | none => rfl
      | some t =>
        obtain ⟨downW, downB, upW⟩ := t
        obtain ⟨hid, hdown, hup, hbias⟩ := hres rfl downW downB upW hr
        have hbias : ∀ s, some downB.shape = some s → broadcast s [n, hid] = some [n, hid] := fun s hs =>
          Option.some.inj hs ▸ hbias
        simp only [hdown, hup, linearShape_matrix hbias, Option.bind_some,
          linearShape_matrix (b := none) nofun, broadcast_self]

/-- The matrix of a layer map that composes is the one that `_check` looked at. -/
theorem matrix_checked {m : LayerMap R} {nSrc kvDim : ℕ} (h : m.Checked nSrc kvDim)
    (hc : m.Composes (m.sourceLayers.length * kvDim) kvDim) :
    ∃ w, m.matrix = some w ∧ w.shape = [m.sourceLayers.length * kvDim, kvDim] := by
  rw [matrix]
  cases hf : m.factors with
  | some lr =>
    obtain ⟨left, right⟩ := lr
    obtain ⟨r, hl, hr⟩ := hc.factors left right hf
    obtain ⟨w, hw, hshape, -⟩ := matmul_spec hl hr
    exact ⟨w, by simp only [hl, hr, List.length_cons, List.length_nil, and_self, if_true, hw], hshape⟩
  | none =>
    obtain ⟨w, hw, hshape⟩ := h.weight_of_factors hf
    exact ⟨w, hw, hshape⟩

end LayerMap

namespace CrossModelKVMap

/-! ### Applying an accepted map -/

omit [Ring R] in
/-- The size of the rows that one target layer is split into. -/
theorem size_of_rows (self : CrossModelKVMap R) (seq : ℕ) :
    [1, seq, self.numKvHeads, self.headDim].prod = seq * (self.numKvHeads * self.headDim) := by simp

/-- **One target layer** of an accepted map returns if the design rows fit. -/
theorem applyLayer_returns (gelu : R → R) {self : CrossModelKVMap R} {source : Tensor R} {n seq : ℕ}
    (hsrc : source.shape = [n, seq, self.numKvHeads, self.headDim]) (hseq : 0 < seq) {m : LayerMap R}
    (hm : m.Checked n (self.numKvHeads * self.headDim)) {useResidual : Bool}
    (hfit : m.Fits seq (m.sourceLayers.length * (self.numKvHeads * self.headDim))
      (self.numKvHeads * self.headDim) useResidual)
    {rope : Option (RopeTables R)} (hrope : ∀ r, rope = some r → r.Fits seq self.headDim) :
    ∃ z, self.applyLayer gelu source m useResidual rope = .ok z ∧
      z.shape = [seq, self.numKvHeads, self.headDim] := by
  obtain ⟨x, hx, hxshape, -⟩ := design_spec hsrc hseq hm.layers
  obtain ⟨s, hs, hsize⟩ := hfit
  rw [← hxshape, ← LayerMap.shapeOf_apply gelu] at hs
  obtain ⟨y, hy, rfl⟩ := shapeOf_eq_some.1 hs
  obtain ⟨z, hz, hzshape, -⟩ :=
    applyLayer_sized gelu hsrc hx hy (hsize.trans (self.size_of_rows seq).symm) hrope
  exact ⟨z, hz, hzshape⟩

/-- If it returns, they do. -/
theorem fits_of_applyLayer (gelu : R → R) {self : CrossModelKVMap R} {source : Tensor R} {n seq : ℕ}
    (hsrc : source.shape = [n, seq, self.numKvHeads, self.headDim]) (hseq : 0 < seq) {m : LayerMap R}
    (hm : m.Checked n (self.numKvHeads * self.headDim)) {useResidual : Bool}
    {rope : Option (RopeTables R)} {z : Tensor R}
    (hz : self.applyLayer gelu source m useResidual rope = .ok z) :
    m.Fits seq (m.sourceLayers.length * (self.numKvHeads * self.headDim))
      (self.numKvHeads * self.headDim) useResidual := by
  obtain ⟨x, hx, hxshape, -⟩ := design_spec hsrc hseq hm.layers
  obtain ⟨x', hx', hrest⟩ := bind_ok.1 hz
  obtain rfl := Except.ok.inj (hx.symm.trans hx')
  obtain ⟨y, hy, hlast⟩ := bind_ok.1 hrest
  obtain ⟨y₁, hview, -⟩ := bind_ok.1 hlast
  have hshape := LayerMap.shapeOf_apply gelu m x useResidual
  rw [shapeOf_eq_some.2 ⟨y, hy, rfl⟩, hxshape] at hshape
  refine ⟨y.shape, hshape.symm, ?_⟩
  have hv := orRuntimeError_ok hview
  rw [view] at hv
  split at hv
  next hprod =>
    rw [hprod, hsrc]
    exact self.size_of_rows seq
  next => cases hv

/-- KV of `T` tokens of the source model, with the tables of the two models. -/
structure SourceKV (kvMap : CrossModelKVMap R) (src : ModelConfig) (T : ℕ) (k v : Tensor R)
    (sourceRope targetRope : RopeTables R) : Prop where
  k : k.shape = [src.numHiddenLayers, T, src.numKeyValueHeads, kvMap.headDim]
  v : v.shape = [src.numHiddenLayers, T, src.numKeyValueHeads, kvMap.headDim]
  source : sourceRope.cos.shape = [T, kvMap.headDim] ∧ sourceRope.sin.shape = [T, kvMap.headDim]
  target : targetRope.cos.shape = [T, kvMap.headDim] ∧ targetRope.sin.shape = [T, kvMap.headDim]

/-- Heads can be halved, or there is no layer whose heads have to be. -/
def Halves (self : CrossModelKVMap R) (src tgt : ModelConfig) : Prop :=
  self.headDim = 1 → src.numHiddenLayers = 0 ∧ tgt.numHiddenLayers = 0

/-- Design rows of `T` tokens fit every layer map. -/
def AllFit (self : CrossModelKVMap R) (T : ℕ) (useResidual : Bool) : Prop :=
  ∀ m ∈ self.keys ++ self.values, m.Fits T (m.sourceLayers.length * (self.numKvHeads * self.headDim))
    (self.numKvHeads * self.headDim) useResidual

/-- The stored tensors of every layer map compose. -/
def AllCompose (self : CrossModelKVMap R) : Prop :=
  ∀ m ∈ self.keys ++ self.values, m.Composes
    (m.sourceLayers.length * (self.numKvHeads * self.headDim)) (self.numKvHeads * self.headDim)

/-- **An accepted map whose rows fit** returns KV for the target on one token or more. -/
theorem map_returns (gelu : R → R) {self : CrossModelKVMap R} {src tgt : ModelConfig}
    (hacc : self.Accepted src tgt) (hhalves : self.Halves src tgt) {T : ℕ} (hT : 0 < T)
    {useResidual : Bool} (hfit : self.AllFit T useResidual) {k v : Tensor R}
    {sourceRope targetRope : RopeTables R} (hkv : self.SourceKV src T k v sourceRope targetRope) :
    ∃ keys values, self.map gelu k v sourceRope targetRope useResidual = .ok (keys, values) ∧
      keys.shape = [tgt.numHiddenLayers, T, self.numKvHeads, self.headDim] ∧
      values.shape = [tgt.numHiddenLayers, T, self.numKvHeads, self.headDim] := by
  obtain ⟨hk, hv, hsource, htarget⟩ := hkv
  rw [← hacc.heads] at hk hv
  have hstrip : src.numHiddenLayers = 0 ∨ sourceRope.Fits T self.headDim := by
    by_cases hd : self.headDim = 1
    · exact Or.inl (hhalves hd).1
    · exact Or.inr ⟨hd, hsource⟩
  obtain ⟨c, hcont, hcshape, -⟩ := content_spec hk hstrip
  -- with a target layer the heads can be halved
  have hturn : ∀ m ∈ self.keys, ∀ r, some targetRope = some r → r.Fits T self.headDim := by
    rintro m hm r ⟨⟩
    refine ⟨fun hd => ?_, htarget⟩
    have hlen := hacc.keysLength
    rw [(hhalves hd).2] at hlen
    exact absurd hm (List.length_eq_zero_iff.1 hlen ▸ List.not_mem_nil)
  obtain ⟨keys, hkeys, hkshape, -⟩ := applyMaps_spec gelu hcshape self.keys useResidual
    (some targetRope) fun m hm =>
      applyLayer_returns gelu hcshape hT (hacc.checked m (List.mem_append_left _ hm))
        (hfit m (List.mem_append_left _ hm)) (hturn m hm)
  obtain ⟨values, hvalues, hvshape, -⟩ := applyMaps_spec gelu hv self.values useResidual none
    fun m hm =>
      applyLayer_returns gelu hv hT (hacc.checked m (List.mem_append_right _ hm))
        (hfit m (List.mem_append_right _ hm)) nofun
  refine ⟨keys, values, ?_, hacc.keysLength ▸ hkshape, hacc.valuesLength ▸ hvshape⟩
  simp only [map, hcont, hkeys, hvalues, bind, Except.bind]
  rfl

/-- The map returns on every source KV in both residual modes, and multiplies in each layer by a
matrix of the shape that `_check` looked at. -/
def Applies (gelu : R → R) (self : CrossModelKVMap R) (src : ModelConfig) : Prop :=
  (∀ T, 0 < T → ∀ k v sourceRope targetRope, self.SourceKV src T k v sourceRope targetRope →
    ∀ useResidual, ∃ kv, self.map gelu k v sourceRope targetRope useResidual = .ok kv) ∧
  ∀ m ∈ self.keys ++ self.values, ∃ w, m.matrix = some w ∧ checkedShape m = .ok w.shape

/-- A rotated target layer has heads that can be halved. -/
theorem headDim_of_applyLayer (gelu : R → R) {self : CrossModelKVMap R} {source : Tensor R}
    {m : LayerMap R} {useResidual : Bool} {rope : RopeTables R} {z : Tensor R}
    (hz : self.applyLayer gelu source m useResidual (some rope) = .ok z) : self.headDim ≠ 1 := by
  intro hone
  obtain ⟨x, -, h₁⟩ := bind_ok.1 hz
  obtain ⟨y, -, h₂⟩ := bind_ok.1 h₁
  obtain ⟨y₁, hview, h₃⟩ := bind_ok.1 h₂
  obtain ⟨y₂, hturn, -⟩ := bind_ok.1 h₃
  have hshape : y₁.shape = [1, source.shape.getD 1 0, self.numKvHeads, 1] := by
    have hv := orRuntimeError_ok hview
    rw [view] at hv
    split at hv
    next => rw [← Option.some.inj hv, shape_reshape, hone]
    next => cases hv
  obtain ⟨e, he⟩ := rotateWith_one (· + ·) rope hshape
  rw [← applyRope_eq] at he
  cases he.symm.trans hturn

/-- Source keys taken out of their rotation have heads that can be halved. -/
theorem headDim_of_content {k c : Tensor R} {rope : RopeTables R} {n seq heads dim : ℕ}
    (hk : k.shape = [n, seq, heads, dim]) (hn : 0 < n) (h : content k rope = .ok c) : dim ≠ 1 := by
  rintro rfl
  rw [content, show k.shape.getD 0 0 = n by rw [hk]; rfl] at h
  obtain ⟨y, hy⟩ := fillLayers_ok h 0 hn
  obtain ⟨y₁, hy₁, -⟩ := bind_ok.1 hy
  have hsel : (k.select [0]).shape = [1, seq, heads, 1] := by
    rw [select, shape_build, hk]
    rfl
  obtain ⟨e, he⟩ := rotateWith_one (· - ·) rope hsel
  rw [← stripRope_eq] at he
  cases he.symm.trans hy₁

/-- **What a run shows**: heads can be halved, and the design rows fit every layer map. -/
theorem fits_of_map (gelu : R → R) {self : CrossModelKVMap R} {src tgt : ModelConfig}
    (hacc : self.Accepted src tgt) {T : ℕ} (hT : 0 < T) {k v : Tensor R}
    {sourceRope targetRope : RopeTables R} (hkv : self.SourceKV src T k v sourceRope targetRope)
    {useResidual : Bool} {kv : Tensor R × Tensor R}
    (hmap : self.map gelu k v sourceRope targetRope useResidual = .ok kv) :
    self.Halves src tgt ∧ self.AllFit T useResidual := by
  obtain ⟨c, hcont, h₁⟩ := bind_ok.1 hmap
  obtain ⟨keys, hkeys, h₂⟩ := bind_ok.1 h₁
  obtain ⟨values, hvalues, -⟩ := bind_ok.1 h₂
  have hk := hkv.k
  have hv := hkv.v
  rw [← hacc.heads] at hk hv
  have hhalves : self.Halves src tgt := by
    refine fun hone => ⟨?_, ?_⟩
    · by_contra hsrc
      exact headDim_of_content hk (Nat.pos_of_ne_zero hsrc) hcont hone
    · by_contra htgt
      have hpos : 0 < self.keys.length := by
        rw [hacc.keysLength]
        exact Nat.pos_of_ne_zero htgt
      obtain ⟨z, hz⟩ := applyMaps_ok gelu hkeys _ (List.getElem_mem hpos)
      exact headDim_of_applyLayer gelu hz hone
  have hstrip : src.numHiddenLayers = 0 ∨ sourceRope.Fits T self.headDim := by
    by_cases hd : self.headDim = 1
    · exact Or.inl (hhalves hd).1
    · exact Or.inr ⟨hd, hkv.source⟩
  obtain ⟨c', hcont', hcshape, -⟩ := content_spec hk hstrip
  obtain rfl := Except.ok.inj (hcont'.symm.trans hcont)
  refine ⟨hhalves, fun m hm => ?_⟩
  have hchecked := hacc.checked m hm
  rcases List.mem_append.1 hm with hm | hm
  · obtain ⟨z, hz⟩ := applyMaps_ok gelu hkeys m hm
    exact fits_of_applyLayer gelu hcshape hT hchecked hz
  · obtain ⟨z, hz⟩ := applyMaps_ok gelu hvalues m hm
    exact fits_of_applyLayer gelu hv hT hchecked hz

/-- **When accepted maps can be applied**: exactly when the tensors that `_check` does not look at
compose too, and heads have more than one entry. -/
theorem accepted_applies_iff (gelu : R → R) {keys values : List (LayerMap R)} {src tgt : ModelConfig}
    {self : CrossModelKVMap R} (h : init keys values src tgt = .ok self) :
    self.Applies gelu src ↔ self.Halves src tgt ∧ self.AllCompose := by
  obtain ⟨-, -, hacc⟩ := init_ok h
  constructor
  · rintro ⟨hruns, hmatrix⟩
    -- some tokens of zeros, with the residual
    have hfits : ∀ T, 0 < T → self.Halves src tgt ∧ self.AllFit T true := fun T hT => by
      let kv : Tensor R := .build [src.numHiddenLayers, T, src.numKeyValueHeads, self.headDim] fun _ => 0
      let rope : RopeTables R := ⟨.build [T, self.headDim] fun _ => 0, .build [T, self.headDim] fun _ => 0⟩
      have hkv : self.SourceKV src T kv kv rope rope := ⟨rfl, rfl, ⟨rfl, rfl⟩, rfl, rfl⟩
      obtain ⟨out, hout⟩ := hruns T hT kv kv rope rope hkv true
      exact fits_of_map gelu hacc hT hkv hout
    refine ⟨(hfits 1 Nat.one_pos).1, fun m hm => ?_⟩
    obtain ⟨w, hw, hwshape⟩ := hmatrix m hm
    have hwshape := Except.ok.inj (hwshape.symm.trans (hacc.checked m hm).shape)
    exact LayerMap.composes_of_fits (hacc.checked m hm) hw hwshape ((hfits 1 Nat.one_pos).2 m hm)
      ((hfits _ (Nat.succ_pos _)).2 m hm)
  · rintro ⟨hhalves, hc⟩
    refine ⟨fun T hT k v sourceRope targetRope hkv useResidual => ?_, fun m hm => ?_⟩
    · have hfit : self.AllFit T useResidual := fun m hm => (hc m hm).fits (hacc.checked m hm) T useResidual
      obtain ⟨keys', values', hmap, -⟩ := map_returns gelu hacc hhalves hT hfit hkv
      exact ⟨_, hmap⟩
    · obtain ⟨w, hw, hwshape⟩ := LayerMap.matrix_checked (hacc.checked m hm) (hc m hm)
      exact ⟨w, hw, by rw [hwshape, (hacc.checked m hm).shape]⟩

/-- The hypotheses are satisfiable: one layer with a weight and factors of rank 1 beside it, and a
residual. -/
theorem accepted_applies_iff_both_stored :
    let config : ModelConfig := ⟨1, 1, some 2, 2, 1, 7⟩
    let m : LayerMap ℤ := ⟨[0], ⟨[2], [5, 6], rfl⟩, some ⟨[2, 2], [1, 2, 2, 4], rfl⟩,
      some (⟨[2, 1], [1, 2], rfl⟩, ⟨[1, 2], [1, 2], rfl⟩),
      some (⟨[3, 2], [1, 0, 0, 1, 1, 1], rfl⟩, ⟨[3], [0, 1, 0], rfl⟩, ⟨[2, 3], [1, 0, 1, 0, 1, 0], rfl⟩)⟩
    ∃ self, init [m] [m] config config = .ok self ∧ self.Applies id config := by
  intro config m
  have hinit : init [m] [m] config config = .ok ⟨[m], [m], 1, 2⟩ := rfl
  refine ⟨⟨[m], [m], 1, 2⟩, hinit, (accepted_applies_iff id hinit).2 ⟨nofun, fun m' hm' => ?_⟩⟩
  obtain rfl : m' = m := by simpa using hm'
  constructor
  · rintro left right ⟨⟩
    exact ⟨1, rfl, rfl⟩
  · rintro downW downB upW ⟨⟩
    exact ⟨3, rfl, rfl, rfl⟩

/-- Factors of the shapes `(2, 1)` and `(3, 2)` are accepted, and the product raises. -/
theorem two_ranks_raise :
    let config : ModelConfig := ⟨1, 1, some 2, 2, 1, 7⟩
    let m : LayerMap ℤ := ⟨[0], ⟨[2], [0, 0], rfl⟩, none,
      some (⟨[2, 1], [1, 1], rfl⟩, ⟨[3, 2], [1, 1, 1, 1, 1, 1], rfl⟩), none⟩
    ∃ self, init [m] [m] config config = .ok self ∧ ¬ self.Applies id config := by
  intro config m
  refine ⟨⟨[m], [m], 1, 2⟩, rfl, fun happlies => ?_⟩
  let kv : Tensor ℤ := ⟨[1, 1, 1, 2], [1, 2], rfl⟩
  let rope : RopeTables ℤ := ⟨⟨[1, 2], [1, 1], rfl⟩, ⟨[1, 2], [0, 0], rfl⟩⟩
  have hraise : (map id ⟨[m], [m], 1, 2⟩ kv kv rope rope true).toBool = false := by decide +kernel
  obtain ⟨out, hout⟩ := happlies.1 1 Nat.one_pos kv kv rope rope ⟨rfl, rfl, ⟨rfl, rfl⟩, rfl, rfl⟩ true
  rw [hout] at hraise
  cases hraise

end CrossModelKVMap

end Needs

end DiSpec
