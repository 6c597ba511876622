/-
# The affine map of each token

`dispec/kv/transfer.py`: what `CrossModelKVMap.map` computes, in the words of its docstring.

The design row of a token lists the heads of the selected layers one after the other
(`designRow`); each target layer is the stored matrix and bias applied to it, for keys between
undoing the source's rotation and turning by the target's (`map_entries`).  Tables whose halves are
equal with `cos² + sin² = 1` make the two rotations inverse (`rotated_undo`).

So a token's result depends on its own KV, and a piece of the sequence maps to the piece of the
result (`map_piece`), factors map as their product does (`dense_map`), and identity maps return
what they are given (`map_identity`).  All this holds of pieces with a token, and of the empty piece
where there is no target layer: `reshape(0, -1)` raises (`piece_affine_iff`).
-/

import DiSpec.KV.TransferShapes
import Mathlib.Tactic.LinearCombination
import Mathlib.Tactic.Ring

namespace DiSpec

open Tensor

/-! ### The two rotations -/

section Undo

variable {R : Type} [CommRing R]

/-- Tables of `seq` rows whose two halves are equal, with `cos² + sin² = 1`. -/
structure RopeTables.Rotation (rope : RopeTables R) (seq d : ℕ) : Prop where
  cos : rope.cos.shape = [seq, d]
  sin : rope.sin.shape = [seq, d]
  halves : ∀ t < seq, ∀ l < d / 2, rope.cos.at [t, d / 2 + l] = rope.cos.at [t, l] ∧
    rope.sin.at [t, d / 2 + l] = rope.sin.at [t, l]
  unit : ∀ t < seq, ∀ l < d / 2, rope.cos.at [t, l] ^ 2 + rope.sin.at [t, l] ^ 2 = 1

/-- Turning back is turning with the sine negated. -/
theorem rotated_neg (d : ℕ) (c s x : ℕ → R) (l : ℕ) :
    rotated (· - ·) d c s x l = rotated (· + ·) d c (fun l => -s l) x l := by
  rw [rotated, rotated]
  ring

/-- **Turning one way and the other.** -/
theorem rotated_undo {d : ℕ} (hd : Even d) {c s : ℕ → R}
    (hhalves : ∀ l < d / 2, c (d / 2 + l) = c l ∧ s (d / 2 + l) = s l)
    (hunit : ∀ l < d / 2, c l ^ 2 + s l ^ 2 = 1) (x : ℕ → R) {l : ℕ} (hl : l < d) :
    rotated (· + ·) d c s (rotated (· + ·) d c (fun l => -s l) x) l = x l := by
  obtain ⟨h, rfl⟩ := hd
  have hhalf : (h + h) / 2 = h := by omega
  have hlong : (h + h + 1) / 2 = h := by omega
  have hshort : h + h - h = h := by omega
  rw [hhalf] at hhalves hunit
  simp only [rotated, halfAt, hlong, hshort]
  by_cases hlt : l < h
  · obtain ⟨hc, hs⟩ := hhalves l hlt
    have hnot : ¬ h + l < h := by omega
    have hback : h + l - h = l := by omega
    simp only [if_pos hlt, if_neg hnot, hback, hc, hs]
    linear_combination x l * hunit l hlt
  · obtain ⟨j, rfl⟩ := Nat.exists_eq_add_of_le (Nat.le_of_not_lt hlt)
    have hj : j < h := by omega
    obtain ⟨hc, hs⟩ := hhalves j hj
    have hback : h + j - h = j := by omega
    simp only [if_neg hlt, hback, if_pos hj, hc, hs]
    linear_combination x (h + j) * hunit j hj

end Undo

/-! ### The map of one token -/

section Rows

variable {R : Type} [CommRing R]

/-- The design row of a token: the heads of the selected layers, one after the other. -/
def designRow (heads dim : ℕ) (x : Tensor R) (layers : List ℤ) (t : ℕ) : List R :=
  layers.flatMap fun s => (List.range heads).flatMap fun h =>
    (List.range dim).map fun d => x.at [s.toNat, t, h, d]

/-- `Wᵀc + b`. -/
def affine (w b : Tensor R) (c : List R) (j : ℕ) : R :=
  (∑ f ∈ Finset.range c.length, c.getD f 0 * w.at [f, j]) + b.at [j]

@[simp] theorem length_designRow (heads dim : ℕ) (x : Tensor R) (layers : List ℤ) (t : ℕ) :
    (designRow heads dim x layers t).length = layers.length * (heads * dim) := by
  simp [designRow, List.length_flatMap]

theorem getD_designRow {heads dim : ℕ} (x : Tensor R) {layers : List ℤ} (t : ℕ) {s k l : ℕ}
    (hs : s < layers.length) (hk : k < heads) (hl : l < dim) :
    (designRow heads dim x layers t).getD (feature heads dim s k l) 0 =
      x.at [(layers.getD s 0).toNat, t, k, l] := by
  have hin : k * dim + l < heads * dim := by
    simpa [feature] using feature_lt (n := 1) Nat.one_pos hk hl
  rw [List.getD_eq_getElem?_getD, designRow, feature,
    getElem?_flatMap_block _ _ (fun _ _ => by simp [List.length_flatMap]) s hin,
    List.getElem?_eq_getElem hs, Option.bind_some, getElem?_flatMap_block _ _ (fun _ _ => by simp) k hl,
    List.getElem?_range hk, Option.bind_some, List.getElem?_map, List.getElem?_range hl,
    List.getD_eq_getElem _ _ hs]
  rfl

/-- Every feature is one of a layer, a head and a dim. -/
theorem exists_feature {heads dim n f : ℕ} (hf : f < n * (heads * dim)) :
    ∃ s < n, ∃ k < heads, ∃ l < dim, f = feature heads dim s k l := by
  have hpos : 0 < heads * dim := by
    rcases Nat.eq_zero_or_pos (heads * dim) with h | h
    · rw [h, Nat.mul_zero] at hf
      omega
    · exact h
  have hdim : 0 < dim := Nat.pos_of_mul_pos_left hpos
  refine ⟨f / (heads * dim), Nat.div_lt_of_lt_mul (by rwa [Nat.mul_comm]), f % (heads * dim) / dim,
    Nat.div_lt_of_lt_mul ?_, f % (heads * dim) % dim, Nat.mod_lt _ hdim, ?_⟩
  · rw [Nat.mul_comm dim heads]
    exact Nat.mod_lt _ hpos
  · rw [feature, Nat.div_add_mod' (f % (heads * dim)) dim, Nat.div_add_mod']

theorem turned_congr (rope : Option (RopeTables R)) {d : ℕ} (t : ℕ) {x x' : ℕ → R}
    (h : ∀ l < d, x l = x' l) {l : ℕ} (hl : l < d) : turned rope d t x l = turned rope d t x' l := by
  cases rope with
  | none => exact h l hl
  | some rope =>
    simp only [turned]
    exact rotated_congr _ _ _ h hl

namespace CrossModelKVMap

/-- The stored tensors give the layer map a matrix of the shape that `_check` asks for. -/
def HasMatrix (kvDim : ℕ) (m : LayerMap R) : Prop :=
  ∃ w, m.matrix = some w ∧ w.shape = [m.sourceLayers.length * kvDim, kvDim]

/-- **One target layer** is the affine map of the design rows. -/
theorem applyLayer_entries (gelu : R → R) {self : CrossModelKVMap R} {source : Tensor R} {n seq : ℕ}
    (hsrc : source.shape = [n, seq, self.numKvHeads, self.headDim]) (hseq : 0 < seq) {m : LayerMap R}
    (hm : m.Checked n (self.numKvHeads * self.headDim)) {w : Tensor R} (hw : m.matrix = some w)
    (hwshape : w.shape = [m.sourceLayers.length * (self.numKvHeads * self.headDim),
      self.numKvHeads * self.headDim])
    {useResidual : Bool} (hres : useResidual = false ∨ m.residual = none)
    {rope : Option (RopeTables R)} (hrope : ∀ r, rope = some r → r.Fits seq self.headDim) :
    ∃ z, self.applyLayer gelu source m useResidual rope = .ok z ∧
      z.shape = [seq, self.numKvHeads, self.headDim] ∧
      ∀ t < seq, ∀ k < self.numKvHeads, ∀ l < self.headDim, z.at [t, k, l] =
        turned rope self.headDim t (fun l => affine w m.bias
          (designRow self.numKvHeads self.headDim source m.sourceLayers t) (k * self.headDim + l)) l := by
  obtain ⟨x, hx, hxshape, hxat⟩ := design_spec hsrc hseq hm.layers
  obtain ⟨y, hy, hyshape, hyat⟩ := LayerMap.apply_spec gelu hxshape hw hwshape hm.bias hres
  obtain ⟨z, hz, hzshape, hzat⟩ := applyLayer_spec gelu hsrc hx hy hyshape hrope
  refine ⟨z, hz, hzshape, fun t ht k hk l hl => ?_⟩
  rw [hzat t ht k hk l hl]
  refine turned_congr rope t (fun l hl => ?_) hl
  have hcol : k * self.headDim + l < self.numKvHeads * self.headDim := by
    simpa [feature] using feature_lt (n := 1) Nat.one_pos hk hl
  rw [hyat t ht _ hcol, affine, length_designRow]
  congr 1
  refine Finset.sum_congr rfl fun f hf => ?_
  obtain ⟨s, hs, k', hk', l', hl', rfl⟩ := exists_feature (Finset.mem_range.1 hf)
  rw [hxat t ht s hs k' hk' l' hl', getD_designRow source t hs hk' hl']

/-- `out` is what the layer maps make of `source`, token by token. -/
structure MapsTo (kvMap : CrossModelKVMap R) (maps : List (LayerMap R)) (rope : Option (RopeTables R))
    (T : ℕ) (source out : Tensor R) : Prop where
  shape : out.shape = [maps.length, T, kvMap.numKvHeads, kvMap.headDim]
  entry : ∀ layer m w, maps[layer]? = some m → m.matrix = some w →
    ∀ t < T, ∀ h < kvMap.numKvHeads, ∀ l < kvMap.headDim, out.at [layer, t, h, l] =
      turned rope kvMap.headDim t (fun l => affine w m.bias
        (designRow kvMap.numKvHeads kvMap.headDim source m.sourceLayers t) (h * kvMap.headDim + l)) l

/-- **The layer maps determine what they make.** -/
theorem MapsTo.unique {self : CrossModelKVMap R} {maps : List (LayerMap R)}
    {rope : Option (RopeTables R)} {T : ℕ} {source out out' : Tensor R}
    (hmat : ∀ m ∈ maps, HasMatrix (self.numKvHeads * self.headDim) m)
    (h : self.MapsTo maps rope T source out) (h' : self.MapsTo maps rope T source out') : out = out' := by
  refine ext_at (h.shape.trans h'.shape.symm) fun idx hidx => ?_
  rw [h.shape] at hidx
  obtain ⟨layer, t, k, l, rfl, hlayer, ht, hk, hl⟩ := exists_of_within₄ hidx
  obtain ⟨w, hw, -⟩ := hmat _ (List.getElem_mem hlayer)
  have hm := List.getElem?_eq_getElem hlayer
  rw [h.entry layer _ w hm hw t ht k hk l hl, h'.entry layer _ w hm hw t ht k hk l hl]

/-- **All target layers** of one kind. -/
theorem applyMaps_mapsTo (gelu : R → R) {self : CrossModelKVMap R} {source : Tensor R} {n seq : ℕ}
    (hsrc : source.shape = [n, seq, self.numKvHeads, self.headDim]) {maps : List (LayerMap R)}
    (hseq : 0 < seq ∨ maps = []) (hchecked : ∀ m ∈ maps, m.Checked n (self.numKvHeads * self.headDim))
    (hmat : ∀ m ∈ maps, HasMatrix (self.numKvHeads * self.headDim) m) {useResidual : Bool}
    (hres : ∀ m ∈ maps, useResidual = false ∨ m.residual = none) {rope : Option (RopeTables R)}
    (hrope : ∀ r, rope = some r → r.Fits seq self.headDim) :
    ∃ out, self.applyMaps gelu source maps useResidual rope = .ok out ∧
      self.MapsTo maps rope seq source out := by
  have hpos : ∀ m ∈ maps, 0 < seq := by
    intro m hm
    rcases hseq with h | rfl
    · exact h
    · exact absurd hm List.not_mem_nil
  obtain ⟨out, hout, hshape, hat⟩ := applyMaps_spec gelu hsrc maps useResidual rope fun m hm => by
    obtain ⟨w, hw, hwshape⟩ := hmat m hm
    obtain ⟨z, hz, hzshape, -⟩ :=
      applyLayer_entries gelu hsrc (hpos m hm) (hchecked m hm) hw hwshape (hres m hm) hrope
    exact ⟨z, hz, hzshape⟩
  refine ⟨out, hout, hshape, fun layer m w hm hw t ht k hk l hl => ?_⟩
  have hmem := List.mem_of_getElem? hm
  obtain ⟨w', hw', hwshape⟩ := hmat m hmem
  obtain rfl := Option.some.inj (hw.symm.trans hw')
  obtain ⟨z, hz, -, hzat⟩ :=
    applyLayer_entries gelu hsrc (hpos m hmem) (hchecked m hmem) hw hwshape (hres m hmem) hrope
  rw [hat layer m z hm hz t ht k hk l hl, hzat t ht k hk l hl]

/-- **A run on a source KV** with tables of rotations: the content keys, and the two results. -/
theorem map_entries (gelu : R → R) {self : CrossModelKVMap R} {src tgt : ModelConfig}
    (hacc : self.Accepted src tgt)
    (hmat : ∀ m ∈ self.keys ++ self.values, HasMatrix (self.numKvHeads * self.headDim) m)
    {useResidual : Bool} (hres : ∀ m ∈ self.keys ++ self.values, useResidual = false ∨ m.residual = none)
    (hd : Even self.headDim) {T : ℕ} (hT : 0 < T ∨ tgt.numHiddenLayers = 0) {k v : Tensor R}
    {sourceRope targetRope : RopeTables R} (hkv : self.SourceKV src T k v sourceRope targetRope)
    (hrot : sourceRope.Rotation T self.headDim) :
    ∃ c K V, stripRope k sourceRope = .ok c ∧ applyRope c sourceRope = .ok k ∧
      self.map gelu k v sourceRope targetRope useResidual = .ok (K, V) ∧
      self.MapsTo self.keys (some targetRope) T c K ∧ self.MapsTo self.values none T v V := by
  obtain ⟨hk, hv, hsource, htarget⟩ := hkv
  rw [← hacc.heads] at hk hv
  have hne : self.headDim ≠ 1 := fun hone => by simp [hone] at hd
  obtain ⟨c, hcont, hcshape, hcat⟩ := content_spec hk (Or.inr ⟨hne, hsource⟩)
  -- one layer at a time or all at once
  have hstrip : stripRope k sourceRope = .ok c := by
    obtain ⟨c', hc', hcshape', hcat'⟩ := rotateWith_spec (· - ·) hk hne hsource.1 hsource.2
    rw [stripRope_eq, hc']
    refine congrArg Except.ok (ext_at (hcshape'.trans hcshape.symm) fun idx hidx => ?_)
    obtain ⟨s, t, h, l, rfl, hs, ht, hh, hl⟩ := exists_of_within₄ (hcshape' ▸ hidx)
    rw [hcat' s hs t ht h hh l hl, hcat s hs t ht h hh l hl]
  have hturn : applyRope c sourceRope = .ok k := by
    obtain ⟨k', hk', hkshape', hkat'⟩ := rotateWith_spec (· + ·) hcshape hne hsource.1 hsource.2
    rw [applyRope_eq, hk']
    refine congrArg Except.ok (ext_at (hkshape'.trans hk.symm) fun idx hidx => ?_)
    obtain ⟨s, t, h, l, rfl, hs, ht, hh, hl⟩ := exists_of_within₄ (hkshape' ▸ hidx)
    have hback : ∀ l < self.headDim, c.at [s, t, h, l] = rotated (· + ·) self.headDim
        (fun l => sourceRope.cos.at [t, l]) (fun l => -sourceRope.sin.at [t, l])
        (fun l => k.at [s, t, h, l]) l := fun l hl =>
      (hcat s hs t ht h hh l hl).trans (rotated_neg _ _ _ _ l)
    rw [hkat' s hs t ht h hh l hl, rotated_congr _ _ _ hback hl]
    exact rotated_undo hd (hrot.halves t ht) (hrot.unit t ht) _ hl
  have hkeys : 0 < T ∨ self.keys = [] := by
    rcases hT with h | h
    · exact Or.inl h
    · exact Or.inr (List.length_eq_zero_iff.1 (hacc.keysLength.trans h))
  have hvalues : 0 < T ∨ self.values = [] := by
    rcases hT with h | h
    · exact Or.inl h
    · exact Or.inr (List.length_eq_zero_iff.1 (hacc.valuesLength.trans h))
  obtain ⟨K, hK, hKto⟩ := applyMaps_mapsTo gelu hcshape hkeys
    (fun m hm => hacc.checked m (List.mem_append_left _ hm))
    (fun m hm => hmat m (List.mem_append_left _ hm)) (fun m hm => hres m (List.mem_append_left _ hm))
    (fun r hr => Option.some.inj hr ▸ ⟨hne, htarget⟩)
  obtain ⟨V, hV, hVto⟩ := applyMaps_mapsTo gelu hv hvalues
    (fun m hm => hacc.checked m (List.mem_append_right _ hm))
    (fun m hm => hmat m (List.mem_append_right _ hm)) (fun m hm => hres m (List.mem_append_right _ hm))
    (fun r hr => nomatch (hr : none = some r))
  refine ⟨c, K, V, hstrip, hturn, ?_, hKto, hVto⟩
  simp only [map, hcont, hK, hV, bind, Except.bind]
  rfl

end CrossModelKVMap

/-! ### Pieces of the sequence -/

/-- The rows of the tables for `len` tokens from `a` on. -/
def RopeTables.narrow (rope : RopeTables R) (a len : ℕ) : RopeTables R :=
  ⟨rope.cos.narrow 0 a len, rope.sin.narrow 0 a len⟩

theorem shape_narrow_table {table : Tensor R} {T d : ℕ} (h : table.shape = [T, d]) (a len : ℕ) :
    (table.narrow 0 a len).shape = [len, d] := by
  rw [Tensor.narrow, shape_build, h]
  rfl

theorem at_narrow_table {table : Tensor R} {T d : ℕ} (h : table.shape = [T, d]) (a : ℕ) {len t l : ℕ}
    (ht : t < len) (hl : l < d) : (table.narrow 0 a len).at [t, l] = table.at [a + t, l] :=
  at_narrow table (h ▸ within₂ ht hl)

theorem shape_narrow_tokens {x : Tensor R} {n T h d : ℕ} (hx : x.shape = [n, T, h, d]) (a len : ℕ) :
    (x.narrow 1 a len).shape = [n, len, h, d] := by
  rw [Tensor.narrow, shape_build, hx]
  rfl

theorem at_narrow_tokens {x : Tensor R} {n T h d : ℕ} (hx : x.shape = [n, T, h, d]) (a : ℕ)
    {len s t k l : ℕ} (hs : s < n) (ht : t < len) (hk : k < h) (hl : l < d) :
    (x.narrow 1 a len).at [s, t, k, l] = x.at [s, a + t, k, l] :=
  at_narrow x (hx ▸ within₄ hs ht hk hl)

/-- Rows of tables of rotations are tables of rotations. -/
theorem RopeTables.Rotation.narrow {rope : RopeTables R} {T d : ℕ} (h : rope.Rotation T d) {a len : ℕ}
    (hlen : a + len ≤ T) : (rope.narrow a len).Rotation len d where
  cos := shape_narrow_table h.cos a len
  sin := shape_narrow_table h.sin a len
  halves t ht l hl := by
    simp only [RopeTables.narrow]
    rw [at_narrow_table h.cos a ht (by omega), at_narrow_table h.cos a ht (by omega),
      at_narrow_table h.sin a ht (by omega), at_narrow_table h.sin a ht (by omega)]
    exact h.halves (a + t) (by omega) l hl
  unit t ht l hl := by
    simp only [RopeTables.narrow]
    rw [at_narrow_table h.cos a ht (by omega), at_narrow_table h.sin a ht (by omega)]
    exact h.unit (a + t) (by omega) l hl

/-- A token of a piece is turned as in the whole. -/
theorem rotated_narrow (op : R → R → R) {rope : RopeTables R} {T d : ℕ} (hcos : rope.cos.shape = [T, d])
    (hsin : rope.sin.shape = [T, d]) (a : ℕ) {len t : ℕ} (ht : t < len) (x : ℕ → R) {l : ℕ} (hl : l < d) :
    rotated op d (fun l => (rope.narrow a len).cos.at [t, l])
        (fun l => (rope.narrow a len).sin.at [t, l]) x l =
      rotated op d (fun l => rope.cos.at [a + t, l]) (fun l => rope.sin.at [a + t, l]) x l := by
  simp only [rotated, RopeTables.narrow]
  rw [at_narrow_table hcos a ht hl, at_narrow_table hsin a ht hl]

/-- **Rotating a piece** with its rows of the tables is cutting what was rotated. -/
theorem rotateWith_narrow (op : R → R → R) {x y : Tensor R} {rope : RopeTables R} {n T h d : ℕ}
    (hx : x.shape = [n, T, h, d]) (hne : d ≠ 1) (hcos : rope.cos.shape = [T, d])
    (hsin : rope.sin.shape = [T, d]) (hy : rotateWith op x rope = .ok y) (a len : ℕ) (hlen : a + len ≤ T) :
    rotateWith op (x.narrow 1 a len) (rope.narrow a len) = .ok (y.narrow 1 a len) := by
  obtain ⟨y', hy', hyshape, hyat⟩ := rotateWith_spec op hx hne hcos hsin
  obtain rfl := Except.ok.inj (hy'.symm.trans hy)
  have hcos' : (rope.narrow a len).cos.shape = [len, d] := shape_narrow_table hcos a len
  have hsin' : (rope.narrow a len).sin.shape = [len, d] := shape_narrow_table hsin a len
  obtain ⟨z, hz, hzshape, hzat⟩ :=
    rotateWith_spec op (shape_narrow_tokens hx a len) hne hcos' hsin'
  rw [hz]
  refine congrArg Except.ok (ext_at (hzshape.trans (shape_narrow_tokens hyshape a len).symm) ?_)
  intro idx hidx
  obtain ⟨s, t, k, l, rfl, hs, ht, hk, hl⟩ := exists_of_within₄ (hzshape ▸ hidx)
  have hrow : ∀ l < d, (x.narrow 1 a len).at [s, t, k, l] = x.at [s, a + t, k, l] :=
    fun l hl => at_narrow_tokens hx a hs ht hk hl
  rw [hzat s hs t ht k hk l hl, rotated_congr _ _ _ hrow hl, rotated_narrow op hcos hsin a ht _ hl,
    at_narrow_tokens hyshape a hs ht hk hl, hyat s hs (a + t) (by omega) k hk l hl]

/-- A token of a piece has the design row it has in the whole. -/
theorem designRow_narrow {x : Tensor R} {n T heads dim : ℕ} (hx : x.shape = [n, T, heads, dim]) (a : ℕ)
    {len t : ℕ} (ht : t < len) {layers : List ℤ} (hlayers : ∀ s ∈ layers, 0 ≤ s ∧ s < n) :
    designRow heads dim (x.narrow 1 a len) layers t = designRow heads dim x layers (a + t) := by
  rw [designRow, designRow]
  refine List.flatMap_congr fun s hs => List.flatMap_congr fun h hh => List.map_congr_left fun d hd => ?_
  obtain ⟨hpos, hlt⟩ := hlayers s hs
  exact at_narrow_tokens hx a (by omega) ht (List.mem_range.1 hh) (List.mem_range.1 hd)

namespace CrossModelKVMap

/-- **A piece of the source maps to the piece of the result.** -/
theorem MapsTo.narrow {self : CrossModelKVMap R} {maps : List (LayerMap R)}
    {rope : Option (RopeTables R)} {n T : ℕ} {source out : Tensor R}
    (hsrc : source.shape = [n, T, self.numKvHeads, self.headDim])
    (hlayers : ∀ m ∈ maps, ∀ s ∈ m.sourceLayers, 0 ≤ s ∧ s < n)
    (hrope : ∀ r, rope = some r → r.Fits T self.headDim) (h : self.MapsTo maps rope T source out)
    (a len : ℕ) (hlen : a + len ≤ T) :
    self.MapsTo maps (rope.map (·.narrow a len)) len (source.narrow 1 a len) (out.narrow 1 a len) where
  shape := shape_narrow_tokens h.shape a len
  entry layer m w hm hw t ht k hk l hl := by
    have hlayer : layer < maps.length := (List.getElem?_eq_some_iff.1 hm).1
    rw [at_narrow_tokens h.shape a hlayer ht hk hl, h.entry layer m w hm hw (a + t) (by omega) k hk l hl,
      designRow_narrow hsrc a ht (hlayers m (List.mem_of_getElem? hm))]
    cases rope with
    | none => rfl
    | some r =>
      obtain ⟨-, hcos, hsin⟩ := hrope r rfl
      simp only [turned, Option.map_some]
      exact (rotated_narrow (· + ·) hcos hsin a ht _ hl).symm

/-! ### Factors and identity maps -/

end CrossModelKVMap

/-- The map with the product of its factors stored as a weight. -/
def LayerMap.dense (m : LayerMap R) : LayerMap R := { m with weight := m.matrix, factors := none }

/-- **Factors map as their product does.** -/
theorem LayerMap.dense_apply (gelu : R → R) {m : LayerMap R} {x w : Tensor R} {n q p : ℕ}
    (hx : x.shape = [n, q]) (hw : m.matrix = some w) (hwshape : w.shape = [q, p]) (useResidual : Bool) :
    m.dense.apply gelu x useResidual = m.apply gelu x useResidual := by
  have hproduct : m.dense.product x = m.product x := by
    obtain ⟨y, hy, hyshape, hyat⟩ := product_spec hx hw hwshape
    obtain ⟨y', hy', hyshape', hyat'⟩ := product_spec (m := m.dense) hx hw hwshape
    rw [hy, hy']
    refine congrArg Except.ok (ext_at (hyshape'.trans hyshape.symm) fun idx hidx => ?_)
    obtain ⟨i, j, rfl, hi, hj⟩ := exists_of_within₂ (hyshape' ▸ hidx)
    rw [hyat' i hi j hj, hyat i hi j hj]
  rw [apply, apply, hproduct]
  rfl

/-- The identity on the heads of one layer. -/
structure LayerMap.IsIdentity (m : LayerMap R) (layer kvDim : ℕ) : Prop where
  layers : m.sourceLayers = [(layer : ℤ)]
  matrix : ∀ w, m.matrix = some w → ∀ i < kvDim, ∀ j < kvDim, w.at [i, j] = if i = j then 1 else 0
  bias : ∀ j < kvDim, m.bias.at [j] = 0

/-- The identity map of a row. -/
theorem affine_identity {heads dim : ℕ} {m : LayerMap R} {layer : ℕ}
    (hm : m.IsIdentity layer (heads * dim)) {w : Tensor R} (hw : m.matrix = some w) (x : Tensor R) (t : ℕ)
    {k l : ℕ} (hk : k < heads) (hl : l < dim) :
    affine w m.bias (designRow heads dim x m.sourceLayers t) (k * dim + l) = x.at [layer, t, k, l] := by
  have hin : k * dim + l < heads * dim := by
    simpa [feature] using feature_lt (n := 1) Nat.one_pos hk hl
  have hrow := getD_designRow x t (s := 0) (show 0 < m.sourceLayers.length by simp [hm.layers]) hk hl
  rw [affine, hm.bias _ hin, add_zero, length_designRow, hm.layers, List.length_singleton, Nat.one_mul,
    Finset.sum_eq_single_of_mem _ (Finset.mem_range.2 hin)]
  · rw [hm.matrix w hw _ hin _ hin, if_pos rfl, mul_one]
    simpa [feature, hm.layers] using hrow
  · intro f hf hne
    rw [hm.matrix w hw f (Finset.mem_range.1 hf) _ hin, if_neg hne, mul_zero]

namespace CrossModelKVMap

/-- Every layer map with the product of its factors stored as a weight. -/
def dense (self : CrossModelKVMap R) : CrossModelKVMap R :=
  { self with keys := self.keys.map LayerMap.dense, values := self.values.map LayerMap.dense }

/-- Every layer map is the identity on its own layer. -/
def Identity (self : CrossModelKVMap R) : Prop :=
  ∀ layer (m : LayerMap R), self.keys[layer]? = some m ∨ self.values[layer]? = some m →
    m.IsIdentity layer (self.numKvHeads * self.headDim)

theorem dense_applyMaps (gelu : R → R) {self : CrossModelKVMap R} {source : Tensor R} {n seq : ℕ}
    (hsrc : source.shape = [n, seq, self.numKvHeads, self.headDim]) {maps : List (LayerMap R)}
    (hchecked : ∀ m ∈ maps, m.Checked n (self.numKvHeads * self.headDim))
    (hmat : ∀ m ∈ maps, HasMatrix (self.numKvHeads * self.headDim) m) (useResidual : Bool)
    (rope : Option (RopeTables R)) :
    self.dense.applyMaps gelu source (maps.map LayerMap.dense) useResidual rope =
      self.applyMaps gelu source maps useResidual rope := by
  have hlayer : ∀ m ∈ maps, self.dense.applyLayer gelu source m.dense useResidual rope =
      self.applyLayer gelu source m useResidual rope := by
    intro m hm
    obtain ⟨w, hw, hwshape⟩ := hmat m hm
    rcases Nat.eq_zero_or_pos seq with rfl | hseq
    · obtain ⟨e, he⟩ := design_empty hsrc m.sourceLayers
      have he' : design source m.dense.sourceLayers = .error e := he
      rw [applyLayer, applyLayer, he, he']
      rfl
    · obtain ⟨x, hx, hxshape, -⟩ := design_spec hsrc hseq (hchecked m hm).layers
      have hx' : design source m.dense.sourceLayers = .ok x := hx
      have happly := LayerMap.dense_apply gelu hxshape hw hwshape useResidual
      rw [applyLayer, applyLayer, hx, hx']
      simp only [bind, Except.bind, happly]
      rfl
  rw [applyMaps, applyMaps, List.length_map]
  congr 1
  funext layer
  rw [List.getElem?_map]
  cases hm : maps[layer]? with
  | none => rfl
  | some m => exact hlayer m (List.mem_of_getElem? hm)

/-- **Factors map as their product does**, on every source KV. -/
theorem dense_map (gelu : R → R) {self : CrossModelKVMap R} {src tgt : ModelConfig}
    (hacc : self.Accepted src tgt)
    (hmat : ∀ m ∈ self.keys ++ self.values, HasMatrix (self.numKvHeads * self.headDim) m)
    {T : ℕ} {k v : Tensor R} {sourceRope targetRope : RopeTables R}
    (hkv : self.SourceKV src T k v sourceRope targetRope) (hne : self.headDim ≠ 1) (useResidual : Bool) :
    self.dense.map gelu k v sourceRope targetRope useResidual =
      self.map gelu k v sourceRope targetRope useResidual := by
  obtain ⟨hk, hv, hsource, -⟩ := hkv
  rw [← hacc.heads] at hk hv
  obtain ⟨c, hcont, hcshape, -⟩ := content_spec hk (Or.inr ⟨hne, hsource⟩)
  have hkeys := dense_applyMaps gelu hcshape (fun m hm => hacc.checked m (List.mem_append_left _ hm))
    (fun m hm => hmat m (List.mem_append_left _ hm)) useResidual (some targetRope)
  have hvalues := dense_applyMaps gelu hv (fun m hm => hacc.checked m (List.mem_append_right _ hm))
    (fun m hm => hmat m (List.mem_append_right _ hm)) useResidual none
  simp only [map, hcont, bind, Except.bind]
  rw [← hkeys, ← hvalues]
  rfl

/-- What identity maps make of a tensor is the tensor, each head vector turned. -/
theorem MapsTo.identity {self : CrossModelKVMap R} {maps : List (LayerMap R)}
    {rope : Option (RopeTables R)} {T : ℕ} {source out : Tensor R} (h : self.MapsTo maps rope T source out)
    (hmat : ∀ m ∈ maps, HasMatrix (self.numKvHeads * self.headDim) m)
    (hid : ∀ layer (m : LayerMap R), maps[layer]? = some m →
      m.IsIdentity layer (self.numKvHeads * self.headDim))
    {layer t k l : ℕ} (hlayer : layer < maps.length) (ht : t < T) (hk : k < self.numKvHeads)
    (hl : l < self.headDim) : out.at [layer, t, k, l] =
      turned rope self.headDim t (fun l => source.at [layer, t, k, l]) l := by
  have hm := List.getElem?_eq_getElem hlayer
  obtain ⟨w, hw, -⟩ := hmat _ (List.getElem_mem hlayer)
  rw [h.entry layer _ w hm hw t ht k hk l hl]
  exact turned_congr rope t (fun l hl => affine_identity (hid layer _ hm) hw source t hk hl) hl

/-- **Identity maps between equal models** return what they are given. -/
theorem map_identity (gelu : R → R) {self : CrossModelKVMap R} {src tgt : ModelConfig}
    (hacc : self.Accepted src tgt) (hlayers : src.numHiddenLayers = tgt.numHiddenLayers)
    (hmat : ∀ m ∈ self.keys ++ self.values, HasMatrix (self.numKvHeads * self.headDim) m)
    (hid : self.Identity) {useResidual : Bool}
    (hres : ∀ m ∈ self.keys ++ self.values, useResidual = false ∨ m.residual = none)
    (hd : Even self.headDim) {T : ℕ} (hT : 0 < T ∨ tgt.numHiddenLayers = 0) {k v : Tensor R}
    {rope : RopeTables R} (hkv : self.SourceKV src T k v rope rope)
    (hrot : rope.Rotation T self.headDim) : self.map gelu k v rope rope useResidual = .ok (k, v) := by
  obtain ⟨c, K, V, hstrip, hturn, hmap, hK, hV⟩ :=
    map_entries gelu hacc hmat hres hd hT hkv hrot
  obtain ⟨hk, hv, -, -⟩ := hkv
  rw [← hacc.heads] at hk hv
  have hne : self.headDim ≠ 1 := fun hone => by simp [hone] at hd
  have hKeq : K = k := by
    refine ext_at (by rw [hK.shape, hk, hacc.keysLength, hlayers]) fun idx hidx => ?_
    obtain ⟨layer, t, h, l, rfl, hlayer, ht, hh, hl⟩ := exists_of_within₄ (hK.shape ▸ hidx)
    have hlt : layer < src.numHiddenLayers := by rwa [hlayers, ← hacc.keysLength]
    rw [hK.identity (fun m hm => hmat m (List.mem_append_left _ hm))
      (fun layer m hm => hid layer m (Or.inl hm)) hlayer ht hh hl]
    obtain ⟨c', hc', hcshape, -⟩ := rotateWith_spec (· - ·) hk hne hrot.cos hrot.sin
    obtain rfl := Except.ok.inj (hc'.symm.trans hstrip)
    obtain ⟨k', hk', -, hkat⟩ := rotateWith_spec (· + ·) hcshape hne hrot.cos hrot.sin
    obtain rfl := Except.ok.inj (hk'.symm.trans hturn)
    exact (hkat layer hlt t ht h hh l hl).symm
  have hVeq : V = v := by
    refine ext_at (by rw [hV.shape, hv, hacc.valuesLength, hlayers]) fun idx hidx => ?_
    obtain ⟨layer, t, h, l, rfl, hlayer, ht, hh, hl⟩ := exists_of_within₄ (hV.shape ▸ hidx)
    rw [hV.identity (fun m hm => hmat m (List.mem_append_right _ hm))
      (fun layer m hm => hid layer m (Or.inr hm)) hlayer ht hh hl]
    rfl
  rw [hmap, hKeq, hVeq]

/-! ### The claim of the docstring -/

/-- The map of the sequence is the affine map of each token, the piece from token `a` to token `b`
maps to the piece of the result, factors map as their product, and identity maps between equal
models change nothing. -/
def Affine (gelu : R → R) (self : CrossModelKVMap R) (src tgt : ModelConfig) (T : ℕ) (k v : Tensor R)
    (sourceRope targetRope : RopeTables R) (useResidual : Bool) (a b : ℕ) : Prop :=
  ∃ c K V, stripRope k sourceRope = .ok c ∧ applyRope c sourceRope = .ok k ∧
    self.map gelu k v sourceRope targetRope useResidual = .ok (K, V) ∧
    self.MapsTo self.keys (some targetRope) T c K ∧ self.MapsTo self.values none T v V ∧
    self.map gelu (k.narrow 1 a (b - a)) (v.narrow 1 a (b - a)) (sourceRope.narrow a (b - a))
      (targetRope.narrow a (b - a)) useResidual = .ok (K.narrow 1 a (b - a), V.narrow 1 a (b - a)) ∧
    self.dense.map gelu k v sourceRope targetRope useResidual = .ok (K, V) ∧
    (src = tgt → sourceRope = targetRope → self.Identity → K = k ∧ V = v)

/-- A run on no token needs that there is no target layer. -/
theorem layers_of_empty (gelu : R → R) {self : CrossModelKVMap R} {src tgt : ModelConfig}
    (hacc : self.Accepted src tgt) {k v : Tensor R} {sourceRope targetRope : RopeTables R}
    (hv : v.shape = [src.numHiddenLayers, 0, src.numKeyValueHeads, self.headDim]) {useResidual : Bool}
    {kv : Tensor R × Tensor R} (h : self.map gelu k v sourceRope targetRope useResidual = .ok kv) :
    tgt.numHiddenLayers = 0 := by
  by_contra hne
  obtain ⟨c, -, h₁⟩ := bind_ok.1 h
  obtain ⟨K, -, h₂⟩ := bind_ok.1 h₁
  obtain ⟨V, hV, -⟩ := bind_ok.1 h₂
  have hpos : 0 < self.values.length := by
    rw [hacc.valuesLength]
    omega
  obtain ⟨z, hz⟩ := applyMaps_ok gelu hV _ (List.getElem_mem hpos)
  obtain ⟨x, hx, -⟩ := bind_ok.1 hz
  obtain ⟨e, he⟩ := design_empty hv self.values[0].sourceLayers
  cases he.symm.trans hx

/-- **The map is affine in each token, on every piece that has one**: of an empty piece the code
reshapes no entries into rows of an unknown length, and raises. -/
theorem piece_affine_iff (gelu : R → R) {keys values : List (LayerMap R)} {src tgt : ModelConfig}
    {self : CrossModelKVMap R} (h : init keys values src tgt = .ok self)
    (hmat : ∀ m ∈ keys ++ values, HasMatrix (self.numKvHeads * self.headDim) m) {useResidual : Bool}
    (hres : ∀ m ∈ keys ++ values, useResidual = false ∨ m.residual = none) (hd : Even self.headDim)
    {T : ℕ} {k v : Tensor R} {sourceRope targetRope : RopeTables R}
    (hkv : self.SourceKV src T k v sourceRope targetRope)
    (hsource : sourceRope.Rotation T self.headDim) (htarget : targetRope.Rotation T self.headDim)
    {a b : ℕ} (hab : a ≤ b) (hb : b ≤ T) :
    self.Affine gelu src tgt T k v sourceRope targetRope useResidual a b ↔
      a < b ∨ tgt.numHiddenLayers = 0 := by
  obtain ⟨rfl, rfl, hacc⟩ := init_ok h
  have hne : self.headDim ≠ 1 := fun hone => by simp [hone] at hd
  have hpiece : self.SourceKV src (b - a) (k.narrow 1 a (b - a)) (v.narrow 1 a (b - a))
      (sourceRope.narrow a (b - a)) (targetRope.narrow a (b - a)) :=
    ⟨shape_narrow_tokens hkv.k a _, shape_narrow_tokens hkv.v a _,
      ⟨shape_narrow_table hkv.source.1 a _, shape_narrow_table hkv.source.2 a _⟩,
      shape_narrow_table hkv.target.1 a _, shape_narrow_table hkv.target.2 a _⟩
  constructor
  · rintro ⟨c, K, V, -, -, -, -, -, hrun, -, -⟩
    by_contra hnot
    obtain ⟨hlt, hlayers⟩ := not_or.1 hnot
    have hempty : b - a = 0 := by omega
    rw [hempty] at hrun hpiece
    exact hlayers (layers_of_empty gelu hacc hpiece.v hrun)
  · intro hsome
    have hT : 0 < T ∨ tgt.numHiddenLayers = 0 := by
      rcases hsome with hlt | hl
      · exact Or.inl (by omega)
      · exact Or.inr hl
    have hlen : 0 < b - a ∨ tgt.numHiddenLayers = 0 := by
      rcases hsome with hlt | hl
      · exact Or.inl (by omega)
      · exact Or.inr hl
    obtain ⟨c, K, V, hstrip, hturn, hmap, hK, hV⟩ := map_entries gelu hacc hmat hres hd hT hkv hsource
    refine ⟨c, K, V, hstrip, hturn, hmap, hK, hV, ?_, ?_, ?_⟩
    · obtain ⟨c', K', V', hstrip', -, hmap', hK', hV'⟩ :=
        map_entries gelu hacc hmat hres hd hlen hpiece (hsource.narrow (by omega))
      have hshape := hkv.k
      have hvshape := hkv.v
      rw [← hacc.heads] at hshape hvshape
      have hcut := rotateWith_narrow (· - ·) hshape hne hsource.cos hsource.sin hstrip a (b - a)
        (by omega)
      obtain rfl := Except.ok.inj (hstrip'.symm.trans hcut)
      have hcshape : c.shape = [src.numHiddenLayers, T, self.numKvHeads, self.headDim] := by
        obtain ⟨c₀, hc₀, hcshape, -⟩ := rotateWith_spec (· - ·) hshape hne hsource.cos hsource.sin
        obtain rfl := Except.ok.inj (hc₀.symm.trans hstrip)
        exact hcshape
      have hlayers : ∀ m ∈ self.keys ++ self.values, ∀ s ∈ m.sourceLayers,
          0 ≤ s ∧ s < src.numHiddenLayers := fun m hm => (hacc.checked m hm).layers
      have hKcut := hK.narrow hcshape (fun m hm => hlayers m (List.mem_append_left _ hm))
        (fun r hr => Option.some.inj hr ▸ ⟨hne, htarget.cos, htarget.sin⟩) a (b - a) (by omega)
      have hVcut := hV.narrow hvshape (fun m hm => hlayers m (List.mem_append_right _ hm))
        (fun r hr => nomatch (hr : none = some r)) a (b - a) (by omega)
      rw [hmap', hK'.unique (fun m hm => hmat m (List.mem_append_left _ hm)) hKcut,
        hV'.unique (fun m hm => hmat m (List.mem_append_right _ hm)) hVcut]
    · rw [dense_map gelu hacc hmat hkv hne, hmap]
    · rintro rfl rfl hid
      have hsame := map_identity gelu hacc rfl hmat hid hres hd hT hkv hsource
      have heq := Prod.mk.inj (Except.ok.inj (hmap.symm.trans hsame))
      exact heq

/-- The hypotheses are satisfiable: the second of two tokens, through factors that read the one
source layer twice, with a quarter turn. -/
theorem piece_affine_iff_repeated_layer :
    let config : ModelConfig := ⟨1, 1, some 2, 2, 1, 7⟩
    let m : LayerMap ℤ := ⟨[0, 0], ⟨[2], [5, 6], rfl⟩, none,
      some (⟨[4, 1], [1, 2, 3, 4], rfl⟩, ⟨[1, 2], [1, -1], rfl⟩), none⟩
    let kv : Tensor ℤ := ⟨[1, 2, 1, 2], [1, 2, 3, 4], rfl⟩
    let rope : RopeTables ℤ := ⟨⟨[2, 2], [1, 1, 0, 0], rfl⟩, ⟨[2, 2], [0, 0, 1, 1], rfl⟩⟩
    ∃ self, init [m] [m] config config = .ok self ∧
      self.Affine id config config 2 kv kv rope rope true 1 2 := by
  intro config m kv rope
  have hinit : init [m] [m] config config = .ok ⟨[m], [m], 1, 2⟩ := rfl
  have hrot : rope.Rotation 2 2 := ⟨rfl, rfl, by decide, by decide⟩
  have hone : ∀ m' ∈ [m] ++ [m], m' = m := by simp
  refine ⟨⟨[m], [m], 1, 2⟩, hinit, (piece_affine_iff id hinit (fun m' hm' => ?_) (fun m' hm' => ?_)
    ⟨1, rfl⟩ ⟨rfl, rfl, ⟨rfl, rfl⟩, rfl, rfl⟩ hrot hrot (by decide) le_rfl).2 (Or.inl (by decide))⟩
  · rw [hone m' hm']
    exact ⟨_, rfl, rfl⟩
  · rw [hone m' hm']
    exact Or.inr rfl

/-- Mapping the empty prefix of one token raises, even with identity maps. -/
theorem empty_prefix_raises :
    let config : ModelConfig := ⟨1, 1, some 2, 2, 1, 7⟩
    let m : LayerMap ℤ := ⟨[0], ⟨[2], [0, 0], rfl⟩, some ⟨[2, 2], [1, 0, 0, 1], rfl⟩, none, none⟩
    let kv : Tensor ℤ := ⟨[1, 1, 1, 2], [1, 2], rfl⟩
    let rope : RopeTables ℤ := ⟨⟨[1, 2], [1, 1], rfl⟩, ⟨[1, 2], [0, 0], rfl⟩⟩
    ∃ self, init [m] [m] config config = .ok self ∧
      ¬ self.Affine id config config 1 kv kv rope rope true 0 0 := by
  intro config m kv rope
  refine ⟨⟨[m], [m], 1, 2⟩, rfl, ?_⟩
  rintro ⟨c, K, V, -, -, -, -, -, hrun, -, -⟩
  have hraise : (map id ⟨[m], [m], 1, 2⟩ (kv.narrow 1 0 0) (kv.narrow 1 0 0) (rope.narrow 0 0)
      (rope.narrow 0 0) true).toBool = false := by decide +kernel
  rw [show (0 : ℕ) - 0 = 0 from rfl] at hrun
  rw [hrun] at hraise
  cases hraise

end CrossModelKVMap

end Rows

end DiSpec
