/-
# Mapping one model's KV into another's

`dispec/kv/transfer.py`: `head_dim_of`, `strip_rope`, `apply_rope`, `LayerMap`,
`CrossModelKVMap`.

KV tensors have the shape `[layers, tokens, kv heads, head_dim]`.  For each target layer the map
concatenates some source layers into one design row per token, multiplies by a stored matrix or by
two factors, adds a bias and optionally a residual, and splits the row into heads again; keys are
taken out of their rotation before and put into the target's after.

Arithmetic is exact: the conversions between dtypes are identities.  `F.gelu` is a parameter.
torch raises `RuntimeError` for shapes that do not match.  The warning about maps fitted for other
models changes nothing and is left out.
-/

import DiSpec.Lib.Tensor
import Mathlib.Algebra.Ring.Basic

namespace DiSpec

/-- What building or applying a map raises. -/
inductive TransferExc
  | ValueError (msg : String)
  | TypeError
  | IndexError
  | ZeroDivisionError
  | RuntimeError
  deriving DecidableEq

/-- What torch raises where shapes do not match. -/
def orRuntimeError {α : Type} : Option α → Except TransferExc α
  | some a => .ok a
  | none => .error .RuntimeError

/-- The fields of a model's configuration that a map looks at. -/
structure ModelConfig where
  numHiddenLayers : ℕ
  numKeyValueHeads : ℕ
  headDim : Option ℕ
  hiddenSize : ℕ
  numAttentionHeads : ℕ
  vocabSize : ℕ

/-- `head_dim_of`: a missing or zero `head_dim` is computed. -/
def headDimOf (config : ModelConfig) : Except TransferExc ℕ :=
  match config.headDim with
  | some (d + 1) => .ok (d + 1)
  | _ =>
    if config.numAttentionHeads = 0 then .error .ZeroDivisionError
    else .ok (config.hiddenSize / config.numAttentionHeads)

/-! ### RoPE in and out of content space -/

section Rope

variable {R : Type} [Ring R]

/-- The tables `(cos, sin)` of shape `[tokens, head_dim]`. -/
structure RopeTables (R : Type) where
  cos : Tensor R
  sin : Tensor R

/-- `x.chunk(2, dim=-1)` unpacked into two: the first half is the longer one, and a single
entry makes a single chunk. -/
def chunk2 (x : Tensor R) : Except TransferExc (Tensor R × Tensor R) :=
  match x.shape with
  | [a, b, h, d] =>
    if d = 1 then .error (.ValueError "not enough values to unpack (expected 2, got 1)")
    else
      let c := (d + 1) / 2
      .ok (.build [a, b, h, c] x.at, .build [a, b, h, d - c] fun
        | [i, j, k, l] => x.at [i, j, k, c + l]
        | _ => 0)
  | _ => .error .RuntimeError

/-- `torch.cat((x, y), dim=-1)`. -/
def catLast (x y : Tensor R) : Except TransferExc (Tensor R) :=
  match x.shape, y.shape with
  | [a, b, h, c], [a', b', h', c'] =>
    if a = a' ∧ b = b' ∧ h = h' then
      .ok (.build [a, b, h, c + c'] fun
        | [i, j, k, l] => if l < c then x.at [i, j, k, l] else y.at [i, j, k, l - c]
        | _ => 0)
    else .error .RuntimeError
  | _, _ => .error .RuntimeError

/-- `_rotate_half`. -/
def rotateHalf (x : Tensor R) : Except TransferExc (Tensor R) := do
  let (x1, x2) ← chunk2 x
  catLast (x2.map (- ·)) x1

/-- `table[None, :, None, :]`. -/
def unsqueeze (table : Tensor R) : Except TransferExc (Tensor R) :=
  match table.shape with
  | [t, d] => orRuntimeError (table.view [1, t, 1, d])
  | _ => .error .IndexError

/-- `strip_rope`: rotated keys to content-space keys. -/
def stripRope (keys : Tensor R) (rope : RopeTables R) : Except TransferExc (Tensor R) := do
  let cos ← unsqueeze rope.cos
  let sin ← unsqueeze rope.sin
  let xc ← orRuntimeError (keys.zipWith (· * ·) cos)
  let half ← rotateHalf keys
  let xs ← orRuntimeError (half.zipWith (· * ·) sin)
  orRuntimeError (xc.zipWith (· - ·) xs)

/-- `apply_rope`: content-space keys to rotated keys. -/
def applyRope (keys : Tensor R) (rope : RopeTables R) : Except TransferExc (Tensor R) := do
  let cos ← unsqueeze rope.cos
  let sin ← unsqueeze rope.sin
  let xc ← orRuntimeError (keys.zipWith (· * ·) cos)
  let half ← rotateHalf keys
  let xs ← orRuntimeError (half.zipWith (· * ·) sin)
  orRuntimeError (xc.zipWith (· + ·) xs)

end Rope

/-! ### The map of one layer -/

/-- `LayerMap`: the affine map producing one target layer's keys or values. -/
structure LayerMap (R : Type) where
  sourceLayers : List ℤ
  bias : Tensor R
  weight : Option (Tensor R)
  factors : Option (Tensor R × Tensor R)
  residual : Option (Tensor R × Tensor R × Tensor R)

/-- `F.linear(x, w, b)` of rows `x`: `x @ w.t() + b`.  With a bias it is `addmm`, of a matrix and a bias
that can be expanded to the product. -/
def linear {R : Type} [Ring R] (x w : Tensor R) (b : Option (Tensor R)) :
    Except TransferExc (Tensor R) := do
  let wt ← orRuntimeError w.transpose
  let y ← orRuntimeError (x.matmul wt)
  match b with
  | none => return y
  | some b =>
    if wt.shape.length = 2 ∧ Tensor.broadcast b.shape y.shape = some y.shape then
      orRuntimeError (y.zipWith (· + ·) b)
    else throw .RuntimeError

namespace LayerMap

variable {R : Type} [Ring R]

/-- The product that `apply` begins with: by the factors if they are stored, else by the weight. -/
def product (m : LayerMap R) (x : Tensor R) : Except TransferExc (Tensor R) :=
  match m.factors with
  | some (left, right) => do
    let y ← orRuntimeError (x.matmul left)
    orRuntimeError (y.matmul right)
  | none =>
    match m.weight with
    | some w => orRuntimeError (x.matmul w)
    | none => .error .TypeError

/-- `apply`. -/
def apply (gelu : R → R) (m : LayerMap R) (x : Tensor R) (useResidual : Bool) :
    Except TransferExc (Tensor R) := do
  let xw ← m.product x
  let y ← orRuntimeError (xw.zipWith (· + ·) m.bias)
  match useResidual, m.residual with
  | true, some (downW, downB, upW) =>
    let down ← linear x downW (some downB)
    let up ← linear (down.map gelu) upW none
    orRuntimeError (y.zipWith (· + ·) up)
  | _, _ => return y

end LayerMap

/-! ### The map of all layers -/

/-- `CrossModelKVMap`. -/
structure CrossModelKVMap (R : Type) where
  keys : List (LayerMap R)
  values : List (LayerMap R)
  numKvHeads : ℕ
  headDim : ℕ

/-- Python's `repr` of a list. -/
def pyList (xs : List ℤ) : String := "[" ++ ", ".intercalate (xs.map toString) ++ "]"

/-- Python's `repr` of a tuple. -/
def pyTuple : List ℕ → String
  | [] => "()"
  | [n] => "(" ++ toString n ++ ",)"
  | ns => "(" ++ ", ".intercalate (ns.map toString) ++ ")"

namespace CrossModelKVMap

variable {R : Type}

/-- The first part of `_check`: what source and target must have in common. -/
def checkConfigs (src tgt : ModelConfig) : Except TransferExc Unit := do
  let srcDim ← headDimOf src
  let tgtDim ← headDimOf tgt
  [("num_key_value_heads", src.numKeyValueHeads, tgt.numKeyValueHeads),
    ("head_dim", srcDim, tgtDim),
    ("vocab_size", src.vocabSize, tgt.vocabSize)].forM fun (attr, a, b) =>
      if a ≠ b then
        let reason := if attr = "vocab_size" then "the models do not share a tokenizer"
          else "a source head cannot map onto a target head"
        throw (.ValueError s!"cannot transfer KV: {attr} differs ({a} vs {b}); {reason}")
      else pure ()

/-- The shape `_check` looks at: that of the weight, or of the product of the factors. -/
def checkedShape (m : LayerMap R) : Except TransferExc (List ℕ) :=
  match m.weight with
  | some w => .ok w.shape
  | none =>
    match m.factors with
    | none => .error .TypeError
    | some (left, right) =>
      match left.shape[0]?, right.shape[1]? with
      | some a, some b => .ok [a, b]
      | _, _ => .error .IndexError

/-- The body of the loop of `_check` over layer maps. -/
def checkLayer (kind : String) (nSrc kvDim layer : ℕ) (m : LayerMap R) : Except TransferExc Unit := do
  let bad := m.sourceLayers.filter fun s : ℤ => ¬(0 ≤ s ∧ s < nSrc)
  if bad ≠ [] then
    throw (.ValueError (s!"{kind} map for target layer {layer} reads source layers " ++ pyList bad ++
      s!", but the source has {nSrc}"))
  let designDim := m.sourceLayers.length * kvDim
  let shape ← checkedShape m
  if shape ≠ [designDim, kvDim] ∨ m.bias.shape ≠ [kvDim] then
    throw (.ValueError (s!"{kind} map for target layer {layer} has shape " ++ pyTuple shape ++
      ", expected " ++ pyTuple [designDim, kvDim]))
  match m.residual with
  | none => pure ()
  | some (downW, _, upW) =>
    let msg := s!"{kind} residual for target layer {layer} does not match a {designDim}->{kvDim} map"
    match downW.shape[1]? with
    | none => throw .IndexError
    | some d =>
      if d ≠ designDim then throw (.ValueError msg)
      match upW.shape[0]? with
      | none => throw .IndexError
      | some u => if u ≠ kvDim then throw (.ValueError msg)

/-- The loop of `_check` over the layer maps of one kind. -/
def checkLayers (kind : String) (nSrc kvDim : ℕ) : ℕ → List (LayerMap R) → Except TransferExc Unit
  | _, [] => pure ()
  | layer, m :: maps => do
    checkLayer kind nSrc kvDim layer m
    checkLayers kind nSrc kvDim (layer + 1) maps

/-- The part of `_check` about the maps of one kind. -/
def checkKind (kind : String) (nSrc nTgt kvDim : ℕ) (maps : List (LayerMap R)) :
    Except TransferExc Unit := do
  if maps.length ≠ nTgt then
    throw (.ValueError s!"{kind}: {maps.length} layer maps for a {nTgt}-layer target")
  checkLayers kind nSrc kvDim 0 maps

/-- `_check`. -/
def check (self : CrossModelKVMap R) (src tgt : ModelConfig) : Except TransferExc Unit := do
  checkConfigs src tgt
  let kvDim := self.numKvHeads * self.headDim
  checkKind "keys" src.numHiddenLayers tgt.numHiddenLayers kvDim self.keys
  checkKind "values" src.numHiddenLayers tgt.numHiddenLayers kvDim self.values

/-- `CrossModelKVMap.__init__`. -/
def init (keys values : List (LayerMap R)) (src tgt : ModelConfig) :
    Except TransferExc (CrossModelKVMap R) := do
  let headDim ← headDimOf tgt
  let self : CrossModelKVMap R := ⟨keys, values, tgt.numKeyValueHeads, headDim⟩
  self.check src tgt
  return self

variable [Ring R]

/-- A place in a dimension of `n`, counted from the end if negative. -/
def place (n : ℕ) (i : ℤ) : Except TransferExc ℕ :=
  if 0 ≤ i ∧ i < n then .ok i.toNat
  else if -n ≤ i ∧ i < 0 then .ok (n + i).toNat
  else .error .IndexError

/-- `for layer in range(n): out[layer] = f(layer)`. -/
def fillLayers (f : ℕ → Except TransferExc (Tensor R)) (out : Tensor R) : ℕ → Except TransferExc (Tensor R)
  | 0 => .ok out
  | n + 1 => do
    let out ← fillLayers f out n
    let y ← f n
    orRuntimeError (out.assign n y)

/-- The design rows: `source[layers].permute(1, 0, 2, 3).reshape(seq, -1)`. -/
def design (source : Tensor R) (layers : List ℤ) : Except TransferExc (Tensor R) :=
  match source.shape with
  | [n, seq, _, _] => do
    let ls ← layers.mapM (place n)
    orRuntimeError ((source.select ls).swap.rows seq)
  | _ => .error .RuntimeError

/-- The body of the loop of `_apply`: one target layer. -/
def applyLayer (gelu : R → R) (self : CrossModelKVMap R) (source : Tensor R) (m : LayerMap R)
    (useResidual : Bool) (rope : Option (RopeTables R)) : Except TransferExc (Tensor R) := do
  let seq := source.shape.getD 1 0
  let x ← design source m.sourceLayers
  let y ← m.apply gelu x useResidual
  let y ← orRuntimeError (y.view [1, seq, self.numKvHeads, self.headDim])
  let y ← match rope with
    | some rope => applyRope y rope
    | none => pure y
  return y.first

/-- `_apply`. -/
def applyMaps (gelu : R → R) (self : CrossModelKVMap R) (source : Tensor R) (maps : List (LayerMap R))
    (useResidual : Bool) (rope : Option (RopeTables R)) : Except TransferExc (Tensor R) :=
  let seq := source.shape.getD 1 0
  fillLayers (fun layer =>
      match maps[layer]? with
      | some m => self.applyLayer gelu source m useResidual rope
      | none => .error .IndexError)
    (.build [maps.length, seq, self.numKvHeads, self.headDim] fun _ => 0) maps.length

/-- The loop of `map` that takes the keys out of their rotation. -/
def content (k : Tensor R) (rope : RopeTables R) : Except TransferExc (Tensor R) :=
  fillLayers (fun layer => do
      let y ← stripRope (k.select [layer]) rope
      return y.first)
    (.build k.shape fun _ => 0) (k.shape.getD 0 0)

/-- `map`: contiguous source KV to target KV. -/
def map (gelu : R → R) (self : CrossModelKVMap R) (k v : Tensor R) (sourceRope targetRope : RopeTables R)
    (useResidual : Bool) : Except TransferExc (Tensor R × Tensor R) := do
  let content ← content k sourceRope
  let keys ← self.applyMaps gelu content self.keys useResidual (some targetRope)
  let values ← self.applyMaps gelu v self.values useResidual none
  return (keys, values)

end CrossModelKVMap

end DiSpec
