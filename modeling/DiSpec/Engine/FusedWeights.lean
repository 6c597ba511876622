/-
# Fused weights and the model that runners share

`dispec/engine/model_runner.py`: `ModelRunner.__init__`, `_build_fused`, `_attention`, `_mlp`, `forward`, on
the native backend.

A runner with `fuse=True` copies the q/k/v and gate/up weights of every layer into two stacked matrices and
leaves identities in their place.  The layers belong to the model, so every runner built over it reads them: a
runner with `fuse=False` calls whatever stands there when it runs.

The arithmetic is sound.  A stack computes each of its parts, the cuts are at the right widths, and a runner
whose projections compute the heads and the MLP of the loaded model computes its forward (`forward_eq`).  That
is so of an unfused runner over the loaded projections (`forward_unfused`), and of a fused one whatever the
layers hold by now, as long as the stacks have a place for every bias (`forward_fused`).
-/

import DiSpec.Engine.ModelRunner
import DiSpec.Lib.Stacked

namespace DiSpec

open Stacked

/-! ### The model -/

/-- What building or running a runner raises, the exceptions of the KV pool among it. -/
inductive RunnerExc
  | pool (e : Exc)
  | ValueError (msg : String)
  | RuntimeError
  | TypeError
  | AttributeError
  | IndexError
  | ZeroDivisionError
  deriving DecidableEq

/-- What the runner reads of `model.config`. -/
structure HFConfig where
  hiddenSize : ℕ
  intermediateSize : ℕ
  numAttentionHeads : ℕ
  numKeyValueHeads : ℕ
  headDim? : Option ℕ
  layerTypes : Option (List String)

namespace HFConfig

/-- `head_dim`, by default the hidden size over the number of heads. -/
def headDim (cfg : HFConfig) : ℕ := cfg.headDim?.getD (cfg.hiddenSize / cfg.numAttentionHeads)

/-- `_qsz`: the width of all query heads. -/
def qsz (cfg : HFConfig) : ℕ := cfg.numAttentionHeads * cfg.headDim

/-- `_kvsz`: the width of all key heads, and of all value heads. -/
def kvsz (cfg : HFConfig) : ℕ := cfg.numKeyValueHeads * cfg.headDim

/-- The hidden row of one token. -/
abbrev Row (cfg : HFConfig) (R : Type) := Fin cfg.hiddenSize → R

/-- The vector of one head. -/
abbrev Head (cfg : HFConfig) (R : Type) := Fin cfg.headDim → R

end HFConfig

/-- `nn.Linear` with `n` inputs and `m` outputs. -/
structure Linear (R : Type) (n m : ℕ) where
  weight : List (Fin n → R)
  bias : Option (List R)
  weight_length : weight.length = m
  bias_length : ∀ b ∈ bias, b.length = m

/-- A projection: a float `nn.Linear`, the `nn.Identity` that fusing leaves, or a quantized module. -/
inductive Proj (R : Type) (n m : ℕ)
  | linear (l : Linear R n m)
  | identity
  | quantized (f : (Fin n → R) → List R)

/-- The projections of one layer, which fusing replaces. -/
structure Layer (cfg : HFConfig) (R : Type) where
  qProj : Proj R cfg.hiddenSize cfg.qsz
  kProj : Proj R cfg.hiddenSize cfg.kvsz
  vProj : Proj R cfg.hiddenSize cfg.kvsz
  gateProj : Proj R cfg.hiddenSize cfg.intermediateSize
  upProj : Proj R cfg.hiddenSize cfg.intermediateSize

/-- The query, key and value heads of one row. -/
structure Heads (D : Type) where
  q : List D
  k : List D
  v : List D

/-- The rest of a model, which no runner changes: what its modules do with the row of one token.  `mlp` is the
MLP module as a function of the gate and up projections that it holds. -/
structure HFModel (cfg : HFConfig) (R : Type) where
  className : String
  vocabSize : ℕ
  qkNorm : Bool
  embed : ℕ → cfg.Row R
  inputLayernorm : ℕ → cfg.Row R → cfg.Row R
  qNorm : ℕ → cfg.Head R → cfg.Head R
  kNorm : ℕ → cfg.Head R → cfg.Head R
  rope : ℕ → cfg.Head R → cfg.Head R
  attn : cfg.Head R → List (cfg.Head R × cfg.Head R) → cfg.Head R
  oProj : ℕ → List (cfg.Head R) → cfg.Row R
  postAttentionLayernorm : ℕ → cfg.Row R → cfg.Row R
  mlp : ℕ → Proj R cfg.hiddenSize cfg.intermediateSize → Proj R cfg.hiddenSize cfg.intermediateSize →
    cfg.Row R → Except RunnerExc (cfg.Row R)
  actFn : R → R
  downProj : ℕ → List R → cfg.Row R
  norm : cfg.Row R → cfg.Row R
  lmHead : cfg.Row R → List R

section

variable {cfg : HFConfig} {R : Type}

/-- The module as an `nn.Linear`, for its `weight` and `bias`. -/
def Proj.asLinear {n m : ℕ} : Proj R n m → Except RunnerExc (Linear R n m)
  | .linear l => .ok l
  | _ => .error .AttributeError

/-! ### `_build_fused` -/

/-- The stacked weights of one layer: an entry of each of `_qkv_w`, `_qkv_b` and `_gate_up_w`. -/
structure FusedLayer (cfg : HFConfig) (R : Type) where
  qkvW : List (cfg.Row R)
  qkvB : Option (List R)
  gateUpW : List (cfg.Row R)
  gateUpW_length : gateUpW.length = cfg.intermediateSize + cfg.intermediateSize

namespace Layer

/-- `torch.cat` of the three biases, looked at only if the query projection has one. -/
def catBias : Option (List R) → Option (List R) → Option (List R) → Except RunnerExc (Option (List R))
  | none, _, _ => .ok none
  | some bq, some bk, some bv => .ok (some (bq ++ bk ++ bv))
  | some _, _, _ => .error .TypeError

/-- The body of the loop of `_build_fused`, up to the identities. -/
def stack (l : Layer cfg R) : Except RunnerExc (FusedLayer cfg R) := do
  let q ← l.qProj.asLinear
  let k ← l.kProj.asLinear
  let v ← l.vProj.asLinear
  let qkvB ← catBias q.bias k.bias v.bias
  let gate ← l.gateProj.asLinear
  let up ← l.upProj.asLinear
  return ⟨q.weight ++ k.weight ++ v.weight, qkvB, gate.weight ++ up.weight,
    by rw [List.length_append, gate.weight_length, up.weight_length]⟩

/-- The layer with its originals freed. -/
def freed (_ : Layer cfg R) : Layer cfg R := ⟨.identity, .identity, .identity, .identity, .identity⟩

end Layer

/-- The loop of `_build_fused`.  A layer that raises stops it, with the layers before it freed. -/
def stackLayers : List (Layer cfg R) → Except RunnerExc (List (FusedLayer cfg R)) × List (Layer cfg R)
  | [] => (.ok [], [])
  | l :: ls =>
    match l.stack with
    | .error e => (.error e, l :: ls)
    | .ok w =>
      match stackLayers ls with
      | (.error e, ls) => (.error e, l.freed :: ls)
      | (.ok ws, ls) => (.ok (w :: ws), l.freed :: ls)

/-- `_build_fused`: the stacked weights, or none for a quantized model. -/
def buildFused (layers : List (Layer cfg R)) :
    Except RunnerExc (Option (List (FusedLayer cfg R))) × List (Layer cfg R) :=
  match layers with
  | [] => (.error .IndexError, [])
  | l :: ls =>
    match l.qProj with
    | .identity =>
      (.error (.ValueError ("model already fused by another ModelRunner; fuse=True mutates " ++
        "the model in place — use one fused runner per model instance")), l :: ls)
    | .quantized _ => (.ok none, l :: ls)
    | .linear _ =>
      match stackLayers (l :: ls) with
      | (.error e, ls) => (.error e, ls)
      | (.ok ws, ls) => (.ok (some ws), ls)

/-- `ModelRunner`: what it has of its own, the stacked weights if it is fused. -/
structure Runner (cfg : HFConfig) (R : Type) where
  fused : Option (List (FusedLayer cfg R))

namespace HFModel

/-- `ModelRunner.__init__` over a model with these projections, and the projections it leaves. -/
def init (M : HFModel cfg R) (layers : List (Layer cfg R)) (fuse : Bool) :
    Except RunnerExc (Runner cfg R) × List (Layer cfg R) :=
  if cfg.numAttentionHeads = 0 ∨ cfg.numKeyValueHeads = 0 ∨ cfg.headDim = 0 then
    (.error .ZeroDivisionError, layers)
  else if layers.length = 0 then (.error .IndexError, layers)
  else if "sliding_attention" ∈ cfg.layerTypes.getD [] then
    (.error (.ValueError (M.className ++ " uses sliding-window attention layers, which the " ++
      "paged attention path does not implement")), layers)
  else if fuse then
    match buildFused layers with
    | (.error e, layers) => (.error e, layers)
    | (.ok fused, layers) => (.ok ⟨fused⟩, layers)
  else (.ok ⟨none⟩, layers)

end HFModel

/-! ### The loaded model -/

/-- The projections of a layer as the model is loaded. -/
structure FloatLayer (cfg : HFConfig) (R : Type) where
  q : Linear R cfg.hiddenSize cfg.qsz
  k : Linear R cfg.hiddenSize cfg.kvsz
  v : Linear R cfg.hiddenSize cfg.kvsz
  gate : Linear R cfg.hiddenSize cfg.intermediateSize
  up : Linear R cfg.hiddenSize cfg.intermediateSize

namespace FloatLayer

def toLayer (p : FloatLayer cfg R) : Layer cfg R :=
  ⟨.linear p.q, .linear p.k, .linear p.v, .linear p.gate, .linear p.up⟩

/-- Stacking raises: the query projection has a bias that another of the three lacks. -/
def Refuses (p : FloatLayer cfg R) : Prop := p.q.bias ≠ none ∧ (p.k.bias = none ∨ p.v.bias = none)

/-- Stacking leaves a bias out: one beside a query projection that has none, or one of the MLP. -/
def Drops (p : FloatLayer cfg R) : Prop :=
  p.q.bias = none ∧ (p.k.bias ≠ none ∨ p.v.bias ≠ none) ∨ p.gate.bias ≠ none ∨ p.up.bias ≠ none

end FloatLayer

section

variable {p : FloatLayer cfg R}

/-- **What stacking a layer gives.** -/
theorem stack_cases {w : FusedLayer cfg R} (hw : p.toLayer.stack = .ok w) :
    w.qkvW = p.q.weight ++ p.k.weight ++ p.v.weight ∧ w.gateUpW = p.gate.weight ++ p.up.weight ∧
      Layer.catBias p.q.bias p.k.bias p.v.bias = .ok w.qkvB := by
  unfold Layer.stack at hw
  dsimp only [FloatLayer.toLayer, Proj.asLinear, bind, Except.bind] at hw
  split at hw
  · cases hw
  · next b hb =>
    cases hw
    exact ⟨rfl, rfl, hb⟩

/-- Stacking raises on a bias that is looked for and missing, and on nothing else. -/
theorem stack_error : p.Refuses → p.toLayer.stack = .error .TypeError := by
  rintro ⟨hq, hkv⟩
  unfold Layer.stack
  dsimp only [FloatLayer.toLayer, Proj.asLinear, bind, Except.bind]
  have hcat : Layer.catBias p.q.bias p.k.bias p.v.bias = .error .TypeError := by
    rcases hbq : p.q.bias with _ | bq
    · exact absurd hbq hq
    · rcases hkv with hk | hv
      · rw [hk]
        rfl
      · rw [hv]
        cases p.k.bias <;> rfl
  rw [hcat]

theorem stack_ok (hp : ¬p.Refuses) : ∃ w, p.toLayer.stack = .ok w := by
  unfold Layer.stack
  dsimp only [FloatLayer.toLayer, Proj.asLinear, bind, Except.bind]
  rcases hbq : p.q.bias with _ | bq
  · exact ⟨_, rfl⟩
  · rcases hbk : p.k.bias with _ | bk
    · exact absurd ⟨by rw [hbq]; exact Option.some_ne_none bq, Or.inl hbk⟩ hp
    · rcases hbv : p.v.bias with _ | bv
      · exact absurd ⟨by rw [hbq]; exact Option.some_ne_none bq, Or.inr hbv⟩ hp
      · exact ⟨_, rfl⟩

end

/-- The stacks of the layers of a model. -/
def Stacks (ps : List (FloatLayer cfg R)) (ws : List (FusedLayer cfg R)) : Prop :=
  List.Forall₂ (fun p w => p.toLayer.stack = .ok w) ps ws

/-! ### The forward -/

section

variable [Semiring R]

/-- The output of an `nn.Linear`. -/
def Linear.forward {n m : ℕ} (l : Linear R n m) (x : Fin n → R) : List R := linear l.weight l.bias x

/-- The output of a projection. -/
def Proj.forward {n m : ℕ} : Proj R n m → (Fin n → R) → List R
  | .linear l, x => l.forward x
  | .identity, x => List.ofFn x
  | .quantized f, x => f x

/-- The heads of a row, one after another. -/
def headsOf (n d : ℕ) (row : List R) : List (Fin d → R) :=
  (List.range n).map fun h j => row.getD (h * d + j) 0

/-- `.view(T, n, d)` of one row. -/
def viewHeads (n d : ℕ) (row : List R) : Except RunnerExc (List (Fin d → R)) :=
  if row.length = n * d then .ok (headsOf n d row) else .error .RuntimeError

/-- `.split(sizes, dim=-1)` of one row into three. -/
def splitRow (a b c : ℕ) (row : List R) : Except RunnerExc (List R × List R × List R) :=
  match [a, b, c].splitLengths row with
  | [q, k, v] => if row.length = a + b + c then .ok (q, k, v) else .error .RuntimeError
  | _ => .error .RuntimeError

/-- `.chunk(2, dim=-1)` of one row, which gives one piece for a single entry. -/
def chunkRow (row : List R) : Except RunnerExc (List R × List R) :=
  if row.length = 1 then .error (.ValueError "not enough values to unpack (expected 2, got 1)")
  else .ok (row.splitAt ((row.length + 1) / 2))

namespace HFModel

/-- The model with these heads and this MLP. -/
def transformer (M : HFModel cfg R) (numLayers : ℕ) (heads : ℕ → cfg.Row R → Heads (cfg.Head R))
    (mlp : ℕ → cfg.Row R → cfg.Row R) : Transformer (cfg.Row R) (cfg.Head R) R where
  numLayers := numLayers
  numHeads := cfg.numAttentionHeads
  numKvHeads := cfg.numKeyValueHeads
  headDim := cfg.headDim
  vocabSize := M.vocabSize
  qkNorm := M.qkNorm
  embed := M.embed
  inputLayernorm := M.inputLayernorm
  qProj i x := (heads i x).q
  kProj i x := (heads i x).k
  vProj i x := (heads i x).v
  qNorm := M.qNorm
  kNorm := M.kNorm
  rope := M.rope
  attn := M.attn
  oProj := M.oProj
  postAttentionLayernorm := M.postAttentionLayernorm
  mlp := mlp
  norm := M.norm
  lmHead := M.lmHead

/-- The attention of the model over projected rows, which no projection has a part in. -/
def attend (M : HFModel cfg R) : PagedKVCache (cfg.Head R) → ℕ → List SeqMeta → List (List (cfg.Head R)) →
    List (KV (cfg.Head R)) → Except Exc (List (List (cfg.Head R))) :=
  (M.transformer 0 (fun _ _ => ⟨[], [], []⟩) fun _ x => x).attend

end HFModel

namespace Runner

/-- The projections of `_attention` for one row: the stacked weights of the runner, or the modules of the
layer. -/
def heads (r : Runner cfg R) (layer : Layer cfg R) (i : ℕ) (x : cfg.Row R) :
    Except RunnerExc (Heads (cfg.Head R)) := do
  match r.fused with
  | some ws =>
    match ws[i]? with
    | none => .error .IndexError
    | some w =>
      let (q, k, v) ← splitRow cfg.qsz cfg.kvsz cfg.kvsz (linear w.qkvW w.qkvB x)
      return ⟨← viewHeads cfg.numAttentionHeads cfg.headDim q,
        ← viewHeads cfg.numKeyValueHeads cfg.headDim k, ← viewHeads cfg.numKeyValueHeads cfg.headDim v⟩
  | none =>
    return ⟨← viewHeads cfg.numAttentionHeads cfg.headDim (layer.qProj.forward x),
      ← viewHeads cfg.numKeyValueHeads cfg.headDim (layer.kProj.forward x),
      ← viewHeads cfg.numKeyValueHeads cfg.headDim (layer.vProj.forward x)⟩

/-- `_mlp` for one row. -/
def mlp (r : Runner cfg R) (M : HFModel cfg R) (layer : Layer cfg R) (i : ℕ) (h : cfg.Row R) :
    Except RunnerExc (cfg.Row R) := do
  match r.fused with
  | none => M.mlp i layer.gateProj layer.upProj h
  | some ws =>
    match ws[i]? with
    | none => .error .IndexError
    | some w =>
      let (gate, up) ← chunkRow (linear w.gateUpW none h)
      return M.downProj i (List.zipWith (· * ·) (gate.map M.actFn) up)

/-- `_attention`: project, rotate, write the new rows, attend. -/
def attention (r : Runner cfg R) (M : HFModel cfg R) (layer : Layer cfg R) (i : ℕ) (x : List (cfg.Row R))
    (positions writeSlots : List ℕ) (seqMeta : List SeqMeta) (c : PagedKVCache (cfg.Head R)) :
    Except RunnerExc (List (cfg.Row R)) × PagedKVCache (cfg.Head R) :=
  match x.mapM (r.heads layer i) with
  | .error e => (.error e, c)
  | .ok hs =>
    let q := List.zipWith
      (fun pos h => (if M.qkNorm then h.q.map (M.qNorm i) else h.q).map (M.rope pos)) positions hs
    let kv := List.zipWith
      (fun pos h =>
        (⟨(if M.qkNorm then h.k.map (M.kNorm i) else h.k).map (M.rope pos), h.v⟩ : KV (cfg.Head R)))
      positions hs
    match c.write i writeSlots kv with
    | (.error e, c) => (.error (.pool e), c)
    | (.ok (), c) =>
      match M.attend c i seqMeta q kv with
      | .error e => (.error (.pool e), c)
      | .ok out => (.ok (out.map (M.oProj i)), c)

/-- The layers of `forward` from `i` on, as they stand. -/
def layersLoop (r : Runner cfg R) (M : HFModel cfg R) (positions writeSlots : List ℕ)
    (seqMeta : List SeqMeta) : List (Layer cfg R) → ℕ → List (cfg.Row R) → PagedKVCache (cfg.Head R) →
      Except RunnerExc (List (cfg.Row R)) × PagedKVCache (cfg.Head R)
  | [], _, x, c => (.ok x, c)
  | layer :: rest, i, x, c =>
    match r.attention M layer i (x.map (M.inputLayernorm i)) positions writeSlots seqMeta c with
    | (.error e, c) => (.error e, c)
    | (.ok o, c) =>
      let x := List.zipWith (· + ·) x o
      match (x.map (M.postAttentionLayernorm i)).mapM (r.mlp M layer i) with
      | .error e => (.error e, c)
      | .ok y => r.layersLoop M positions writeSlots seqMeta rest (i + 1) (List.zipWith (· + ·) x y) c

/-- `forward` of a runner over the projections that the model holds now. -/
def forward (r : Runner cfg R) (M : HFModel cfg R) (layers : List (Layer cfg R))
    (tokenIds positions writeSlots : List ℕ) (seqMeta : List SeqMeta) (c : PagedKVCache (cfg.Head R)) :
    Except RunnerExc (List (cfg.Row R)) × PagedKVCache (cfg.Head R) :=
  match r.layersLoop M positions writeSlots seqMeta layers 0 (tokenIds.map M.embed) c with
  | (.error e, c) => (.error e, c)
  | (.ok x, c) => (.ok (x.map M.norm), c)

end Runner

/-! ### A runner whose projections are those of a model -/

/-- What torch and the pool give, for the caller of a runner. -/
def raised {α : Type} (out : Except Exc α × PagedKVCache (cfg.Head R)) :
    Except RunnerExc α × PagedKVCache (cfg.Head R) := (out.1.mapError .pool, out.2)

section

variable {M : HFModel cfg R} {numLayers : ℕ} {heads : ℕ → cfg.Row R → Heads (cfg.Head R)}
  {mlp : ℕ → cfg.Row R → cfg.Row R} {r : Runner cfg R} {layer : Layer cfg R} {i : ℕ}

theorem mapM_total {α β ε : Type} {f : α → Except ε β} {g : α → β} (h : ∀ x, f x = .ok (g x)) (xs : List α) :
    xs.mapM f = .ok (xs.map g) := by
  rw [show f = fun x => pure (g x) from funext h]
  exact List.mapM_pure

theorem attend_eq (c : PagedKVCache (cfg.Head R)) (i : ℕ) (seqMeta : List SeqMeta)
    (q : List (List (cfg.Head R))) (kv : List (KV (cfg.Head R))) :
    M.attend c i seqMeta q kv = (M.transformer numLayers heads mlp).attend c i seqMeta q kv := by
  induction seqMeta generalizing q kv with
  | nil => rfl
  | cons info rest ih =>
    unfold HFModel.attend at ih ⊢
    unfold Transformer.attend
    rw [ih]
    rfl

theorem attention_eq (hheads : ∀ x, r.heads layer i x = .ok (heads i x)) (x : List (cfg.Row R))
    (positions writeSlots : List ℕ) (seqMeta : List SeqMeta) (c : PagedKVCache (cfg.Head R)) :
    r.attention M layer i x positions writeSlots seqMeta c =
      raised ((M.transformer numLayers heads mlp).attention i x positions writeSlots seqMeta c) := by
  unfold Runner.attention Transformer.attention
  set T := M.transformer numLayers heads mlp
  have hq : List.zipWith (fun pos h => (if M.qkNorm then h.q.map (M.qNorm i) else h.q).map (M.rope pos))
      positions (x.map (heads i)) = List.zipWith (T.query i) positions x := List.zipWith_map_right
  have hkv : List.zipWith (fun pos h =>
      (⟨(if M.qkNorm then h.k.map (M.kNorm i) else h.k).map (M.rope pos), h.v⟩ : KV (cfg.Head R)))
      positions (x.map (heads i)) = List.zipWith (T.keyValue i) positions x := List.zipWith_map_right
  simp only [mapM_total hheads, hq, hkv]
  rcases c.write i writeSlots (List.zipWith (T.keyValue i) positions x) with ⟨e | u, c'⟩
  · rfl
  · dsimp only
    rw [@attend_eq cfg R _ M numLayers heads mlp]
    rcases T.attend c' i seqMeta _ _ with e | out
    · rfl
    · rfl

theorem layersLoop_eq {layers : List (Layer cfg R)} (x : List (cfg.Row R)) (positions writeSlots : List ℕ)
    (seqMeta : List SeqMeta) (c : PagedKVCache (cfg.Head R))
    (hheads : ∀ j layer, layers[j]? = some layer → ∀ x, r.heads layer (i + j) x = .ok (heads (i + j) x))
    (hmlp : ∀ j layer, layers[j]? = some layer → ∀ x, r.mlp M layer (i + j) x = .ok (mlp (i + j) x)) :
    r.layersLoop M positions writeSlots seqMeta layers i x c =
      raised ((M.transformer numLayers heads mlp).layers positions writeSlots seqMeta i layers.length
        x c) := by
  induction layers generalizing i x c with
  | nil => rfl
  | cons layer rest ih =>
    rw [List.length_cons]
    unfold Runner.layersLoop Transformer.layers
    set T := M.transformer numLayers heads mlp
    have hattention : r.attention M layer i (x.map (M.inputLayernorm i)) positions writeSlots seqMeta c =
        raised (T.attention i (x.map (T.inputLayernorm i)) positions writeSlots seqMeta c) :=
      attention_eq (hheads 0 layer rfl) _ positions writeSlots seqMeta c
    rw [hattention]
    rcases T.attention i (x.map (T.inputLayernorm i)) positions writeSlots seqMeta c with ⟨e | o, c'⟩
    · rfl
    · have hrows := mapM_total (hmlp 0 layer rfl)
        ((List.zipWith (· + ·) x o).map (M.postAttentionLayernorm i))
      have hrest := @ih (i + 1) (List.zipWith (· + ·) (List.zipWith (· + ·) x o)
          (((List.zipWith (· + ·) x o).map (M.postAttentionLayernorm i)).map (mlp i))) c'
        (fun j layer hj => by
          rw [Nat.add_right_comm, Nat.add_assoc]
          exact hheads (j + 1) layer hj)
        (fun j layer hj => by
          rw [Nat.add_right_comm, Nat.add_assoc]
          exact hmlp (j + 1) layer hj)
      rw [Nat.add_zero] at hrows
      dsimp only [raised, Except.mapError]
      rw [hrows]
      exact hrest

/-- **A runner whose projections compute the heads and the MLP of a model computes its forward.** -/
theorem forward_eq {layers : List (Layer cfg R)}
    (hheads : ∀ i layer, layers[i]? = some layer → ∀ x, r.heads layer i x = .ok (heads i x))
    (hmlp : ∀ i layer, layers[i]? = some layer → ∀ x, r.mlp M layer i x = .ok (mlp i x))
    (tokenIds positions writeSlots : List ℕ) (seqMeta : List SeqMeta) (c : PagedKVCache (cfg.Head R)) :
    r.forward M layers tokenIds positions writeSlots seqMeta c =
      raised ((M.transformer layers.length heads mlp).forward tokenIds positions writeSlots seqMeta c) := by
  unfold Runner.forward Transformer.forward
  set T := M.transformer layers.length heads mlp
  have hlayers : r.layersLoop M positions writeSlots seqMeta layers 0 (tokenIds.map M.embed) c =
      raised (T.layers positions writeSlots seqMeta 0 T.numLayers (tokenIds.map T.embed) c) :=
    layersLoop_eq _ positions writeSlots seqMeta c (by simpa only [Nat.zero_add] using hheads)
      (by simpa only [Nat.zero_add] using hmlp)
  rw [hlayers]
  rcases T.layers positions writeSlots seqMeta 0 T.numLayers (tokenIds.map T.embed) c with ⟨e | x, c'⟩
  · rfl
  · rfl

end

/-! ### The forward of the loaded model -/

/-- The heads that the separate projections compute. -/
def FloatLayer.heads (p : FloatLayer cfg R) (x : cfg.Row R) : Heads (cfg.Head R) where
  q := headsOf cfg.numAttentionHeads cfg.headDim (p.q.forward x)
  k := headsOf cfg.numKeyValueHeads cfg.headDim (p.k.forward x)
  v := headsOf cfg.numKeyValueHeads cfg.headDim (p.v.forward x)

namespace HFModel

/-- The gated MLP of a layer with these projections. -/
def gated (M : HFModel cfg R) (i : ℕ) (gate up : Linear R cfg.hiddenSize cfg.intermediateSize)
    (x : cfg.Row R) : cfg.Row R :=
  M.downProj i (List.zipWith (· * ·) ((gate.forward x).map M.actFn) (up.forward x))

/-- What the runner relies on of the MLP module: with linear projections it is the gated MLP. -/
def SwiGLU (M : HFModel cfg R) : Prop :=
  ∀ i gate up x, M.mlp i (.linear gate) (.linear up) x = .ok (M.gated i gate up x)

/-- The model as it is loaded. -/
def reference (M : HFModel cfg R) (ps : List (FloatLayer cfg R)) : Transformer (cfg.Row R) (cfg.Head R) R :=
  M.transformer ps.length
    (fun i x => match ps[i]? with
      | some p => p.heads x
      | none => ⟨[], [], []⟩)
    fun i x => match ps[i]? with
      | some p => M.gated i p.gate p.up x
      | none => x

end HFModel

theorem Linear.length_forward {n m : ℕ} (l : Linear R n m) (x : Fin n → R) : (l.forward x).length = m := by
  have hbias : ∀ b ∈ l.bias, b.length = l.weight.length :=
    fun b hb => (l.bias_length b hb).trans l.weight_length.symm
  exact (length_linear x hbias).trans l.weight_length

theorem viewHeads_of_length {n d : ℕ} {row : List R} (h : row.length = n * d) :
    viewHeads n d row = .ok (headsOf n d row) := if_pos h

section

variable {M : HFModel cfg R} {r : Runner cfg R} {p : FloatLayer cfg R} {ps : List (FloatLayer cfg R)}

/-- **An unfused runner over the loaded model** computes its forward. -/
theorem forward_unfused (hmlp : M.SwiGLU) (hr : r.fused = none) (tokenIds positions writeSlots : List ℕ)
    (seqMeta : List SeqMeta) (c : PagedKVCache (cfg.Head R)) :
    r.forward M (ps.map FloatLayer.toLayer) tokenIds positions writeSlots seqMeta c =
      raised ((M.reference ps).forward tokenIds positions writeSlots seqMeta c) := by
  have hlayer : ∀ (i : ℕ) (layer : Layer cfg R), (ps.map FloatLayer.toLayer)[i]? = some layer →
      ∃ p : FloatLayer cfg R, ps[i]? = some p ∧ layer = p.toLayer := by
    intro i layer hi
    rw [List.getElem?_map, Option.map_eq_some_iff] at hi
    obtain ⟨p, hp, heq⟩ := hi
    exact ⟨p, hp, heq.symm⟩
  rw [forward_eq, List.length_map]
  · rfl
  · intro i layer hi x
    obtain ⟨p, hp, rfl⟩ := hlayer i layer hi
    unfold Runner.heads
    rw [hr, hp]
    dsimp only [FloatLayer.toLayer, Proj.forward]
    rw [viewHeads_of_length (p.q.length_forward x), viewHeads_of_length (p.k.length_forward x),
      viewHeads_of_length (p.v.length_forward x)]
    rfl
  · intro i layer hi x
    obtain ⟨p, hp, rfl⟩ := hlayer i layer hi
    unfold Runner.mlp
    rw [hr, hp]
    exact hmlp i p.gate p.up x

omit [Semiring R] in
/-- A row in three pieces is cut into them. -/
theorem splitRow_append {a b c : ℕ} {q k v : List R} (hq : q.length = a) (hk : k.length = b)
    (hv : v.length = c) : splitRow a b c (q ++ k ++ v) = .ok (q, k, v) := by
  subst hq hk hv
  have hcut := splitLengths_flatten [q, k, v]
  rw [List.flatten_cons, List.flatten_cons, List.flatten_cons, List.flatten_nil, List.append_nil,
    ← List.append_assoc] at hcut
  unfold splitRow
  rw [show [q.length, k.length, v.length] = [q, k, v].map List.length from rfl, hcut]
  exact if_pos (by rw [List.length_append, List.length_append])

omit [Semiring R] in
/-- A row in two pieces of one width is cut into them. -/
theorem chunkRow_append {q k : List R} (h : q.length = k.length) : chunkRow (q ++ k) = .ok (q, k) := by
  unfold chunkRow
  rw [List.length_append, if_neg (by omega), show (q.length + k.length + 1) / 2 = q.length by omega,
    List.splitAt_eq, List.take_left, List.drop_left]

/-- **The stacked q/k/v weights compute the separate projections**, with the biases or without. -/
theorem linear_qkv {w : FusedLayer cfg R} (hw : p.toLayer.stack = .ok w) (hp : ¬p.Drops) (x : cfg.Row R) :
    linear w.qkvW w.qkvB x = p.q.forward x ++ p.k.forward x ++ p.v.forward x := by
  obtain ⟨hqkv, -, hcat⟩ := stack_cases hw
  obtain ⟨hnone, -⟩ := not_or.1 hp
  unfold Linear.forward
  rw [hqkv]
  rcases hbq : p.q.bias with _ | bq
  · -- without a bias on the queries there is none on the keys and values
    have hbk : p.k.bias = none := by_contra fun h => hnone ⟨hbq, Or.inl h⟩
    have hbv : p.v.bias = none := by_contra fun h => hnone ⟨hbq, Or.inr h⟩
    rw [hbq] at hcat
    have hnoBias : none = w.qkvB := Except.ok.inj hcat
    rw [← hnoBias, hbk, hbv, linear_append, linear_append]
  · rcases hbk : p.k.bias with _ | bk
    · rw [hbq, hbk] at hcat
      cases hcat
    · rcases hbv : p.v.bias with _ | bv
      · rw [hbq, hbk, hbv] at hcat
        cases hcat
      · rw [hbq, hbk, hbv] at hcat
        have hq : bq.length = p.q.weight.length := (p.q.bias_length bq hbq).trans p.q.weight_length.symm
        have hk : bk.length = p.k.weight.length := (p.k.bias_length bk hbk).trans p.k.weight_length.symm
        have hqk : (bq ++ bk).length = (p.q.weight ++ p.k.weight).length := by
          rw [List.length_append, List.length_append, hq, hk]
        rw [← Except.ok.inj hcat, linear_append_bias x hqk, linear_append_bias x hq]

/-- **The stacked gate/up weights compute the separate projections**, which have no biases. -/
theorem linear_gateUp {w : FusedLayer cfg R} (hw : p.toLayer.stack = .ok w) (hp : ¬p.Drops) (x : cfg.Row R) :
    linear w.gateUpW none x = p.gate.forward x ++ p.up.forward x := by
  obtain ⟨-, hgateUp, -⟩ := stack_cases hw
  obtain ⟨-, hmlp⟩ := not_or.1 hp
  have hgate : p.gate.bias = none := by_contra fun h => hmlp (Or.inl h)
  have hup : p.up.bias = none := by_contra fun h => hmlp (Or.inr h)
  unfold Linear.forward
  rw [hgateUp, hgate, hup, linear_append]

omit [Semiring R] in
/-- What the stacks of a layer are stacked from. -/
theorem stack_of_stacks {ws : List (FusedLayer cfg R)} (hws : Stacks ps ws) {i : ℕ} (hi : i < ps.length) :
    ∃ w, ws[i]? = some w ∧ ps[i].toLayer.stack = .ok w := by
  have hlt : i < ws.length := hws.length_eq ▸ hi
  exact ⟨ws[i], List.getElem?_eq_getElem hlt, hws.get hi hlt⟩

/-- **A fused runner projects the heads of the loaded model**, whatever the layer holds by now. -/
theorem heads_fused {ws : List (FusedLayer cfg R)} (hr : r.fused = some ws) (hws : Stacks ps ws) {i : ℕ}
    (hi : ps[i]? = some p) (hp : ¬p.Drops) (layer : Layer cfg R) (x : cfg.Row R) :
    r.heads layer i x = .ok (p.heads x) := by
  obtain ⟨hlt, rfl⟩ := List.getElem?_eq_some_iff.1 hi
  obtain ⟨w, hw, hstack⟩ := stack_of_stacks hws hlt
  unfold Runner.heads
  rw [hr]
  dsimp only
  rw [hw]
  dsimp only
  rw [linear_qkv hstack hp, splitRow_append (ps[i].q.length_forward x) (ps[i].k.length_forward x)
    (ps[i].v.length_forward x)]
  dsimp only [bind, Except.bind]
  rw [viewHeads_of_length (ps[i].q.length_forward x), viewHeads_of_length (ps[i].k.length_forward x),
    viewHeads_of_length (ps[i].v.length_forward x)]
  rfl

/-- **A fused runner computes the MLP of the loaded model**, likewise. -/
theorem mlp_fused {ws : List (FusedLayer cfg R)} (hr : r.fused = some ws) (hws : Stacks ps ws) {i : ℕ}
    (hi : ps[i]? = some p) (hp : ¬p.Drops) (layer : Layer cfg R) (x : cfg.Row R) :
    r.mlp M layer i x = .ok (M.gated i p.gate p.up x) := by
  obtain ⟨hlt, rfl⟩ := List.getElem?_eq_some_iff.1 hi
  obtain ⟨w, hw, hstack⟩ := stack_of_stacks hws hlt
  unfold Runner.mlp
  rw [hr]
  dsimp only
  rw [hw]
  dsimp only
  rw [linear_gateUp hstack hp,
    chunkRow_append ((ps[i].gate.length_forward x).trans (ps[i].up.length_forward x).symm)]
  rfl

/-- **A fused runner** computes the forward of the loaded model, whatever the layers hold by now. -/
theorem forward_fused {ws : List (FusedLayer cfg R)} (hr : r.fused = some ws) (hws : Stacks ps ws)
    (hps : ∀ p ∈ ps, ¬p.Drops) {layers : List (Layer cfg R)} (hlen : layers.length = ps.length)
    (tokenIds positions writeSlots : List ℕ) (seqMeta : List SeqMeta) (c : PagedKVCache (cfg.Head R)) :
    r.forward M layers tokenIds positions writeSlots seqMeta c =
      raised ((M.reference ps).forward tokenIds positions writeSlots seqMeta c) := by
  have hlayer : ∀ (i : ℕ) (layer : Layer cfg R), layers[i]? = some layer →
      ∃ p : FloatLayer cfg R, ps[i]? = some p ∧ ¬p.Drops := by
    intro i layer hi
    have hlt : i < ps.length := hlen ▸ (List.getElem?_eq_some_iff.1 hi).1
    exact ⟨ps[i], List.getElem?_eq_getElem hlt, hps _ (List.getElem_mem hlt)⟩
  rw [forward_eq, hlen]
  · rfl
  · intro i layer hi x
    obtain ⟨p, hp, hdrops⟩ := hlayer i layer hi
    rw [heads_fused hr hws hp hdrops, hp]
  · intro i layer hi x
    obtain ⟨p, hp, hdrops⟩ := hlayer i layer hi
    rw [mlp_fused hr hws hp hdrops, hp]

end

end

end

end DiSpec
