/-
# The runner of the deployed server

`dispec/engine/model_runner.py` with `attn_backend="triton"` and `fuse=True`, as `dispec/router/app.py` builds
it, over exact real numbers: `_attention` with a `decode_batch` and `forward`.

Both optimisations at once: the projections and the MLP from stacked weights, and the attention of an
all-decode batch from the batched kernel.  Neither reads what the other replaces, so the fast path of the
fused runner is that of the loaded model (`forwardTriton_fused`), and the runner stands for the model
(`deployed_standsFor`).  The runner with neither of them, on the module of the MLP as it is, is the model
(`native_unfused`).
-/

import DiSpec.Engine.FusedRunners
import DiSpec.Engine.StandIn

namespace DiSpec

open Transformer Segment

section

variable {cfg : HFConfig}

/-- `self.scale`, which no projection has a part in. -/
noncomputable def HFModel.scale (M : HFModel cfg ℝ) : ℝ :=
  (M.transformer 0 (fun _ _ => ⟨[], [], []⟩) fun _ x => x).scale

namespace Runner

/-- `_attention` with a `decode_batch`. -/
noncomputable def attentionDecode (r : Runner cfg ℝ) (M : HFModel cfg ℝ) (layer : Layer cfg ℝ) (i : ℕ)
    (x : List (cfg.Row ℝ)) (positions writeSlots : List ℕ) (batch : DecodeBatch)
    (c : PagedKVCache (cfg.Head ℝ)) :
    Option (Except RunnerExc (List (cfg.Row ℝ)) × PagedKVCache (cfg.Head ℝ)) :=
  match x.mapM (r.heads layer i) with
  | .error e => some (.error e, c)
  | .ok hs =>
    let q := List.zipWith
      (fun pos h => (if M.qkNorm then h.q.map (M.qNorm i) else h.q).map (M.rope pos)) positions hs
    let kv := List.zipWith
      (fun pos h =>
        (⟨(if M.qkNorm then h.k.map (M.kNorm i) else h.k).map (M.rope pos), h.v⟩ : KV (cfg.Head ℝ)))
      positions hs
    match c.write i writeSlots kv with
    | (.error e, c) => some (.error (.pool e), c)
    | (.ok (), c) =>
      match batchedPagedDecodeAttention 128 cfg.numAttentionHeads q (c.memory i) batch
          (cfg.numAttentionHeads / cfg.numKeyValueHeads) (some M.scale) with
      | none => none
      | some o => some (.ok (o.map (M.oProj i)), c)

/-- The layers of `forward` from `i` on, with a `decode_batch`. -/
noncomputable def layersDecode (r : Runner cfg ℝ) (M : HFModel cfg ℝ) (positions writeSlots : List ℕ)
    (batch : DecodeBatch) : List (Layer cfg ℝ) → ℕ → List (cfg.Row ℝ) → PagedKVCache (cfg.Head ℝ) →
      Option (Except RunnerExc (List (cfg.Row ℝ)) × PagedKVCache (cfg.Head ℝ))
  | [], _, x, c => some (.ok x, c)
  | layer :: rest, i, x, c =>
    match r.attentionDecode M layer i (x.map (M.inputLayernorm i)) positions writeSlots batch c with
    | none => none
    | some (.error e, c) => some (.error e, c)
    | some (.ok o, c) =>
      let x := List.zipWith (· + ·) x o
      match (x.map (M.postAttentionLayernorm i)).mapM (r.mlp M layer i) with
      | .error e => some (.error e, c)
      | .ok y => r.layersDecode M positions writeSlots batch rest (i + 1) (List.zipWith (· + ·) x y) c

/-- `forward` with `attn_backend="triton"`. -/
noncomputable def forwardTriton (r : Runner cfg ℝ) (M : HFModel cfg ℝ) (layers : List (Layer cfg ℝ))
    (tokenIds positions writeSlots : List ℕ) (seqMeta : List SeqMeta) (c : PagedKVCache (cfg.Head ℝ)) :
    Option (Except RunnerExc (List (cfg.Row ℝ)) × PagedKVCache (cfg.Head ℝ)) :=
  if seqMeta ≠ [] ∧ ∀ info ∈ seqMeta, info.qLen = 1 then
    match decodeBatch c seqMeta with
    | .error e => some (.error (.pool e), c)
    | .ok batch =>
      match r.layersDecode M positions writeSlots batch layers 0 (tokenIds.map M.embed) c with
      | none => none
      | some (.error e, c) => some (.error e, c)
      | some (.ok x, c) => some (.ok (x.map M.norm), c)
  else some (r.forward M layers tokenIds positions writeSlots seqMeta c)

/-- The runner as the engines call it.  What an engine sees of a result that is not a number, and of an
exception that is not one of the pool, is `other`. -/
noncomputable def deployed (r : Runner cfg ℝ) (M : HFModel cfg ℝ) (layers : List (Layer cfg ℝ))
    (other : Except Exc (List (cfg.Row ℝ)) × PagedKVCache (cfg.Head ℝ)) :
    ModelRunner (cfg.Row ℝ) (cfg.Head ℝ) ℝ where
  forward tokenIds positions writeSlots seqMeta c :=
    match r.forwardTriton M layers tokenIds positions writeSlots seqMeta c with
    | some (.ok x, c) => (.ok x, c)
    | some (.error (.pool e), c) => (.error e, c)
    | _ => other
  logits hidden := hidden.map M.lmHead

/-- The runner with `attn_backend="native"`, as the engines call it. -/
def native (r : Runner cfg ℝ) (M : HFModel cfg ℝ) (layers : List (Layer cfg ℝ))
    (other : Except Exc (List (cfg.Row ℝ)) × PagedKVCache (cfg.Head ℝ)) :
    ModelRunner (cfg.Row ℝ) (cfg.Head ℝ) ℝ where
  forward tokenIds positions writeSlots seqMeta c :=
    match r.forward M layers tokenIds positions writeSlots seqMeta c with
    | (.ok x, c) => (.ok x, c)
    | (.error (.pool e), c) => (.error e, c)
    | _ => other
  logits hidden := hidden.map M.lmHead

end Runner

variable {M : HFModel cfg ℝ} {numLayers : ℕ} {heads : ℕ → cfg.Row ℝ → Heads (cfg.Head ℝ)}
  {mlp : ℕ → cfg.Row ℝ → cfg.Row ℝ} {r : Runner cfg ℝ} {layer : Layer cfg ℝ} {i : ℕ}

theorem attentionDecode_raised (hheads : ∀ x, r.heads layer i x = .ok (heads i x)) (x : List (cfg.Row ℝ))
    (positions writeSlots : List ℕ) (batch : DecodeBatch) (c : PagedKVCache (cfg.Head ℝ)) :
    r.attentionDecode M layer i x positions writeSlots batch c =
      ((M.transformer numLayers heads mlp).attentionDecode i x positions writeSlots batch c).map raised := by
  unfold Runner.attentionDecode Transformer.attentionDecode
  set T := M.transformer numLayers heads mlp
  have hq : List.zipWith (fun pos h => (if M.qkNorm then h.q.map (M.qNorm i) else h.q).map (M.rope pos))
      positions (x.map (heads i)) = List.zipWith (T.query i) positions x := List.zipWith_map_right
  have hkv : List.zipWith (fun pos h =>
      (⟨(if M.qkNorm then h.k.map (M.kNorm i) else h.k).map (M.rope pos), h.v⟩ : KV (cfg.Head ℝ)))
      positions (x.map (heads i)) = List.zipWith (T.keyValue i) positions x := List.zipWith_map_right
  simp only [mapM_total hheads, hq, hkv]
  rcases c.write i writeSlots (List.zipWith (T.keyValue i) positions x) with ⟨e | u, c'⟩
  · rfl
  · dsimp only
    rcases hout : batchedPagedDecodeAttention 128 cfg.numAttentionHeads
      (List.zipWith (T.query i) positions x) (c'.memory i) batch
      (cfg.numAttentionHeads / cfg.numKeyValueHeads) (some M.scale) with - | o
    · rw [show batchedPagedDecodeAttention 128 T.numHeads (List.zipWith (T.query i) positions x) (c'.memory i)
        batch T.kvGroups (some T.scale) = none from hout]
      rfl
    · rw [show batchedPagedDecodeAttention 128 T.numHeads (List.zipWith (T.query i) positions x) (c'.memory i)
        batch T.kvGroups (some T.scale) = some o from hout]
      rfl

theorem layersDecode_raised {layers : List (Layer cfg ℝ)} (x : List (cfg.Row ℝ))
    (positions writeSlots : List ℕ) (batch : DecodeBatch) (c : PagedKVCache (cfg.Head ℝ))
    (hheads : ∀ j layer, layers[j]? = some layer → ∀ x, r.heads layer (i + j) x = .ok (heads (i + j) x))
    (hmlp : ∀ j layer, layers[j]? = some layer → ∀ x, r.mlp M layer (i + j) x = .ok (mlp (i + j) x)) :
    r.layersDecode M positions writeSlots batch layers i x c =
      ((M.transformer numLayers heads mlp).layersDecode positions writeSlots batch i layers.length x c).map
        raised := by
  induction layers generalizing i x c with
  | nil => rfl
  | cons layer rest ih =>
    rw [List.length_cons]
    unfold Runner.layersDecode Transformer.layersDecode
    set T := M.transformer numLayers heads mlp
    have hattention : r.attentionDecode M layer i (x.map (M.inputLayernorm i)) positions writeSlots batch c =
        (T.attentionDecode i (x.map (T.inputLayernorm i)) positions writeSlots batch c).map raised :=
      attentionDecode_raised (hheads 0 layer rfl) _ positions writeSlots batch c
    rw [hattention]
    rcases T.attentionDecode i (x.map (T.inputLayernorm i)) positions writeSlots batch c with - | ⟨e | o, c'⟩
    · rfl
    · rfl
    · have hrows := mapM_total (hmlp 0 layer rfl)
        ((List.zipWith (· + ·) x o).map (M.postAttentionLayernorm i))
      have hrest := @ih (i + 1) (List.zipWith (· + ·) (List.zipWith (· + ·) x o)
          (((List.zipWith (· + ·) x o).map (M.postAttentionLayernorm i)).map (mlp i))) c'
        (fun j layer hj => by
          rw [Nat.add_right_comm, Nat.add_assoc]
          exact hheads (j + 1) layer hj)
        (fun j layer hj => by
          rw [Nat.add_right_comm, Nat.add_assoc]
          exact hmlp (j + 1) layer hj)
      rw [Nat.add_zero] at hrows
      dsimp only [Option.map, raised, Except.mapError]
      rw [hrows]
      exact hrest

/-- **A runner whose projections compute those of a model** computes its forward on the Triton backend. -/
theorem forwardTriton_raised {layers : List (Layer cfg ℝ)}
    (hheads : ∀ i layer, layers[i]? = some layer → ∀ x, r.heads layer i x = .ok (heads i x))
    (hmlp : ∀ i layer, layers[i]? = some layer → ∀ x, r.mlp M layer i x = .ok (mlp i x))
    (tokenIds positions writeSlots : List ℕ) (seqMeta : List SeqMeta) (c : PagedKVCache (cfg.Head ℝ)) :
    r.forwardTriton M layers tokenIds positions writeSlots seqMeta c =
      ((M.transformer layers.length heads mlp).forwardTriton tokenIds positions writeSlots seqMeta c).map
        raised := by
  unfold Runner.forwardTriton Transformer.forwardTriton
  set T := M.transformer layers.length heads mlp
  by_cases hall : seqMeta ≠ [] ∧ ∀ info ∈ seqMeta, info.qLen = 1
  · rw [if_pos hall, if_pos hall]
    rcases decodeBatch c seqMeta with e | batch
    · rfl
    have hlayers : r.layersDecode M positions writeSlots batch layers 0 (tokenIds.map M.embed) c =
        (T.layersDecode positions writeSlots batch 0 T.numLayers (tokenIds.map T.embed) c).map raised :=
      layersDecode_raised _ positions writeSlots batch c (by simpa only [Nat.zero_add] using hheads)
        (by simpa only [Nat.zero_add] using hmlp)
    dsimp only
    rw [hlayers]
    rcases T.layersDecode positions writeSlots batch 0 T.numLayers (tokenIds.map T.embed) c with
      - | ⟨e | x, c'⟩
    · rfl
    · rfl
    · rfl
  · rw [if_neg hall, if_neg hall, forward_eq hheads hmlp]
    rfl

end

section

variable {cfg : HFConfig} {M : HFModel cfg ℝ} {ps : List (FloatLayer cfg ℝ)}

/-- **The fast path of a fused runner** is that of the loaded model. -/
theorem forwardTriton_fused {r : Runner cfg ℝ} {ws : List (FusedLayer cfg ℝ)} (hr : r.fused = some ws)
    (hws : Stacks ps ws) (hps : ∀ p ∈ ps, ¬p.Drops) {layers : List (Layer cfg ℝ)}
    (hlen : layers.length = ps.length) (tokenIds positions writeSlots : List ℕ) (seqMeta : List SeqMeta)
    (c : PagedKVCache (cfg.Head ℝ)) :
    r.forwardTriton M layers tokenIds positions writeSlots seqMeta c =
      ((M.reference ps).forwardTriton tokenIds positions writeSlots seqMeta c).map raised := by
  have hlayer : ∀ (i : ℕ) (layer : Layer cfg ℝ), layers[i]? = some layer →
      ∃ p : FloatLayer cfg ℝ, ps[i]? = some p ∧ ¬p.Drops := by
    intro i layer hi
    have hlt : i < ps.length := hlen ▸ (List.getElem?_eq_some_iff.1 hi).1
    exact ⟨ps[i], List.getElem?_eq_getElem hlt, hps _ (List.getElem_mem hlt)⟩
  rw [forwardTriton_raised, hlen]
  · rfl
  · intro i layer hi x
    obtain ⟨p, hp, hdrops⟩ := hlayer i layer hi
    rw [heads_fused hr hws hp hdrops, hp]
  · intro i layer hi x
    obtain ⟨p, hp, hdrops⟩ := hlayer i layer hi
    rw [mlp_fused hr hws hp hdrops, hp]

/-- `ModelRunner(model, fuse=...)` that does not raise gets past the checks. -/
theorem init_ok {loaded layers : List (Layer cfg ℝ)} {fuse : Bool} {r : Runner cfg ℝ}
    (h : M.init loaded fuse = (.ok r, layers)) :
    loaded ≠ [] ∧ (if fuse then buildFused loaded else (.ok none, loaded)) = (.ok r.fused, layers) := by
  unfold HFModel.init at h
  by_cases h₁ : cfg.numAttentionHeads = 0 ∨ cfg.numKeyValueHeads = 0 ∨ cfg.headDim = 0
  · rw [if_pos h₁] at h
    cases h
  by_cases h₂ : loaded.length = 0
  · rw [if_neg h₁, if_pos h₂] at h
    cases h
  by_cases h₃ : "sliding_attention" ∈ cfg.layerTypes.getD []
  · rw [if_neg h₁, if_neg h₂, if_pos h₃] at h
    cases h
  rw [if_neg h₁, if_neg h₂, if_neg h₃] at h
  refine ⟨fun hnil => h₂ (by rw [hnil]; rfl), ?_⟩
  cases fuse with
  | true =>
    rw [if_pos rfl] at h ⊢
    rcases hbuild : buildFused loaded with ⟨e | fused, ls⟩
    · rw [hbuild] at h
      cases h
    · rw [hbuild] at h
      cases h
      rfl
  | false =>
    cases h
    rfl

/-- What `ModelRunner(model, fuse=True)` over the loaded model has built, if it did not raise. -/
theorem init_fused {r : Runner cfg ℝ} {layers : List (Layer cfg ℝ)}
    (h : M.init (ps.map FloatLayer.toLayer) true = (.ok r, layers)) :
    ∃ ws, r.fused = some ws ∧ Stacks ps ws ∧ layers.length = ps.length := by
  obtain ⟨hne, h⟩ := init_ok h
  have hps : ps ≠ [] := fun hnil => hne (by rw [hnil]; rfl)
  rw [if_pos rfl, buildFused_loaded hps] at h
  rcases stackLayers_cases ps with ⟨ws, ls, heq, hws, rfl⟩ | ⟨e, ls, heq, -⟩
  · rw [heq] at h
    obtain ⟨hr, rfl⟩ := Prod.mk.inj h
    exact ⟨ws, (Except.ok.inj hr).symm, hws, List.length_map _⟩
  · rw [heq] at h
    cases h

/-- What `ModelRunner(model, fuse=False)` over the loaded model has built, if it did not raise. -/
theorem init_unfused {r : Runner cfg ℝ} {layers : List (Layer cfg ℝ)}
    (h : M.init (ps.map FloatLayer.toLayer) false = (.ok r, layers)) :
    r.fused = none ∧ layers = ps.map FloatLayer.toLayer := by
  obtain ⟨hr, rfl⟩ := Prod.mk.inj (init_ok h).2
  exact ⟨(Except.ok.inj hr).symm, rfl⟩

/-- **The plain runner is the loaded model.** -/
theorem native_unfused (hmlp : M.SwiGLU) {r : Runner cfg ℝ} {layers : List (Layer cfg ℝ)}
    (h : M.init (ps.map FloatLayer.toLayer) false = (.ok r, layers))
    (other : Except Exc (List (cfg.Row ℝ)) × PagedKVCache (cfg.Head ℝ)) :
    r.native M layers other = (M.reference ps).runner := by
  obtain ⟨hr, rfl⟩ := init_unfused h
  have hforward : (r.native M (ps.map FloatLayer.toLayer) other).forward = (M.reference ps).runner.forward := by
    funext tokenIds positions writeSlots seqMeta c
    unfold Runner.native
    dsimp only
    rw [forward_unfused hmlp hr]
    change _ = (M.reference ps).forward tokenIds positions writeSlots seqMeta c
    rcases (M.reference ps).forward tokenIds positions writeSlots seqMeta c with ⟨e | x, c'⟩
    · rfl
    · rfl
  exact congrArg (ModelRunner.mk · fun hidden => hidden.map M.lmHead) hforward

/-- **The deployed runner stands for the loaded model.** -/
theorem deployed_standsFor (hattn : M.attn = sdpa) (hgqa : cfg.numKeyValueHeads ∣ cfg.numAttentionHeads)
    (hps : ∀ p ∈ ps, ¬p.Drops) {r : Runner cfg ℝ} {layers : List (Layer cfg ℝ)}
    (h : M.init (ps.map FloatLayer.toLayer) true = (.ok r, layers))
    (other : Except Exc (List (cfg.Row ℝ)) × PagedKVCache (cfg.Head ℝ)) :
    (r.deployed M layers other).StandsFor (M.reference ps) := by
  obtain ⟨ws, hr, hws, hlen⟩ := init_fused h
  refine ⟨fun c segs hshape hpacks => ?_, fun _ => rfl⟩
  have hrun := forwardTriton_fused (M := M) hr hws hps hlen (tokens segs) (positions segs)
    (slots c.blockSize segs) (segs.map info) c
  rw [forwardTriton_packs (M.reference ps) hattn hgqa hshape hpacks, Option.map_some] at hrun
  unfold Runner.deployed
  dsimp only
  rw [hrun]
  rcases (M.reference ps).forward (tokens segs) (positions segs) (slots c.blockSize segs) (segs.map info) c
    with ⟨e | x, c'⟩
  · rfl
  · rfl

end

end DiSpec
