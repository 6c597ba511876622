/-
# Several runners over one model instance

`dispec/engine/model_runner.py`: `ModelRunner(model, fuse=...)`, called again and again on one model.

A construction either fails or adds a runner; with `fuse=True` over the loaded projections it also frees
them.  `Built` says what a sequence of constructions has done, and one construction keeps it
(`Built.construct`): the layers are the loaded ones until the first fusing that gets past the first of them,
and freed from then on.  The guard refuses to fuse a freed model; nothing refuses to read one.

So the runners are sound as long as a model has either unfused ones or the fused one, and stacking drops no
bias (`runners_sound`).  Where the heads have another width than the hidden row, a runner that reads a freed
layer raises on every batch (`forward_freed`); where they have the same, it computes something else.
-/

import DiSpec.Engine.FusedWeights

namespace DiSpec

section

variable {cfg : HFConfig} {R : Type}

/-- A model instance in use: its projections as they stand, and the runners that were built over it without
an error. -/
structure Instance (cfg : HFConfig) (R : Type) where
  layers : List (Layer cfg R)
  runners : List (Runner cfg R)

/-- The model as it is loaded. -/
def Instance.loaded (ps : List (FloatLayer cfg R)) : Instance cfg R := ⟨ps.map FloatLayer.toLayer, []⟩

namespace HFModel

/-- `ModelRunner(model, fuse=fuse)`. -/
def construct (M : HFModel cfg R) (s : Instance cfg R) (fuse : Bool) : Instance cfg R :=
  match M.init s.layers fuse with
  | (.error _, layers) => ⟨layers, s.runners⟩
  | (.ok r, layers) => ⟨layers, s.runners ++ [r]⟩

/-- A sequence of constructions over the loaded model. -/
def constructs (M : HFModel cfg R) (ps : List (FloatLayer cfg R)) (fuses : List Bool) : Instance cfg R :=
  fuses.foldl M.construct (.loaded ps)

end HFModel

/-- A runner can be built over a model with this configuration and this number of layers. -/
def Constructible (cfg : HFConfig) (numLayers : ℕ) : Prop :=
  ¬(cfg.numAttentionHeads = 0 ∨ cfg.numKeyValueHeads = 0 ∨ cfg.headDim = 0) ∧ numLayers ≠ 0 ∧
    "sliding_attention" ∉ cfg.layerTypes.getD []

/-- Fusing stops at the first layer, before it has changed anything. -/
def RefusesFirst (ps : List (FloatLayer cfg R)) : Prop := ∃ p, ps.head? = some p ∧ p.Refuses

/-- What keeps a sequence of constructions clear of the defects: no runner can be built, or none is fused, or
fusing stops before it has changed anything, or all are to be fused and either fusing stops or it keeps every
bias. -/
def SafeToFuse (ps : List (FloatLayer cfg R)) (fuses : List Bool) : Prop :=
  ¬Constructible cfg ps.length ∨ true ∉ fuses ∨ RefusesFirst ps ∨
    false ∉ fuses ∧ ((∃ p ∈ ps, p.Refuses) ∨ ∀ p ∈ ps, ¬p.Drops)

/-- The first layer has been freed. -/
def Freed (layers : List (Layer cfg R)) : Prop := ∃ l, layers.head? = some l ∧ l = l.freed

section

variable {M : HFModel cfg R} {ps : List (FloatLayer cfg R)} {fuses done : List Bool} {s : Instance cfg R}

/-- Layers that have been stacked do not refuse. -/
theorem Stacks.not_refuses {ws : List (FusedLayer cfg R)} (h : Stacks ps ws) : ∀ p ∈ ps, ¬p.Refuses := by
  intro p hp hrefuses
  induction h with
  | nil => cases hp
  | cons hw _ ih =>
    rcases List.mem_cons.1 hp with rfl | hp
    · rw [stack_error hrefuses] at hw
      cases hw
    · exact ih hp

theorem Stacks.not_refusesFirst {ws : List (FusedLayer cfg R)} (h : Stacks ps ws) : ¬RefusesFirst ps := by
  rintro ⟨p, hp, hrefuses⟩
  exact h.not_refuses p (List.mem_of_mem_head? hp) hrefuses

/-- **The loop of `_build_fused` over the loaded layers**: it frees them all, or stops at one that refuses. -/
theorem stackLayers_cases (ps : List (FloatLayer cfg R)) :
    (∃ ws layers, stackLayers (ps.map FloatLayer.toLayer) = (.ok ws, layers) ∧ Stacks ps ws ∧
        layers = ps.map fun p => p.toLayer.freed) ∨
      ∃ e layers, stackLayers (ps.map FloatLayer.toLayer) = (.error e, layers) ∧ (∃ p ∈ ps, p.Refuses) ∧
        layers.length = ps.length ∧
        (RefusesFirst ps → layers = ps.map FloatLayer.toLayer) ∧ (¬RefusesFirst ps → Freed layers) := by
  induction ps with
  | nil => exact Or.inl ⟨[], [], rfl, List.Forall₂.nil, rfl⟩
  | cons p ps ih =>
    rw [List.map_cons]
    unfold stackLayers
    by_cases hp : p.Refuses
    · rw [stack_error hp]
      have hfirst : RefusesFirst (p :: ps) := ⟨p, rfl, hp⟩
      exact Or.inr ⟨_, _, rfl, ⟨p, List.mem_cons_self, hp⟩,
        by rw [List.length_cons, List.length_map, List.length_cons], fun _ => rfl, fun h => absurd hfirst h⟩
    · obtain ⟨w, hw⟩ := stack_ok hp
      have hnotFirst : ¬RefusesFirst (p :: ps) := by
        rintro ⟨p', hp', hrefuses⟩
        cases hp'
        exact hp hrefuses
      rw [hw]
      rcases ih with ⟨ws, layers, heq, hws, rfl⟩ | ⟨e, layers, heq, ⟨p', hp', hrefuses⟩, hlen, -⟩
      · rw [heq]
        exact Or.inl ⟨_, _, rfl, List.Forall₂.cons hw hws, rfl⟩
      · rw [heq]
        exact Or.inr ⟨_, _, rfl, ⟨p', List.mem_cons_of_mem p hp', hrefuses⟩,
          by rw [List.length_cons, hlen, List.length_cons], fun h => absurd h hnotFirst,
          fun _ => ⟨_, rfl, rfl⟩⟩

/-- Over a model that no runner can be built over nothing changes. -/
theorem construct_of_not (h : ¬Constructible cfg s.layers.length) (fuse : Bool) : M.construct s fuse = s := by
  unfold HFModel.construct HFModel.init
  split_ifs with h₁ h₂ h₃
  · rfl
  · rfl
  · rfl
  · exact absurd ⟨h₁, h₂, h₃⟩ h
  · exact absurd ⟨h₁, h₂, h₃⟩ h

theorem constructs_of_not (h : ¬Constructible cfg ps.length) (fuses : List Bool) :
    M.constructs ps fuses = .loaded ps := by
  unfold HFModel.constructs
  induction fuses with
  | nil => rfl
  | cons fuse fuses ih =>
    have hlen : ¬Constructible cfg (Instance.loaded ps).layers.length := by
      rwa [Instance.loaded, List.length_map]
    rw [List.foldl_cons, construct_of_not hlen, ih]

/-- **`fuse=False`** leaves the model alone. -/
theorem construct_false (h : Constructible cfg s.layers.length) :
    M.construct s false = ⟨s.layers, s.runners ++ [⟨none⟩]⟩ := by
  unfold HFModel.construct HFModel.init
  rw [if_neg h.1, if_neg h.2.1, if_neg h.2.2]
  rfl

theorem construct_true (h : Constructible cfg s.layers.length) : M.construct s true =
    match buildFused s.layers with
    | (.error _, layers) => ⟨layers, s.runners⟩
    | (.ok fused, layers) => ⟨layers, s.runners ++ [⟨fused⟩]⟩ := by
  unfold HFModel.construct HFModel.init
  rw [if_neg h.1, if_neg h.2.1, if_neg h.2.2, if_pos rfl]
  rcases buildFused s.layers with ⟨e | fused, layers⟩
  · rfl
  · rfl

/-- **`fuse=True` over a fused model** raises and leaves it alone. -/
theorem construct_freed (h : Constructible cfg s.layers.length) (hfreed : Freed s.layers) :
    M.construct s true = s := by
  rw [construct_true h]
  obtain ⟨layers, runners⟩ := s
  obtain ⟨l, hl, heq⟩ := hfreed
  obtain ⟨rest, rfl⟩ := List.head?_eq_some_iff.1 hl
  unfold buildFused
  dsimp only
  rw [heq]
  rfl

/-- Over the loaded layers `_build_fused` stacks all of them. -/
theorem buildFused_loaded (hps : ps ≠ []) : buildFused (ps.map FloatLayer.toLayer) =
    match stackLayers (ps.map FloatLayer.toLayer) with
    | (.error e, ls) => (.error e, ls)
    | (.ok ws, ls) => (.ok (some ws), ls) := by
  cases ps with
  | nil => exact absurd rfl hps
  | cons p ps => rfl

/-- **`fuse=True` over the loaded model**: a fused runner over freed layers, or an error, which leaves the
model alone if it came from the first layer. -/
theorem construct_loaded (h : Constructible cfg ps.length) (hs : s.layers = ps.map FloatLayer.toLayer) :
    (∃ ws layers, M.construct s true = ⟨layers, s.runners ++ [⟨some ws⟩]⟩ ∧ Stacks ps ws ∧ Freed layers ∧
        layers.length = ps.length) ∨
      ∃ layers, M.construct s true = ⟨layers, s.runners⟩ ∧ (∃ p ∈ ps, p.Refuses) ∧ layers.length = ps.length ∧
        (RefusesFirst ps → layers = ps.map FloatLayer.toLayer) ∧ (¬RefusesFirst ps → Freed layers) := by
  have hlen : Constructible cfg s.layers.length := by rwa [hs, List.length_map]
  rw [construct_true hlen, hs]
  obtain ⟨p, rest, rfl⟩ := List.exists_cons_of_length_pos (Nat.pos_of_ne_zero h.2.1)
  rw [buildFused_loaded (List.cons_ne_nil p rest)]
  rcases stackLayers_cases (p :: rest) with ⟨ws, layers, heq, hws, rfl⟩ | ⟨e, layers, heq, hrefuses, hcut⟩
  · rw [heq]
    exact Or.inl ⟨ws, _, rfl, hws, ⟨_, rfl, rfl⟩, List.length_map _⟩
  · rw [heq]
    exact Or.inr ⟨layers, rfl, hrefuses, hcut⟩

/-- **What a sequence of constructions has done**: to the layers, which are the loaded ones until the first
fusing that gets past the first of them, and which runners it has built. -/
structure Built (ps : List (FloatLayer cfg R)) (done : List Bool) (s : Instance cfg R) : Prop where
  length : s.layers.length = ps.length
  layers : s.layers = ps.map FloatLayer.toLayer ∧ (true ∈ done → RefusesFirst ps) ∨
    Freed s.layers ∧ true ∈ done ∧ ¬RefusesFirst ps
  unfused : (∃ r ∈ s.runners, r.fused = none) ↔ false ∈ done
  fused : ∀ r ∈ s.runners, ∀ ws, r.fused = some ws → true ∈ done ∧ Stacks ps ws
  made : true ∈ done → (∀ p ∈ ps, ¬p.Refuses) → ∃ r ∈ s.runners, r.fused ≠ none

theorem built_loaded (ps : List (FloatLayer cfg R)) : Built ps [] (.loaded ps) where
  length := List.length_map _
  layers := Or.inl ⟨rfl, fun h => absurd h List.not_mem_nil⟩
  unfused := ⟨fun ⟨_, hr, _⟩ => absurd hr List.not_mem_nil, fun h => absurd h List.not_mem_nil⟩
  fused _ hr := absurd hr List.not_mem_nil
  made h := absurd h List.not_mem_nil

/-- One construction more. -/
theorem Built.construct (hc : Constructible cfg ps.length) (h : Built ps done s) (fuse : Bool) :
    Built ps (done ++ [fuse]) (M.construct s fuse) := by
  have hcs : Constructible cfg s.layers.length := by rwa [h.length]
  cases fuse with
  | false =>
    rw [construct_false hcs]
    refine ⟨h.length, ?_, ?_, ?_, ?_⟩
    · simpa using h.layers
    · simp
    · intro r hr ws hws
      rcases List.mem_append.1 hr with hr | hr
      · simpa using h.fused r hr ws hws
      · obtain rfl := List.mem_singleton.1 hr
        cases hws
    · intro htrue hps
      obtain ⟨r, hr, hfused⟩ := h.made (by simpa using htrue) hps
      exact ⟨r, List.mem_append_left _ hr, hfused⟩
  | true =>
    rcases h.layers with ⟨hlayers, hfirst⟩ | ⟨hfreed, hdone, hfirst⟩
    · rcases construct_loaded hc hlayers with
        ⟨ws, layers, heq, hws, hfreed, hlen⟩ | ⟨layers, heq, hrefuses, hlen, hcut⟩
      · rw [heq]
        refine ⟨hlen, Or.inr ⟨hfreed, by simp, hws.not_refusesFirst⟩, ?_, ?_, ?_⟩
        · simp only [List.mem_append, List.mem_singleton, or_and_right, exists_or, exists_eq_left, h.unfused,
            reduceCtorEq, or_false]
        · intro r hr ws' hws'
          rcases List.mem_append.1 hr with hr | hr
          · exact ⟨by simp, (h.fused r hr ws' hws').2⟩
          · obtain rfl := List.mem_singleton.1 hr
            cases hws'
            exact ⟨by simp, hws⟩
        · intro _ _
          exact ⟨_, List.mem_append_right _ List.mem_cons_self, Option.some_ne_none ws⟩
      · rw [heq]
        refine ⟨hlen, ?_, ?_, ?_, ?_⟩
        · by_cases hr : RefusesFirst ps
          · exact Or.inl ⟨hcut.1 hr, fun _ => hr⟩
          · exact Or.inr ⟨hcut.2 hr, by simp, hr⟩
        · simpa using h.unfused
        · intro r hr ws hws
          exact ⟨by simp, (h.fused r hr ws hws).2⟩
        · intro _ hps
          obtain ⟨p, hp, hpr⟩ := hrefuses
          exact absurd hpr (hps p hp)
    · rw [construct_freed hcs hfreed]
      refine ⟨h.length, Or.inr ⟨hfreed, by simp, hfirst⟩, ?_, ?_, ?_⟩
      · simpa using h.unfused
      · intro r hr ws hws
        exact ⟨by simp, (h.fused r hr ws hws).2⟩
      · intro _ hps
        exact h.made hdone hps

/-- **A sequence of constructions.** -/
theorem constructs_built (M : HFModel cfg R) (hc : Constructible cfg ps.length) (done : List Bool) :
    Built ps done (M.constructs ps done) := by
  induction done using List.reverseRecOn with
  | nil => exact built_loaded ps
  | append_singleton done fuse ih =>
    unfold HFModel.constructs
    rw [List.foldl_append]
    exact ih.construct hc fuse

/-- A runner is in the way of a defect: an unfused one reads freed layers, or a fused one has lost a bias. -/
def Harmed (ps : List (FloatLayer cfg R)) (s : Instance cfg R) : Prop :=
  ∃ r ∈ s.runners, r.fused = none ∧ Freed s.layers ∨ r.fused ≠ none ∧ ∃ p ∈ ps, p.Drops

/-- **Any other sequence** ends so. -/
theorem Built.harmed (h : Built ps done s) (htrue : true ∈ done) (hfirst : ¬RefusesFirst ps)
    (hmixed : false ∉ done → (∀ p ∈ ps, ¬p.Refuses) ∧ ∃ p ∈ ps, p.Drops) :
    Harmed ps s := by
  by_cases hfalse : false ∈ done
  · obtain ⟨r, hr, hfused⟩ := h.unfused.2 hfalse
    rcases h.layers with ⟨-, hrefuses⟩ | ⟨hfreed, -⟩
    · exact absurd (hrefuses htrue) hfirst
    · exact ⟨r, hr, Or.inl ⟨hfused, hfreed⟩⟩
  · obtain ⟨hrefuses, hdrops⟩ := hmixed hfalse
    obtain ⟨r, hr, hfused⟩ := h.made htrue hrefuses
    exact ⟨r, hr, Or.inr ⟨hfused, hdrops⟩⟩

end

end

/-! ### Which runners are sound -/

section

variable {cfg : HFConfig} {R : Type} [Semiring R]

/-- Every runner built without an error computes the forward of the loaded model. -/
def HFModel.Sound (M : HFModel cfg R) (ps : List (FloatLayer cfg R)) (s : Instance cfg R) : Prop :=
  ∀ r ∈ s.runners, ∀ tokenIds positions writeSlots seqMeta c,
    r.forward M s.layers tokenIds positions writeSlots seqMeta c =
      raised ((M.reference ps).forward tokenIds positions writeSlots seqMeta c)

variable {M : HFModel cfg R} {ps : List (FloatLayer cfg R)} {done fuses : List Bool} {s : Instance cfg R}

theorem Built.sound (hmlp : M.SwiGLU) (h : Built ps done s) (hdone : done ⊆ fuses)
    (hsafe : true ∉ fuses ∨ RefusesFirst ps ∨
      false ∉ fuses ∧ ((∃ p ∈ ps, p.Refuses) ∨ ∀ p ∈ ps, ¬p.Drops)) : M.Sound ps s := by
  intro r hr tokenIds positions writeSlots seqMeta c
  cases hfused : r.fused with
  | none =>
    -- an unfused runner: nothing has been freed
    have hlayers : s.layers = ps.map FloatLayer.toLayer := by
      rcases h.layers with ⟨hlayers, -⟩ | ⟨-, htrue, hfirst⟩
      · exact hlayers
      · rcases hsafe with hno | hrefuses | ⟨hno, -⟩
        · exact absurd (hdone htrue) hno
        · exact absurd hrefuses hfirst
        · exact absurd (hdone (h.unfused.1 ⟨r, hr, hfused⟩)) hno
    rw [hlayers]
    exact forward_unfused hmlp hfused tokenIds positions writeSlots seqMeta c
  | some ws =>
    -- a fused runner: its stacks have every bias
    obtain ⟨htrue, hws⟩ := h.fused r hr ws hfused
    have hdrops : ∀ p ∈ ps, ¬p.Drops := by
      rcases hsafe with hno | hrefuses | ⟨-, ⟨p, hp, hrefuses⟩ | hdrops⟩
      · exact absurd (hdone htrue) hno
      · exact absurd hrefuses hws.not_refusesFirst
      · exact absurd hrefuses (hws.not_refuses p hp)
      · exact hdrops
    exact forward_fused hfused hws hdrops h.length tokenIds positions writeSlots seqMeta c

/-- **A freed layer that does not fit**: where the heads are not as wide as the hidden row, an unfused runner
raises on every batch. -/
theorem forward_freed {r : Runner cfg R} (hr : r.fused = none) {layers : List (Layer cfg R)}
    (hfreed : Freed layers) (hwidth : cfg.hiddenSize ≠ cfg.qsz ∨ cfg.hiddenSize ≠ cfg.kvsz) (t : ℕ)
    (tokenIds positions writeSlots : List ℕ) (seqMeta : List SeqMeta) (c : PagedKVCache (cfg.Head R)) :
    r.forward M layers (t :: tokenIds) positions writeSlots seqMeta c = (.error .RuntimeError, c) := by
  obtain ⟨l, hl, heq⟩ := hfreed
  obtain ⟨rest, rfl⟩ := List.head?_eq_some_iff.1 hl
  have hheads : ∀ x, r.heads l 0 x = .error .RuntimeError := by
    intro x
    unfold Runner.heads
    rw [hr, heq]
    dsimp only [Layer.freed, Proj.forward]
    unfold viewHeads
    rw [List.length_ofFn]
    by_cases hq : cfg.hiddenSize = cfg.numAttentionHeads * cfg.headDim
    · have hk : cfg.hiddenSize ≠ cfg.numKeyValueHeads * cfg.headDim := hwidth.resolve_left (not_not.2 hq)
      rw [if_pos hq, if_neg hk]
      rfl
    · rw [if_neg hq]
      rfl
  unfold Runner.forward Runner.layersLoop Runner.attention
  rw [List.map_cons, List.map_cons, List.mapM_cons, hheads]
  rfl

omit [Semiring R] in
/-- What the pool raises is not what a shape raises. -/
theorem raised_ne {α : Type} (out : Except Exc α × PagedKVCache (cfg.Head R))
    (c : PagedKVCache (cfg.Head R)) : raised out ≠ (.error .RuntimeError, c) := by
  intro h
  rcases out with ⟨e | x, c'⟩
  · cases h
  · cases h

/-- A runner that reads freed layers that do not fit is not sound. -/
theorem not_sound_of_freed {r : Runner cfg R} (hr : r ∈ s.runners) (hfused : r.fused = none)
    (hfreed : Freed s.layers) (hwidth : cfg.hiddenSize ≠ cfg.qsz ∨ cfg.hiddenSize ≠ cfg.kvsz) :
    ¬M.Sound ps s := by
  intro hsound
  have hforward := hsound r hr [0] [] [] [] (.init 0 0 0 0 0)
  rw [forward_freed hfused hfreed hwidth] at hforward
  exact raised_ne _ _ hforward.symm

/-- **Fusing in a safe sequence keeps every runner sound**: after each construction all runners built so far
compute the forward of the loaded model.  Any other sequence ends with a runner that reads freed projections
or has lost a bias; if stacking drops none, and the heads are not all as wide as the hidden row, that runner
is not sound. -/
theorem runners_sound (M : HFModel cfg R) (hmlp : M.SwiGLU) (ps : List (FloatLayer cfg R))
    (fuses : List Bool) :
    (SafeToFuse ps fuses → ∀ done, done <+: fuses → M.Sound ps (M.constructs ps done)) ∧
      (¬SafeToFuse ps fuses → Harmed ps (M.constructs ps fuses) ∧
        ((∀ p ∈ ps, ¬p.Drops) → cfg.hiddenSize ≠ cfg.qsz ∨ cfg.hiddenSize ≠ cfg.kvsz →
          ¬M.Sound ps (M.constructs ps fuses))) := by
  constructor
  · intro hsafe done hdone
    by_cases hc : Constructible cfg ps.length
    · exact (constructs_built M hc done).sound hmlp hdone.subset (hsafe.resolve_left (not_not.2 hc))
    · -- nothing is ever built
      rw [constructs_of_not hc]
      exact fun r hr => absurd hr List.not_mem_nil
  · intro hnot
    unfold SafeToFuse at hnot
    push Not at hnot
    obtain ⟨hc, htrue, hfirst, hmixed⟩ := hnot
    have hharmed := (constructs_built M hc fuses).harmed htrue hfirst hmixed
    refine ⟨hharmed, fun hdrops hwidth => ?_⟩
    obtain ⟨r, hr, ⟨hfused, hfreed⟩ | ⟨-, p, hp, hdrop⟩⟩ := hharmed
    · exact not_sound_of_freed hr hfused hfreed hwidth
    · exact absurd hdrop (hdrops p hp)

end

/-! ### A model with one head -/

/-- One layer with one head, everything one wide. -/
def oneHead : HFConfig := ⟨1, 1, 1, 1, some 1, none⟩

/-- The row or head with this entry. -/
def single (a : ℤ) : Fin 1 → ℤ := fun _ => a

/-- A model whose attention gives back the query. -/
def queryModel : HFModel oneHead ℤ where
  className := "Qwen2ForCausalLM"
  vocabSize := 2
  qkNorm := false
  embed t := single (t + 1)
  inputLayernorm _ x := x
  qNorm _ q := q
  kNorm _ k := k
  rope _ x := x
  attn q _ := q
  oProj _ heads := heads.getD 0 0
  postAttentionLayernorm _ x := x
  mlp _ gate up x :=
    if (gate.forward x).length = 1 ∧ (up.forward x).length = 1 then
      .ok (single ((List.zipWith (· * ·) (gate.forward x) (up.forward x)).getD 0 0))
    else .error .RuntimeError
  actFn a := a
  downProj _ h := single (h.getD 0 0)
  norm x := x
  lmHead x := List.ofFn x ++ [0]

/-- The projection with this weight. -/
def scaled (a : ℤ) : Linear ℤ 1 1 := ⟨[single a], none, rfl, by simp⟩

/-- A layer that doubles the row for its query. -/
def doubling : FloatLayer oneHead ℤ := ⟨scaled 2, scaled 1, scaled 1, scaled 1, scaled 1⟩

theorem queryModel_swiGLU : queryModel.SwiGLU := by
  intro i gate up x
  have hone : (gate.forward x).length = 1 ∧ (up.forward x).length = 1 :=
    ⟨gate.length_forward x, up.length_forward x⟩
  refine (if_pos hone).trans ?_
  change _ = Except.ok
    (single ((List.zipWith (· * ·) ((gate.forward x).map fun a => a) (up.forward x)).getD 0 0))
  rw [List.map_id']
  rfl

/-- Two fused runners: the second is refused, and the first keeps working. -/
theorem runners_sound_fused : queryModel.Sound [doubling] (queryModel.constructs [doubling] [true, true]) :=
  (runners_sound queryModel queryModel_swiGLU [doubling] [true, true]).1
    (Or.inr (Or.inr (Or.inr ⟨by decide, Or.inr (by simp [FloatLayer.Drops, doubling, scaled])⟩)))
    [true, true] List.prefix_rfl

/-- The entries of the rows of a forward. -/
def rowEntries (out : Except RunnerExc (List (Fin 1 → ℤ))) : Option (List ℤ) :=
  out.toOption.map fun rows => rows.map fun x => x (Fin.last 0)

/-- A fused runner built after an unfused one: the unfused one goes on with identities, and computes something
else without an error. -/
theorem not_sound_mixed : (∀ p ∈ [doubling], p.q.bias = none ∧ p.k.bias = none ∧ p.v.bias = none ∧
      p.gate.bias = none ∧ p.up.bias = none) ∧
    ¬queryModel.Sound [doubling] (queryModel.constructs [doubling] [false, true]) := by
  refine ⟨by simp [doubling, scaled], fun h => ?_⟩
  have hlive : (⟨none⟩ : Runner oneHead ℤ) ∈ (queryModel.constructs [doubling] [false, true]).runners :=
    List.mem_cons_self
  have hforward := congrArg (fun out => rowEntries out.1)
    (h ⟨none⟩ hlive [0] [0] [0] [⟨[0], 1, 1⟩] (.init 1 1 1 1 1))
  revert hforward
  decide +kernel

example : rowEntries (Runner.forward ⟨none⟩ queryModel (queryModel.constructs [doubling] [false, true]).layers
      [0] [0] [0] [⟨[0], 1, 1⟩] (.init 1 1 1 1 1)).1 = some [6] := by decide +kernel

example : rowEntries (raised ((queryModel.reference [doubling]).forward [0] [0] [0] [⟨[0], 1, 1⟩]
      (.init 1 1 1 1 1))).1 = some [12] := by decide +kernel

end DiSpec
