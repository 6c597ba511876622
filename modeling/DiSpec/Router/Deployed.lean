/-
# The deployed server is the plain one

`dispec/router/app.py`: the server is built with `attn_backend="triton"` and `fuse=True`, and the results about
its answers speak of a plain engine.  In exact arithmetic the two run alike: a server over a runner that stands
for the model makes the steps of a server over the model itself (`Serving.run_standIn`).  The fused Triton
runner is one that does (`deployed_standsFor`), and the runner that is neither fused nor on Triton is the
model, whose MLP is a module of its own there (`native_unfused`).
-/

import DiSpec.Engine.Deployed
import DiSpec.Router.Service
import DiSpec.Sched.StandIn

namespace DiSpec

namespace InferenceServer

open ContinuousBatchingEngine

variable {X D R G : Type}

/-- What is put back in front of `finished` can be told from the rest. -/
theorem restoredResult_injective {α : Type} (done : List ℕ) :
    Function.Injective (restoredResult (D := D) (R := R) (G := G) (α := α) done) := by
  rintro ⟨a, e⟩ ⟨a', e'⟩ h
  obtain ⟨rfl, heq⟩ := Prod.mk.inj h
  have hfin : e.finished = e'.finished :=
    List.append_cancel_left (congrArg ContinuousBatchingEngine.finished heq)
  have hback : ∀ x : ContinuousBatchingEngine D R G,
      { x.restored done with finished := x.finished } = x := fun _ => rfl
  have hsame : ({ e.restored done with finished := e.finished } : ContinuousBatchingEngine D R G) =
      { e'.restored done with finished := e'.finished } := by
    rw [show e.restored done = e'.restored done from heq, hfin]
  rw [hback, hback] at hsame
  rw [hsame]

variable [Zero D] [Add X] [Field R] [LinearOrder R] {T : Transformer X D R} {runner : ModelRunner X D R}
  {numBlocks blockSize : ℕ} {tok : Tokenizer} {queries : List (Bool × Ask R)} {done : List ℕ}
  {subs : List (Submission D R)} {s : InferenceServer D R G}

/-- **A run of the server with a runner that stands for the native one** is the run with the native one. -/
theorem Serving.run_standIn (h : Serving tok queries done s)
    (hafter : After T numBlocks blockSize subs (s.engine.restored done))
    (hshape : s.engine.cache.numKvHeads = T.numKvHeads) (hrunner : runner.StandsFor T)
    {acts : List (Action R)} (hasks : ∀ q ∈ asks acts, tok.inputIds q.2.prompt ≠ []) (torch : Torch R) (src : Source R G) :
    InferenceServer.run torch src runner s acts = InferenceServer.run torch src T.runner s acts := by
  induction acts generalizing s queries done subs with
  | nil => rfl
  | cons a acts ih =>
    have hact : s.act torch src runner a = s.act torch src T.runner a := by
      cases a with
      | generate a => rfl
      | generateStream a => rfl
      | iterate =>
        have hstep := hafter.invOf.step_standIn hshape hrunner torch src
        rw [step_restored, step_restored] at hstep
        rw [InferenceServer.act, InferenceServer.act, InferenceServer.iterate, InferenceServer.iterate,
          restoredResult_injective done hstep]
    rw [InferenceServer.run, InferenceServer.run, hact]
    rcases heq : s.act torch src T.runner a with ⟨x | ⟨⟩, s₁⟩
    · rfl
    obtain ⟨hcalls, hsub⟩ := h.act_calls heq
    have hprompt : ∀ x ∈ submissions (s.engineCall a), x.promptIds ≠ [] := fun x hx => by
      rw [hsub] at hx
      obtain ⟨q, hq, rfl⟩ := List.mem_map.1 hx
      exact hasks q (by rw [asks_cons]; exact List.mem_append_left _ hq)
    refine ih (h.act torch src T.runner a heq).1 (hafter.run hprompt hcalls) ?_
      fun q hq => hasks q (by rw [asks_cons]; exact List.mem_append_right _ hq)
    exact (calls_numKvHeads hcalls).trans hshape

end InferenceServer

open InferenceServer ContinuousBatchingEngine

/-- **The deployed runner changes nothing.**  Load a model twice, with an MLP that is SwiGLU, biases that
stacking keeps, whole groups of query heads and the attention of exact arithmetic.  A scheduler on the fused
weights of the one and the Triton kernels goes through every run of calls with non-empty prompts as one on
the unfused modules of the other and the native attention does: the same states, pools and generators
included, and the same exceptions.  So does a server.  What either path could raise or leave undefined of its
own is never seen. -/
theorem deployed_is_plain {cfg : HFConfig} {G : Type} (M : HFModel cfg ℝ) (ps : List (FloatLayer cfg ℝ))
    (hmlp : M.SwiGLU) (hattn : M.attn = sdpa) (hgqa : cfg.numKeyValueHeads ∣ cfg.numAttentionHeads)
    (hps : ∀ p ∈ ps, ¬p.Drops) {r r' : Runner cfg ℝ} {layers layers' : List (Layer cfg ℝ)}
    (hinit : M.init (ps.map FloatLayer.toLayer) true = (.ok r, layers))
    (hinit' : M.init (ps.map FloatLayer.toLayer) false = (.ok r', layers'))
    (other other' : Except Exc (List (cfg.Row ℝ)) × PagedKVCache (cfg.Head ℝ)) (torch : Torch ℝ)
    (src : Source ℝ G) (numBlocks : ℕ) {blockSize : ℕ} (hbs : 1 ≤ blockSize) (maxBatchTokens : ℕ)
    (chunkSize : Option ℕ) (rng : G) :
    (∀ cs : List (Call (cfg.Head ℝ) ℝ), (∀ s ∈ submissions cs, s.promptIds ≠ []) →
      calls torch src (r.deployed M layers other)
          (.init (M.reference ps) numBlocks blockSize maxBatchTokens chunkSize rng) cs =
        calls torch src (r'.native M layers' other')
          (.init (M.reference ps) numBlocks blockSize maxBatchTokens chunkSize rng) cs) ∧
    ∀ (tok : Tokenizer) (acts : List (Action ℝ)), (∀ q ∈ asks acts, tok.inputIds q.2.prompt ≠ []) →
      run torch src (r.deployed M layers other)
          (init (M.reference ps) tok numBlocks blockSize maxBatchTokens chunkSize rng) acts =
        run torch src (r'.native M layers' other')
          (init (M.reference ps) tok numBlocks blockSize maxBatchTokens chunkSize rng) acts := by
  rw [native_unfused hmlp hinit' other']
  have hrunner := deployed_standsFor hattn hgqa hps hinit other
  have hafter := After.init (M.reference ps) numBlocks hbs maxBatchTokens chunkSize rng
  refine ⟨fun cs hprompt => hafter.calls_standIn rfl hrunner hprompt torch src, fun tok acts hasks => ?_⟩
  have hserving := init_serving (M.reference ps) tok numBlocks blockSize maxBatchTokens chunkSize rng
  exact hserving.run_standIn hafter rfl hrunner hasks torch src

/-- A model with one head, a gated MLP and the attention of exact arithmetic. -/
noncomputable def softmaxModel : HFModel oneHead ℝ where
  className := "Qwen2ForCausalLM"
  vocabSize := 2
  qkNorm := false
  embed t _ := t + 1
  inputLayernorm _ x := x
  qNorm _ q := q
  kNorm _ k := k
  rope p x := fun j => x j + p
  attn := sdpa
  oProj _ heads := heads.getD 0 0
  postAttentionLayernorm _ x := x
  mlp _ gate up x :=
    if (gate.forward x).length = 1 ∧ (up.forward x).length = 1 then
      .ok fun _ => (List.zipWith (· * ·) ((gate.forward x).map fun a => a * a) (up.forward x)).getD 0 0
    else .error .RuntimeError
  actFn a := a * a
  downProj _ h := fun _ => h.getD 0 0
  norm x := x
  lmHead x := List.ofFn x ++ [0]

theorem softmaxModel_swiGLU : softmaxModel.SwiGLU := by
  intro i gate up x
  have hone : (gate.forward x).length = 1 ∧ (up.forward x).length = 1 :=
    ⟨gate.length_forward x, up.length_forward x⟩
  exact if_pos hone

/-- A layer of it, with biases on the queries, keys and values. -/
noncomputable def biased : FloatLayer oneHead ℝ where
  q := ⟨[fun _ => 1], some [1], rfl, fun _ hb => Option.some.inj hb ▸ rfl⟩
  k := ⟨[fun _ => 1], some [0], rfl, fun _ hb => Option.some.inj hb ▸ rfl⟩
  v := ⟨[fun _ => 1], some [1], rfl, fun _ hb => Option.some.inj hb ▸ rfl⟩
  gate := ⟨[fun _ => 1], none, rfl, fun _ hb => absurd hb (Option.not_mem_none _)⟩
  up := ⟨[fun _ => 1], none, rfl, fun _ hb => absurd hb (Option.not_mem_none _)⟩

/-- The hypotheses are satisfiable: two requests, one of them streaming. -/
theorem deployed_is_plain_two :
    let other : Except Exc (List (oneHead.Row ℝ)) × PagedKVCache (oneHead.Head ℝ) :=
      (.error .IndexError, .init 1 1 1 1 1)
    let torch : Torch ℝ := ⟨id, fun _ => []⟩
    let src : Source ℝ Unit := ⟨fun g => (0, g), fun _ g => (0, g)⟩
    let tok : Tokenizer :=
      ⟨fun text => text.map (·.toNat % 2), none, fun ids => ids.map fun t => Char.ofNat (65 + t)⟩
    let acts : List (Action ℝ) :=
      [.generate ⟨['A', 'B'], 2, 0, 0⟩, .generateStream ⟨['B'], 1, 0, 0⟩, .iterate, .iterate]
    ∃ r layers r' layers', softmaxModel.init [biased.toLayer] true = (.ok r, layers) ∧
      softmaxModel.init [biased.toLayer] false = (.ok r', layers') ∧
      run torch src (r.deployed softmaxModel layers other)
          (init (softmaxModel.reference [biased]) tok 8 2 8 none ()) acts =
        run torch src (r'.native softmaxModel layers' other)
          (init (softmaxModel.reference [biased]) tok 8 2 8 none ()) acts := by
  intro other torch src tok acts
  refine ⟨_, _, _, _, rfl, rfl, ?_⟩
  refine (deployed_is_plain softmaxModel [biased] softmaxModel_swiGLU rfl ⟨1, rfl⟩ ?_ rfl rfl other other torch
    src 8 (by decide) 8 none ()).2 tok acts ?_
  · simp [FloatLayer.Drops, biased]
  · decide

end DiSpec
