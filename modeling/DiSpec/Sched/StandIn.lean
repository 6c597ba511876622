/-
# A runner that stands for the native one serves as well

The batches of a step pack, so a runner that stands for the model (`StandsFor`) does with them what the native
one does.  It writes the same pool and gives the same logits, and the step goes on as it would have
(`Inv.step_standIn`).  This needs the shape of the pool, which no call changes (`step_numKvHeads`), and the
invariant, which the steps of the native runner keep.  So whole runs agree, also in what they raise
(`calls_standIn`).
-/

import DiSpec.Engine.StandIn
import DiSpec.Sched.Chunks
import DiSpec.Sched.Run

namespace DiSpec
namespace ContinuousBatchingEngine

variable {X D R G : Type}

/-! ### The shape of the pool -/

section

variable (e : ContinuousBatchingEngine D R G) (b : Batch) (r : ℕ)

theorem decodeLoop_numKvHeads (rs : List ℕ) :
    (e.decodeLoop b rs).2.1.cache.numKvHeads = e.cache.numKvHeads := by
  induction rs generalizing e b with
  | nil => rfl
  | cons r rs ih =>
    rw [decodeLoop]
    split
    · rfl
    rcases e.cache.manager.blockTable r with x | table
    · rfl
    dsimp only
    rcases e.cache.manager.appendToken r with ⟨x | ⟨blk, off⟩, m⟩
    · rfl
    dsimp only
    rcases (e.req r).outputIds.getLast? with - | token
    · rfl
    rcases m.blockTable r with x | table
    · rfl
    exact ih { e.setManager m with numDecodeTokens := e.numDecodeTokens + 1 } _

theorem importPrefix_numKvHeads (table : BlockTable) :
    (e.importPrefix b r table).2.1.cache.numKvHeads = e.cache.numKvHeads := by
  have himport : ∀ k v, (e.cache.importContiguous table.blockIds k v).2.numKvHeads = e.cache.numKvHeads :=
    fun k v => congrArg (·.2.1) (e.cache.importContiguous_dims table.blockIds k v)
  unfold importPrefix
  rcases (e.req r).prefixKv with - | ⟨k, v⟩
  · rfl
  have himport := himport k v
  dsimp only
  rcases heq : e.cache.importContiguous table.blockIds k v with ⟨x | ⟨⟩, c⟩
  · rw [heq] at himport
    exact himport
  · rw [heq] at himport
    exact himport

theorem admitRequest_numKvHeads : (e.admitRequest b r).2.1.cache.numKvHeads = e.cache.numKvHeads := by
  unfold admitRequest
  split
  · rfl
  rcases e.cache.manager.allocate r (e.req r).promptIds.length [] with ⟨x | table, m⟩
  · dsimp only
    split <;> rfl
  have himport := importPrefix_numKvHeads (e.setManager (m.setTable r { table with numTokens := 0 })) b r
    { table with numTokens := 0 }
  dsimp only
  rcases heq : (e.setManager (m.setTable r { table with numTokens := 0 })).importPrefix b r
    { table with numTokens := 0 } with ⟨x | ⟨⟩, e₁, b₁⟩
  · rw [heq] at himport
    exact himport
  · rw [heq] at himport
    dsimp only
    rcases remove (e₁.setReq r { e₁.req r with state := .PREFILLING }).waiting r with x | waiting
    · exact himport
    · exact himport

theorem prefillChunk_numKvHeads : (e.prefillChunk b r).2.1.cache.numKvHeads = e.cache.numKvHeads := by
  unfold prefillChunk
  rcases e.cache.manager.blockTable r with x | table
  · rfl
  dsimp only
  rcases e.cache.slotsForList table.blockIds _ with x | slots
  · rfl
  dsimp only
  split
  · split <;> rfl
  · rfl

theorem schedule_numKvHeads : e.schedule.2.1.cache.numKvHeads = e.cache.numKvHeads := by
  have hdecode := decodeLoop_numKvHeads e e.emptyBatch e.running
  unfold schedule
  rcases heq : e.decodeLoop e.emptyBatch e.running with ⟨x | ⟨⟩, e₁, b₁⟩
  · rw [heq] at hdecode
    exact hdecode
  · rw [heq] at hdecode
    exact prefillLoop_keeps (P := fun e' _ => e'.cache.numKvHeads = e.cache.numKvHeads)
      (fun e' b' r h => (admitRequest_numKvHeads e' b' r).trans h)
      (fun e' b' r h => (prefillChunk_numKvHeads e' b' r).trans h) _ hdecode

theorem appendOutputs_cache (l : List (ℕ × ℕ)) : (e.appendOutputs l).2.cache = e.cache := by
  induction l generalizing e with
  | nil => rfl
  | cons x rest ih =>
    obtain ⟨r, tid⟩ := x
    rw [appendOutputs]
    rcases e.cache.manager.blockTable r with x | table
    · rfl
    dsimp only
    split
    · have hrest := ih (e.setReq r { e.req r with
        outputIds := (e.req r).outputIds ++ [tid], curLen := table.numTokens, state := .FINISHED })
      rcases heq : (e.setReq r { e.req r with
        outputIds := (e.req r).outputIds ++ [tid],
        curLen := table.numTokens,
        state := .FINISHED }).appendOutputs rest with ⟨x | fin, e₁⟩
      · rw [heq] at hrest
        exact hrest
      · rw [heq] at hrest
        exact hrest
    · exact ih (e.setReq r _)

theorem retire_numKvHeads (rs : List ℕ) : (e.retire rs).2.cache.numKvHeads = e.cache.numKvHeads := by
  induction rs generalizing e with
  | nil => rfl
  | cons r rs ih =>
    rw [retire]
    rcases remove e.running r with x | running
    · rfl
    dsimp only
    rcases e.cache.manager.free r with ⟨x | ⟨⟩, m⟩
    · rfl
    · exact ih (setManager { e with running, finished := e.finished ++ [r] } m)

end

variable [Zero D] [Add X] [Field R] [LinearOrder R]

/-- **A step keeps the shape of the pool.** -/
theorem step_numKvHeads (torch : Torch R) (src : Source R G) (T : Transformer X D R)
    (e : ContinuousBatchingEngine D R G) :
    (e.step torch src T.runner).2.cache.numKvHeads = e.cache.numKvHeads := by
  have hsched := schedule_numKvHeads e
  rw [step]
  rcases heq : e.schedule with ⟨x | ⟨⟩, e₁, b⟩
  · rw [heq] at hsched
    exact hsched
  rw [heq] at hsched
  dsimp only at hsched ⊢
  rw [← hsched]
  split
  · rfl
  have hfwd : (T.forward b.tokenIds b.positions b.writeSlots b.seqMeta e₁.cache).2.numKvHeads =
      e₁.cache.numKvHeads :=
    congrArg (·.numKvHeads) (T.forward_frame b.tokenIds b.positions b.writeSlots b.seqMeta e₁.cache).1
  unfold execute
  rw [show T.runner.forward = T.forward from rfl]
  rcases hrun : T.forward b.tokenIds b.positions b.writeSlots b.seqMeta e₁.cache with ⟨x | hidden, cache⟩
  · rw [hrun] at hfwd
    exact hfwd
  rw [hrun] at hfwd
  dsimp only
  split
  · exact hfwd
  rcases indexRows hidden b.lastIdx with x | rows
  · exact hfwd
  rcases sampleBatch b with - | ⟨first, rest⟩
  · exact hfwd
  dsimp only
  generalize (sample torch (e₁.req first).params (T.runner.logits rows)).run src e₁.rng = drawn
  have happend := appendOutputs_cache { e₁ with cache, numSteps := e₁.numSteps + 1, rng := drawn.2 }
    ((first :: rest).zip drawn.1)
  rcases hout : ContinuousBatchingEngine.appendOutputs
    { e₁ with cache, numSteps := e₁.numSteps + 1, rng := drawn.2 } ((first :: rest).zip drawn.1) with
    ⟨x | fin, e₂⟩
  · rw [hout] at happend
    exact (congrArg (·.numKvHeads) happend).trans hfwd
  · rw [hout] at happend
    exact (retire_numKvHeads e₂ fin).trans ((congrArg (·.numKvHeads) happend).trans hfwd)

/-! ### One step -/

variable {T : Transformer X D R} {base : ℕ → BaseKV D} {e : ContinuousBatchingEngine D R G}
  {runner : ModelRunner X D R}

/-- **A step with a runner that stands for the native one** is the step with the native one. -/
theorem Inv.step_standIn (h : Inv T base e [] []) (hshape : e.cache.numKvHeads = T.numKvHeads)
    (hrunner : runner.StandsFor T) (torch : Torch R) (src : Source R G) :
    e.step torch src runner = e.step torch src T.runner := by
  have hsched := schedule_numKvHeads e
  rw [step, step]
  rcases schedule_spec h with ⟨-, msg, e₁, b, heq⟩ | ⟨-, e₁, b, sl, heq, hinv, hd, -⟩
  · rw [heq]
  rw [heq] at hsched ⊢
  dsimp only at hsched ⊢
  have hfwd : runner.forward b.tokenIds b.positions b.writeSlots b.seqMeta e₁.cache =
      T.runner.forward b.tokenIds b.positions b.writeSlots b.seqMeta e₁.cache := by
    rw [hd.tokenIds, hd.positions, hd.writeSlots, hd.seqMeta]
    exact hrunner.forward e₁.cache _ (hsched.trans hshape) (hinv.fits e₁.tokensOf).packs
  have hlogits : runner.logits = T.runner.logits := funext hrunner.logits
  unfold execute
  rw [hfwd, hlogits]

/-! ### Runs -/

variable {numBlocks blockSize : ℕ} {subs : List (Submission D R)}

omit [Zero D] [Add X] [Field R] [LinearOrder R] in
theorem addRequest_cache (e : ContinuousBatchingEngine D R G) (s : Submission D R) :
    (e.addRequest s).2.cache = e.cache := by
  rcases addRequest_spec e s with ⟨msg, heq⟩ | ⟨heq, -⟩
  · rw [heq]
  · rw [heq]
    rfl

theorem calls_numKvHeads {torch : Torch R} {src : Source R G} {cs : List (Call D R)}
    {e' : ContinuousBatchingEngine D R G} (hrun : calls torch src T.runner e cs = .ok e') :
    e'.cache.numKvHeads = e.cache.numKvHeads :=
  calls_induction (P := fun _ _ e' => e'.cache.numKvHeads = e.cache.numKvHeads) (Q := fun _ => True)
    (S := fun _ => True) [] [] (fun _ _ e₁ s _ _ h _ heq => by
      have hcache := addRequest_cache e₁ s
      rw [heq] at hcache
      exact (congrArg (·.numKvHeads) hcache).trans h)
    (fun _ _ e₁ _ h _ heq => by
      have hcache := step_numKvHeads torch src T e₁
      rw [heq] at hcache
      exact hcache.trans h)
    rfl (fun _ _ => trivial) (fun _ _ _ _ _ => trivial) hrun

/-- **A run with a runner that stands for the native one** is the run with the native one. -/
theorem After.calls_standIn (h : After T numBlocks blockSize subs e)
    (hshape : e.cache.numKvHeads = T.numKvHeads) (hrunner : runner.StandsFor T) {cs : List (Call D R)}
    (hprompt : ∀ s ∈ submissions cs, s.promptIds ≠ []) (torch : Torch R) (src : Source R G) :
    calls torch src runner e cs = calls torch src T.runner e cs := by
  induction cs generalizing e subs with
  | nil => rfl
  | cons c cs ih =>
    cases c with
    | addRequest s =>
      have hcache := addRequest_cache e s
      rw [calls, calls]
      rcases heq : e.addRequest s with ⟨x | r, e₁⟩
      · rfl
      rw [heq] at hcache
      exact ih (h.submit (hprompt s List.mem_cons_self) heq) (hcache ▸ hshape)
        fun s' hs' => hprompt s' (List.mem_cons_of_mem _ hs')
    | step =>
      have hcache := step_numKvHeads torch src T e
      rw [calls, calls, h.invOf.step_standIn hshape hrunner torch src]
      rcases heq : e.step torch src T.runner with ⟨x | ⟨⟩, e₁⟩
      · rfl
      rw [heq] at hcache
      exact ih (h.step heq) (hcache.trans hshape) hprompt

end ContinuousBatchingEngine
end DiSpec
