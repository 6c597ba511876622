/-
# What a step does not look at

The server empties `engine.finished` after each step.  No function of the engine reads that list, it only
grows; and nothing but `sample` reads the generator.  So the engine may be `dressed` in other finished
requests and another generator: every function up to the sampling, and after it, does what it would have
done (`schedule_dressed`, `deliver_dressed`).

Hence a step is a program that draws (`stepDraws`), and a run of calls is one (`callsDraws`): run against the
generator of an engine they are `step` and `calls` (`step_run`, `calls_run`).  In particular what a
caller takes out of `finished` may be put back in front afterwards (`step_restored`, `addRequest_restored`).
-/

import DiSpec.Sched.Run

namespace DiSpec
namespace ContinuousBatchingEngine

variable {X D R G G' : Type}

/-- The engine with `done` in front of its finished requests, and with the generator `g`. -/
def dressed (done : List ℕ) (g : G') (e : ContinuousBatchingEngine D R G) : ContinuousBatchingEngine D R G' :=
  { e with finished := done ++ e.finished, rng := g }

/-- The same for what phases 1 and 2 return. -/
def dressedBatch {α : Type} (done : List ℕ) (g : G') (res : α × ContinuousBatchingEngine D R G × Batch) :
    α × ContinuousBatchingEngine D R G' × Batch :=
  (res.1, res.2.1.dressed done g, res.2.2)

/-- The same for what the other phases return. -/
def dressedResult {α : Type} (done : List ℕ) (g : G') (res : α × ContinuousBatchingEngine D R G) :
    α × ContinuousBatchingEngine D R G' :=
  (res.1, res.2.dressed done g)

variable (done : List ℕ) (g : G') (e : ContinuousBatchingEngine D R G) (b : Batch) (r : ℕ)

/-- A submission. -/
theorem addRequest_dressed (s : Submission D R) :
    (e.dressed done g).addRequest s = dressedResult done g (e.addRequest s) := by
  have hcheck : ∀ k v n, (e.dressed done g).checkPrefixKv k v n = e.checkPrefixKv k v n := fun _ _ _ => rfl
  unfold addRequest
  simp only [hcheck]
  split <;> rfl

theorem decodeLoop_dressed (rs : List ℕ) :
    (e.dressed done g).decodeLoop b rs = dressedBatch done g (e.decodeLoop b rs) := by
  induction rs generalizing e b with
  | nil => rfl
  | cons r rs ih =>
    rw [decodeLoop, decodeLoop]
    by_cases hb : b.budget < 1
    · rw [if_pos hb, if_pos hb]
      rfl
    rw [if_neg hb, if_neg hb, show (e.dressed done g).cache = e.cache from rfl,
      show (e.dressed done g).req = e.req from rfl]
    rcases e.cache.manager.blockTable r with x | table
    · rfl
    dsimp only
    rcases e.cache.manager.appendToken r with ⟨x | ⟨blk, off⟩, m⟩
    · rfl
    dsimp only
    rcases (e.req r).outputIds.getLast? with - | token
    · rfl
    rcases m.blockTable r with x | table
    · rfl
    exact ih { e.setManager m with numDecodeTokens := e.numDecodeTokens + 1 } _

theorem importPrefix_dressed (table : BlockTable) :
    (e.dressed done g).importPrefix b r table = dressedBatch done g (e.importPrefix b r table) := by
  unfold importPrefix
  rw [show (e.dressed done g).cache = e.cache from rfl, show (e.dressed done g).req = e.req from rfl]
  rcases (e.req r).prefixKv with - | ⟨k, v⟩
  · rfl
  dsimp only
  rcases e.cache.importContiguous table.blockIds k v with ⟨x | ⟨⟩, c⟩
  · rfl
  · rfl

theorem admitRequest_dressed :
    (e.dressed done g).admitRequest b r = dressedBatch done g (e.admitRequest b r) := by
  unfold admitRequest
  rw [show (e.dressed done g).req = e.req from rfl, show (e.dressed done g).cache = e.cache from rfl]
  by_cases hw : (e.req r).state ≠ .WAITING
  · rw [if_pos hw, if_pos hw]
    rfl
  rw [if_neg hw, if_neg hw]
  rcases e.cache.manager.allocate r (e.req r).promptIds.length [] with ⟨x | table, m⟩
  · dsimp only
    split <;> rfl
  have himport := importPrefix_dressed done g (e.setManager (m.setTable r { table with numTokens := 0 })) b r
    { table with numTokens := 0 }
  dsimp only
  rw [show (e.dressed done g).setManager (m.setTable r { table with numTokens := 0 }) =
    dressed done g (e.setManager (m.setTable r { table with numTokens := 0 })) from rfl, himport]
  rcases (e.setManager (m.setTable r { table with numTokens := 0 })).importPrefix b r
    { table with numTokens := 0 } with ⟨x | ⟨⟩, e₁, b₁⟩
  · rfl
  dsimp only [dressedBatch, dressed, setReq]
  rcases remove e₁.waiting r with x | waiting
  · rfl
  · rfl

theorem prefillChunk_dressed :
    (e.dressed done g).prefillChunk b r = dressedBatch done g (e.prefillChunk b r) := by
  unfold prefillChunk
  rw [show (e.dressed done g).req = e.req from rfl, show (e.dressed done g).cache = e.cache from rfl,
    show (e.dressed done g).chunkSize = e.chunkSize from rfl]
  rcases e.cache.manager.blockTable r with x | table
  · rfl
  dsimp only
  rcases e.cache.slotsForList table.blockIds _ with x | slots
  · rfl
  dsimp only
  split
  · dsimp only [dressed, setReq, setManager]
    rcases remove e.prefilling r with x | prefilling
    · rfl
    · rfl
  · rfl

theorem prefillLoop_dressed (rs : List ℕ) :
    (e.dressed done g).prefillLoop b rs = dressedBatch done g (e.prefillLoop b rs) := by
  induction rs generalizing e b with
  | nil => rfl
  | cons r rs ih =>
    rw [prefillLoop, prefillLoop, admitRequest_dressed]
    by_cases hb : b.budget < 1
    · rw [if_pos hb, if_pos hb]
      rfl
    rw [if_neg hb, if_neg hb]
    rcases e.admitRequest b r with ⟨x | - | -, e₁, b₁⟩
    · rfl
    · rfl
    dsimp only [dressedBatch]
    rw [prefillChunk_dressed]
    rcases e₁.prefillChunk b₁ r with ⟨x | ⟨⟩, e₂, b₂⟩
    · rfl
    · exact ih e₂ b₂

theorem schedule_dressed : (e.dressed done g).schedule = dressedBatch done g e.schedule := by
  unfold schedule
  rw [show (e.dressed done g).emptyBatch = e.emptyBatch from rfl,
    show (e.dressed done g).running = e.running from rfl, decodeLoop_dressed]
  rcases e.decodeLoop e.emptyBatch e.running with ⟨x | ⟨⟩, e₁, b₁⟩
  · rfl
  · exact prefillLoop_dressed done g { e₁ with waiting := e₁.waiting.insertionSort e₁.admissionOrder } _ _

theorem appendOutputs_dressed (l : List (ℕ × ℕ)) :
    (e.dressed done g).appendOutputs l = dressedResult done g (e.appendOutputs l) := by
  induction l generalizing e with
  | nil => rfl
  | cons x rest ih =>
    obtain ⟨r, tid⟩ := x
    rw [appendOutputs, appendOutputs, show (e.dressed done g).cache = e.cache from rfl,
      show (e.dressed done g).req = e.req from rfl]
    rcases e.cache.manager.blockTable r with x | table
    · rfl
    dsimp only
    split
    · have hrest := ih (e.setReq r { e.req r with
        outputIds := (e.req r).outputIds ++ [tid], curLen := table.numTokens, state := .FINISHED })
      rw [show (e.dressed done g).setReq r _ = dressed done g (e.setReq r _) from rfl, hrest]
      rcases (e.setReq r { e.req r with
        outputIds := (e.req r).outputIds ++ [tid],
        curLen := table.numTokens,
        state := .FINISHED }).appendOutputs rest with ⟨x | fin, e₁⟩
      · rfl
      · rfl
    · exact ih (e.setReq r _)

theorem retire_dressed (rs : List ℕ) :
    (e.dressed done g).retire rs = dressedResult done g (e.retire rs) := by
  induction rs generalizing e with
  | nil => rfl
  | cons r rs ih =>
    rw [retire, retire, show (e.dressed done g).running = e.running from rfl]
    rcases remove e.running r with x | running
    · rfl
    have hpush : { e.dressed done g with running, finished := (e.dressed done g).finished ++ [r] } =
        dressed done g { e with running, finished := e.finished ++ [r] } := by
      simp only [dressed, List.append_assoc]
    dsimp only
    rw [hpush]
    dsimp only [dressed]
    rcases e.cache.manager.free r with ⟨x | ⟨⟩, m⟩
    · rfl
    · exact ih (setManager { e with running, finished := e.finished ++ [r] } m)

/-- Phase 5: append the drawn tokens and retire the requests that are done. -/
def deliver (drawn : List (ℕ × ℕ)) : Except Exc Unit × ContinuousBatchingEngine D R G :=
  match e.appendOutputs drawn with
  | (.error x, e) => (.error x, e)
  | (.ok finished, e) => e.retire finished

theorem deliver_dressed (drawn : List (ℕ × ℕ)) :
    (e.dressed done g).deliver drawn = dressedResult done g (e.deliver drawn) := by
  unfold deliver
  rw [appendOutputs_dressed]
  rcases e.appendOutputs drawn with ⟨x | fin, e₁⟩
  · rfl
  · exact retire_dressed done g e₁ fin

/-! ### Steps and runs as programs that draw -/

variable [Field R] [LinearOrder R]

/-- Phases 3 to 5 as a program that draws. -/
def executeDraws (torch : Torch R) (runner : ModelRunner X D R) (e : ContinuousBatchingEngine D R G)
    (b : Batch) : RandM R (Except Exc Unit × ContinuousBatchingEngine D R G) :=
  match runner.forward b.tokenIds b.positions b.writeSlots b.seqMeta e.cache with
  | (.error x, cache) => .pure (.error x, { e with cache })
  | (.ok hidden, cache) =>
    let e := { e with cache, numSteps := e.numSteps + 1 }
    if b.lastIdx = [] then .pure (.ok (), e)
    else
      match indexRows hidden b.lastIdx, sampleBatch b with
      | .error x, _ => .pure (.error x, e)
      | .ok _, [] => .pure (.error .IndexError, e)
      | .ok rows, first :: rest =>
        (sample torch (e.req first).params (runner.logits rows)).map fun tids =>
          e.deliver ((first :: rest).zip tids)

/-- `step` as a program that draws. -/
def stepDraws (torch : Torch R) (runner : ModelRunner X D R) (e : ContinuousBatchingEngine D R G) :
    RandM R (Except Exc Unit × ContinuousBatchingEngine D R G) :=
  match e.schedule with
  | (.error x, e, _) => .pure (.error x, e)
  | (.ok (), e, b) => if b.batch = [] then .pure (.ok (), e) else e.executeDraws torch runner b

/-- A run of calls as a program that draws; it ends with the first call that raises. -/
def callsDraws (torch : Torch R) (runner : ModelRunner X D R) :
    ContinuousBatchingEngine D R G → List (Call D R) →
      RandM R (Except Exc Unit × ContinuousBatchingEngine D R G)
  | e, [] => .pure (.ok (), e)
  | e, .addRequest s :: cs =>
    match e.addRequest s with
    | (.error x, e) => .pure (.error x, e)
    | (.ok _, e) => callsDraws torch runner e cs
  | e, .step :: cs => (e.stepDraws torch runner).bind fun res =>
    match res with
    | (.error x, e) => .pure (.error x, e)
    | (.ok (), e) => callsDraws torch runner e cs

theorem execute_run (torch : Torch R) (src : Source R G') (runner : ModelRunner X D R) :
    (e.dressed done g).execute torch src runner b =
      dressedResult done ((e.executeDraws torch runner b).run src g).2
        ((e.executeDraws torch runner b).run src g).1 := by
  unfold execute executeDraws
  rw [show (e.dressed done g).cache = e.cache from rfl]
  rcases runner.forward b.tokenIds b.positions b.writeSlots b.seqMeta e.cache with ⟨x | hidden, cache⟩
  · rfl
  dsimp only
  split
  · rfl
  rcases indexRows hidden b.lastIdx with x | rows
  · rfl
  rcases sampleBatch b with - | ⟨first, rest⟩
  · rfl
  rw [RandM.run_map]
  dsimp only [dressed]
  generalize (sample torch (e.req first).params (runner.logits rows)).run src g = drawn
  exact deliver_dressed done drawn.2 { e with cache, numSteps := e.numSteps + 1 }
    ((first :: rest).zip drawn.1)

/-- **A step** is its program run against the generator. -/
theorem step_run (torch : Torch R) (src : Source R G') (runner : ModelRunner X D R) :
    (e.dressed done g).step torch src runner =
      dressedResult done ((e.stepDraws torch runner).run src g).2 ((e.stepDraws torch runner).run src g).1 := by
  rw [step, stepDraws, schedule_dressed]
  rcases e.schedule with ⟨x | ⟨⟩, e₁, b⟩
  · rfl
  dsimp only [dressedBatch]
  split
  · rfl
  · exact execute_run done g e₁ b torch src runner

/-- **A run of calls** is its program run against the generator. -/
theorem calls_run (torch : Torch R) (src : Source R G') (runner : ModelRunner X D R) (cs : List (Call D R)) :
    calls torch src runner (e.dressed done g) cs =
      ((callsDraws torch runner e cs).run src g).1.1.map fun _ =>
        ((callsDraws torch runner e cs).run src g).1.2.dressed done ((callsDraws torch runner e cs).run src g).2 := by
  induction cs generalizing e g with
  | nil => rfl
  | cons c cs ih =>
    cases c with
    | addRequest s =>
      rw [calls, callsDraws, addRequest_dressed]
      rcases e.addRequest s with ⟨x | r, e₁⟩
      · rfl
      · exact ih g e₁
    | step =>
      rw [calls, callsDraws, step_run, RandM.run_bind]
      rcases (e.stepDraws torch runner).run src g with ⟨⟨x | ⟨⟩, e₁⟩, g₁⟩
      · rfl
      · exact ih g₁ e₁

/-! ### What a caller takes out of `finished` -/

/-- The engine with `done` back in front of its finished requests. -/
def restored (done : List ℕ) (e : ContinuousBatchingEngine D R G) : ContinuousBatchingEngine D R G :=
  { e with finished := done ++ e.finished }

/-- The same for what a call returns. -/
def restoredResult {α : Type} (done : List ℕ) (res : α × ContinuousBatchingEngine D R G) :
    α × ContinuousBatchingEngine D R G :=
  (res.1, res.2.restored done)

omit [Field R] [LinearOrder R] in
/-- A submission finds the same. -/
theorem addRequest_restored (s : Submission D R) :
    (e.restored done).addRequest s = restoredResult done (e.addRequest s) := by
  have hwith : (e.restored done).addRequest s = _ := addRequest_dressed done e.rng (e.dressed [] ()) s
  have hwithout : e.addRequest s = _ := addRequest_dressed [] e.rng (e.dressed [] ()) s
  rw [hwith, hwithout]
  rfl

/-- **A step** finds the same. -/
theorem step_restored (torch : Torch R) (src : Source R G) (runner : ModelRunner X D R) :
    (e.restored done).step torch src runner = restoredResult done (e.step torch src runner) := by
  have hwith : (e.restored done).step torch src runner = _ :=
    step_run done e.rng (e.dressed [] ()) torch src runner
  have hwithout : e.step torch src runner = _ := step_run [] e.rng (e.dressed [] ()) torch src runner
  rw [hwith, hwithout]
  rfl

end ContinuousBatchingEngine
end DiSpec
