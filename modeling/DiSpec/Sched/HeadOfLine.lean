/-
# The head of the line

`step` of `dispec/sched/scheduler.py` goes over the waiting requests in the order of admission and stops
at the first that finds too few free blocks; the request keeps its place, and the step raises nothing.
That is right as long as blocks come back later.  With nothing prefilling and nothing running the whole
pool is free already (`Tenure.free_all`): a head that fits the pool is admitted (`step_admits`), and one
that does not fit has stopped the engine.  The step returns and has only sorted the queue
(`step_blocked`), and so has every step after it (`Blocked.steps`).
-/

import DiSpec.Sched.Tenure

namespace DiSpec
namespace ContinuousBatchingEngine

variable {X D R G : Type} {e e' : ContinuousBatchingEngine D R G} {r n : ℕ}

/-! ### The waiting queue only shrinks -/

theorem importPrefix_waiting (e : ContinuousBatchingEngine D R G) (b : Batch) (r : ℕ) (t : BlockTable) :
    (e.importPrefix b r t).2.1.waiting = e.waiting := by
  unfold importPrefix
  split
  · rfl
  · split
    · rfl
    · rfl

theorem admitRequest_waiting (e : ContinuousBatchingEngine D R G) (b : Batch) (r : ℕ) :
    ∀ r' ∈ (e.admitRequest b r).2.1.waiting, r' ∈ e.waiting := by
  unfold admitRequest
  split
  · exact fun _ hr' => hr'
  · split
    · split
      · exact fun _ hr' => hr'
      · exact fun _ hr' => hr'
    next table m halloc =>
      have himp := importPrefix_waiting (e.setManager (m.setTable r { table with numTokens := 0 })) b r
        { table with numTokens := 0 }
      dsimp only
      split
      next heq =>
        rw [heq] at himp
        exact fun _ hr' => himp ▸ hr'
      next heq =>
        rw [heq] at himp
        split
        · exact fun _ hr' => himp ▸ hr'
        next hremove =>
          unfold remove at hremove
          split at hremove
          · obtain rfl := Except.ok.inj hremove
            exact fun _ hr' => himp ▸ List.mem_of_mem_erase hr'
          · cases hremove

theorem prefillChunk_waiting (e : ContinuousBatchingEngine D R G) (b : Batch) (r : ℕ) :
    (e.prefillChunk b r).2.1.waiting = e.waiting := by
  unfold prefillChunk
  split
  · rfl
  · dsimp only
    split
    · rfl
    · split
      · split
        · rfl
        · rfl
      · rfl

theorem prefillLoop_waiting (rs : List ℕ) (e : ContinuousBatchingEngine D R G) (b : Batch) :
    ∀ r' ∈ (e.prefillLoop b rs).2.1.waiting, r' ∈ e.waiting := by
  refine prefillLoop_keeps (P := fun e' _ => ∀ r' ∈ e'.waiting, r' ∈ e.waiting)
    (fun e' b' r h r' hr' => ?_) (fun e' b' r h r' hr' => ?_) rs fun _ hr' => hr'
  · exact h r' (admitRequest_waiting e' b' r r' hr')
  · rw [prefillChunk_waiting] at hr'
    exact h r' hr'

/-! ### A step of an engine that holds nothing -/

/-- The waiting queue as phase 2 goes over it. -/
def admissionQueue (e : ContinuousBatchingEngine D R G) : List ℕ := e.waiting.insertionSort e.admissionOrder

theorem mem_admissionQueue : r ∈ e.admissionQueue ↔ r ∈ e.waiting := List.mem_insertionSort _

theorem admissionQueue_perm (e : ContinuousBatchingEngine D R G) : e.admissionQueue.Perm e.waiting :=
  List.perm_insertionSort _ _

/-- Sorting a sorted queue changes nothing. -/
theorem admissionQueue_sorted (e : ContinuousBatchingEngine D R G) :
    ({ e with waiting := e.admissionQueue } : ContinuousBatchingEngine D R G).admissionQueue =
      e.admissionQueue := by
  have : Std.Total e.admissionOrder := ⟨fun r r' => le_total _ _⟩
  have : IsTrans ℕ e.admissionOrder := ⟨fun _ _ _ h h' => le_trans h h'⟩
  exact List.Pairwise.insertionSort_eq (List.pairwise_insertionSort e.admissionOrder e.waiting)

/-- Nothing prefills, nothing runs. -/
structure Idle (e : ContinuousBatchingEngine D R G) : Prop where
  prefilling : e.prefilling = []
  running : e.running = []

/-- With nothing prefilling or running the whole pool is free. -/
theorem Tenure.free_all (h : Tenure n e) (hidle : Idle e) : e.cache.manager.freeList.length = n := by
  rw [← h.numBlocks]
  refine h.accounted.free_all fun seq => ?_
  by_contra hsome
  obtain ⟨t, ht⟩ := Option.ne_none_iff_exists'.1 hsome
  have := (h.table seq).1 ⟨t, ht⟩
  rw [hidle.prefilling, hidle.running] at this
  simp at this

/-- Phase 1 has nothing to do, and phase 2 goes over the waiting queue. -/
theorem Idle.schedule (h : Idle e) : e.schedule =
    ({ e with waiting := e.admissionQueue } : ContinuousBatchingEngine D R G).prefillLoop e.emptyBatch
      e.admissionQueue := by
  have hdecode : e.decodeLoop e.emptyBatch e.running = (.ok (), e, e.emptyBatch) := by
    rw [h.running]
    rfl
  have hqueue : e.prefilling ++ e.admissionQueue = e.admissionQueue := by
    rw [h.prefilling]
    rfl
  unfold ContinuousBatchingEngine.schedule
  rw [hdecode]
  exact congrArg (prefillLoop _ _) hqueue

/-- The head of the queue asks for more blocks than there are, or there is no token budget. -/
def Blocked (e : ContinuousBatchingEngine D R G) : Prop :=
  e.maxBatchTokens = 0 ∨ ∃ r ∈ e.admissionQueue.head?,
    e.cache.manager.numBlocks < e.cache.manager.blocksNeeded (e.req r).promptIds.length

/-- The engine with its queue sorted, as phase 2 finds it. -/
theorem sorted_tenure (h : Tenure n e) (hq : Queues e) :
    Tenure n { e with waiting := e.admissionQueue } ∧
      Queues { e with waiting := e.admissionQueue } :=
  ⟨h.congr rfl rfl rfl (fun _ hr => e.admissionQueue_perm.mem_iff.1 hr) rfl rfl, hq.congr rfl e.admissionQueue_perm rfl rfl rfl rfl rfl rfl⟩

variable [Field R] [LinearOrder R]

/-- **A blocked engine** takes a step that returns and only sorts the queue. -/
theorem step_blocked (h : Tenure n e) (hq : Queues e) (hidle : Idle e) (hb : Blocked e)
    (torch : Torch R) (src : Source R G) (runner : ModelRunner X D R) :
    e.step torch src runner = (.ok (), { e with waiting := e.admissionQueue }) := by
  obtain ⟨h', hq'⟩ := sorted_tenure h hq
  set e₂ : ContinuousBatchingEngine D R G := { e with waiting := e.admissionQueue } with he₂
  have hloop : ∀ rs, rs = e.admissionQueue →
      e₂.prefillLoop e.emptyBatch rs = (.ok (), e₂, e.emptyBatch) := by
    intro rs hrs
    cases rs with
    | nil => rfl
    | cons r rs =>
      rw [prefillLoop]
      rcases hb with h0 | ⟨r', hr', hbig⟩
      · rw [if_pos (by show e.maxBatchTokens < 1; omega)]
      · rw [← hrs] at hr'
        obtain rfl := Option.some.inj hr'
        have hfree : e₂.cache.manager.freeList.length = n := h.free_all hidle
        have hn := h.numBlocks
        have hbig : n < e₂.cache.manager.blocksNeeded (e₂.req r).promptIds.length := hn ▸ hbig
        rcases h'.admit hq' (show r ∈ e.admissionQueue from hrs ▸ List.mem_cons_self) e.emptyBatch with
          ⟨-, heq⟩ | ⟨hfits, -⟩
        · rw [heq]
          split
          · rfl
          · rfl
        · omega
  rw [step, hidle.schedule, hloop _ rfl]
  exact if_pos rfl

/-- **A head that fits** leaves the queue in the next step, raising or not. -/
theorem step_admits (h : Tenure n e) (hq : Queues e) (hidle : Idle e) (hmax : 1 ≤ e.maxBatchTokens)
    (hr : r ∈ e.admissionQueue.head?)
    (hfits : e.cache.manager.blocksNeeded (e.req r).promptIds.length ≤ n)
    (torch : Torch R) (src : Source R G) (runner : ModelRunner X D R) :
    r ∈ e.waiting ∧ r ∉ (e.step torch src runner).2.waiting := by
  obtain ⟨h', hq'⟩ := sorted_tenure h hq
  have hw : r ∈ e.admissionQueue := List.mem_of_mem_head? hr
  refine ⟨mem_admissionQueue.1 hw, ?_⟩
  set e₂ : ContinuousBatchingEngine D R G := { e with waiting := e.admissionQueue } with he₂
  have hloop : ∀ rs, r :: rs = e.admissionQueue →
      r ∉ (e₂.prefillLoop e.emptyBatch (r :: rs)).2.1.waiting := by
    intro rs hrs
    have hfree : e₂.cache.manager.freeList.length = n := h.free_all hidle
    have hfits : e₂.cache.manager.blocksNeeded (e₂.req r).promptIds.length ≤ n := hfits
    rw [prefillLoop, if_neg (by show ¬e.maxBatchTokens < 1; omega)]
    rcases h'.admit hq' hw e.emptyBatch with ⟨hfew, -⟩ | ⟨-, c, b', heq, -⟩
    · omega
    · have hnot : r ∉ (e₂.admitted r c).waiting :=
        (hq'.nodup.of_append_left.of_append_left).of_append_left.not_mem_erase
      have hchunk := prefillChunk_waiting (e₂.admitted r c) b' r
      rw [heq]
      simp only
      split
      next heq' =>
        rw [heq'] at hchunk
        exact fun hm => hnot (hchunk ▸ hm)
      next heq' =>
        rw [heq'] at hchunk
        exact fun hm => hnot (hchunk ▸ prefillLoop_waiting _ _ _ r hm)
  obtain ⟨rs, hrs⟩ := List.head?_eq_some_iff.1 hr
  have hnot := hloop rs hrs.symm
  rw [← hrs, ← hidle.schedule] at hnot
  obtain ⟨res, e₁, b, dec, new, heq, hs⟩ := schedule_any hq
  rw [heq] at hnot
  rw [step, heq]
  cases res with
  | error x => exact hnot
  | ok =>
    by_cases hb : b.batch = []
    · simp only [if_pos hb]
      exact hnot
    · obtain ⟨-, hrun⟩ := hs.toSample_running
      obtain ⟨res, e', taken, done, hexec, hd, -⟩ := execute_any torch src runner e₁ (b := b)
        fun r hr => hrun r (hs.sampleBatch ▸ hr)
      simp only [if_neg hb, hexec]
      rw [hd.waiting]
      exact hnot

/-- **A blocked engine stays blocked**: steps alone never take anybody from its queue. -/
theorem Blocked.steps (h : Tenure n e) (hq : Queues e) (hidle : Idle e) (hb : Blocked e)
    (torch : Torch R) (src : Source R G) (runner : ModelRunner X D R) (k : ℕ) :
    (leaves torch src runner e (List.replicate k .step)).waiting.Perm e.waiting := by
  induction k generalizing e with
  | zero => exact .refl _
  | succ k ih =>
    obtain ⟨h', hq'⟩ := sorted_tenure h hq
    have hb' : Blocked { e with waiting := e.admissionQueue } := by
      unfold Blocked
      rw [e.admissionQueue_sorted]
      exact hb
    have hrest := ih h' hq' ⟨hidle.prefilling, hidle.running⟩ hb'
    rw [List.replicate_succ]
    show (leaves torch src runner (e.step torch src runner).2 (List.replicate k .step)).waiting.Perm _
    rw [step_blocked h hq hidle hb torch src runner]
    exact hrest.trans e.admissionQueue_perm

omit [Field R] [LinearOrder R] in
theorem not_blocked_iff : ¬Blocked e ↔ 1 ≤ e.maxBatchTokens ∧ ∀ r ∈ e.admissionQueue.head?,
    e.cache.manager.blocksNeeded (e.req r).promptIds.length ≤ e.cache.manager.numBlocks := by
  unfold Blocked
  rw [not_or]
  refine and_congr (by omega) ?_
  push Not
  rfl

end ContinuousBatchingEngine

open ContinuousBatchingEngine

variable {X D R G : Type} [Zero D] [Add X] [Field R] [LinearOrder R]

/-- **When an engine that holds nothing admits somebody.**  In every state that calls lead to, raising or
not, in which nothing prefills or runs and some prompt that waits fits the pool: the next step takes a
request from the waiting queue iff there is a token budget and the first request in the order of admission
fits the pool.  If not, no number of further steps does. -/
theorem idle_admits_iff (torch : Torch R) (src : Source R G) (T : Transformer X D R) (numBlocks : ℕ)
    {blockSize : ℕ} (hbs : 1 ≤ blockSize) (maxBatchTokens : ℕ) (chunkSize : Option ℕ) (rng : G)
    (cs : List (Call D R)) :
    let e := leaves torch src T.runner (init T numBlocks blockSize maxBatchTokens chunkSize rng) cs
    e.prefilling = [] → e.running = [] →
    (∃ r ∈ e.waiting, (e.req r).promptIds ≠ [] ∧
      e.cache.manager.blocksNeeded (e.req r).promptIds.length ≤ e.cache.manager.numBlocks) →
    ((∃ r ∈ e.waiting, r ∉ (e.step torch src T.runner).2.waiting) ↔
      1 ≤ e.maxBatchTokens ∧ ∀ r ∈ e.admissionQueue.head?,
        e.cache.manager.blocksNeeded (e.req r).promptIds.length ≤ e.cache.manager.numBlocks) ∧
    ((∃ k, ∃ r ∈ e.waiting, r ∉ (leaves torch src T.runner e (List.replicate k .step)).waiting) ↔
      1 ≤ e.maxBatchTokens ∧ ∀ r ∈ e.admissionQueue.head?,
        e.cache.manager.blocksNeeded (e.req r).promptIds.length ≤ e.cache.manager.numBlocks) := by
  intro e hprefilling hrunning hsome
  have hidle : Idle e := ⟨hprefilling, hrunning⟩
  have hq₀ := init_queues T numBlocks blockSize maxBatchTokens chunkSize rng
  have hq : Queues e := hq₀.leaves torch src T.runner cs
  have h : Tenure numBlocks e :=
    (Tenure.init T numBlocks hbs maxBatchTokens chunkSize rng).leaves hq₀ torch src T cs
  -- a queue that is not empty has a head
  have hgo : (1 ≤ e.maxBatchTokens ∧ ∀ r ∈ e.admissionQueue.head?,
      e.cache.manager.blocksNeeded (e.req r).promptIds.length ≤ e.cache.manager.numBlocks) →
      ∃ r ∈ e.waiting, r ∉ (e.step torch src T.runner).2.waiting := by
    rintro ⟨hmax, hhead⟩
    obtain ⟨r, hr, -⟩ := hsome
    obtain ⟨r', rs, hqueue⟩ := List.exists_cons_of_ne_nil (List.ne_nil_of_mem (mem_admissionQueue.2 hr))
    have hr' : r' ∈ e.admissionQueue.head? := by rw [hqueue]; rfl
    exact ⟨r', step_admits h hq hidle hmax hr' (h.numBlocks ▸ hhead r' hr') torch src T.runner⟩
  constructor
  · constructor
    · rintro ⟨r, hr, hnot⟩
      refine not_blocked_iff.1 fun hb => hnot ?_
      rw [step_blocked h hq hidle hb torch src T.runner]
      exact mem_admissionQueue.2 hr
    · exact hgo
  · constructor
    · rintro ⟨k, r, hr, hnot⟩
      refine not_blocked_iff.1 fun hb => hnot ?_
      exact (Blocked.steps h hq hidle hb torch src T.runner k).mem_iff.2 hr
    · exact fun hcond => ⟨1, hgo hcond⟩

/-- The hypotheses are satisfiable: a request that fits stands before one that does not. -/
theorem idle_admits_iff_two :
    let torch : Torch ℚ := ⟨id, fun _ => []⟩
    let src : Source ℚ Unit := ⟨fun g => (0, g), fun _ g => (0, g)⟩
    let e : ContinuousBatchingEngine ℤ ℚ Unit := leaves torch src sumModel.runner
      (init sumModel 2 2 8 none ()) [.addRequest ⟨[0, 1, 2, 3, 4], 1, .default, none, 0, none⟩,
        .addRequest ⟨[1], 1, .default, none, 1, none⟩]
    e.admissionQueue = [1, 0] ∧ ∃ r ∈ e.waiting, r ∉ (e.step torch src sumModel.runner).2.waiting := by
  intro torch src e
  have hqueue : e.admissionQueue = [1, 0] := by decide +kernel
  refine ⟨hqueue, ((idle_admits_iff torch src sumModel 2 (by decide) 8 none () _ ?_ ?_ ?_).1).2 ?_⟩
  · decide +kernel
  · decide +kernel
  · exact ⟨1, by decide +kernel⟩
  · decide +kernel

/-- **An oversized request freezes the engine.**  It came first and asks for three blocks of a pool of two;
the request behind it asks for one.  Nothing prefills or runs, the step returns, and both still wait. -/
theorem oversized_head_freezes :
    let torch : Torch ℚ := ⟨id, fun _ => []⟩
    let src : Source ℚ Unit := ⟨fun g => (0, g), fun _ g => (0, g)⟩
    let e : ContinuousBatchingEngine ℤ ℚ Unit := leaves torch src sumModel.runner
      (init sumModel 2 2 8 none ()) [.addRequest ⟨[0, 1, 2, 3, 4], 1, .default, none, 0, none⟩,
        .addRequest ⟨[1], 1, .default, none, 0, none⟩]
    e.prefilling = [] ∧ e.running = [] ∧
      (∃ r ∈ e.waiting, (e.req r).promptIds ≠ [] ∧
        e.cache.manager.blocksNeeded (e.req r).promptIds.length ≤ e.cache.manager.numBlocks) ∧
      ¬∃ r ∈ e.waiting, r ∉ (e.step torch src sumModel.runner).2.waiting := by
  decide +kernel

end DiSpec
