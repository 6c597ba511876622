/-
# Where a request stands between calls

`Inv` says more than a caller of the engine sees.  This module states what it comes
to between two calls of a run that raised nothing: each id that `add_request`
returned is in exactly one queue, once, and `state` names it; it has a block table
iff it is prefilling or running; and its counters, table and output fit together
(`Standing`).  A finished request holds no block, and its output is final
(`standing`).
-/

import DiSpec.Sched.Run

namespace DiSpec
namespace ContinuousBatchingEngine

variable {X D R G : Type}

/-- The queue that a state names. -/
def queue (e : ContinuousBatchingEngine D R G) : State → List ℕ
  | .WAITING => e.waiting
  | .PREFILLING => e.prefilling
  | .RUNNING => e.running
  | .FINISHED => e.finished

/-- **How a request stands between calls.** -/
structure Standing (e : ContinuousBatchingEngine D R G) (r : ℕ) : Prop where
  queue : ∀ s, (e.queue s).count r = if (e.req r).state = s then 1 else 0
  table : (∃ t, e.cache.manager.tables.lookup r = some t) ↔ r ∈ e.prefilling ∨ r ∈ e.running
  prefilling : r ∈ e.prefilling → (e.req r).prefillPos < (e.req r).promptIds.length ∧
    ∃ t, e.cache.manager.tables.lookup r = some t ∧ t.numTokens = (e.req r).prefillPos ∧
      t.blockIds.length = e.cache.manager.blocksNeeded (e.req r).promptIds.length
  running : r ∈ e.running → 1 ≤ (e.req r).outputIds.length ∧ (e.req r).done = false ∧
    ∃ t, e.cache.manager.tables.lookup r = some t ∧
      t.numTokens = (e.req r).promptIds.length + (e.req r).outputIds.length - 1 ∧
      t.blockIds.length = e.cache.manager.blocksNeeded t.numTokens

/-- The free list has each block that no prefilling or running request holds, once. -/
def PoolComplete (e : ContinuousBatchingEngine D R G) : Prop :=
  e.cache.manager.freeList.Nodup ∧
    ∀ b, b ∈ e.cache.manager.freeList ↔ b < e.cache.manager.numBlocks ∧
      ∀ r t, r ∈ e.prefilling ∨ r ∈ e.running → e.cache.manager.tables.lookup r = some t → b ∉ t.blockIds

variable [Zero D] [Add X] {T : Transformer X D R} {base : ℕ → BaseKV D}
  {e e' : ContinuousBatchingEngine D R G} {r : ℕ}

/-- A request between calls is in the queue its state names. -/
theorem Inv.mem_queue (h : Inv T base e [] []) (hr : r < e.nextId) (s : State) :
    r ∈ e.queue s ↔ (e.req r).state = s := by
  have hq := h.each r
  have hstate : ∀ s, r ∈ e.queue s → (e.req r).state = s := by
    intro s hs
    cases s with
    | WAITING => exact (hq.waiting hs).state
    | PREFILLING => exact (hq.prefilling hs).state
    | RUNNING => exact ((hq.running hs).live List.not_mem_nil).1
    | FINISHED => exact (hq.finished hs).state
  refine ⟨hstate s, ?_⟩
  rintro rfl
  have hmem := (h.created r).2 hr
  simp only [List.mem_append] at hmem
  obtain ((hw | hp) | hrun) | hf := hmem
  · rwa [hstate .WAITING hw]
  · rwa [hstate .PREFILLING hp]
  · rwa [hstate .RUNNING hrun]
  · rwa [hstate .FINISHED hf]

theorem Inv.queue_nodup (h : Inv T base e [] []) (s : State) : (e.queue s).Nodup := by
  have hn := h.lists
  simp only [List.nodup_append] at hn
  obtain ⟨⟨⟨hw, hp, -⟩, hrun, -⟩, hf, -⟩ := hn
  cases s with
  | WAITING => exact hw
  | PREFILLING => exact hp
  | RUNNING => exact hrun
  | FINISHED => exact hf

/-- **The invariant gives the standing of each request.** -/
theorem Inv.standing (h : Inv T base e [] []) (hr : r < e.nextId) : e.Standing r := by
  have hq := h.each r
  refine ⟨fun s => ?_, ⟨?_, ?_⟩, fun hp => ?_, fun hrun => ?_⟩
  · split
    next hs => exact List.count_eq_one_of_mem (h.queue_nodup s) ((h.mem_queue hr s).2 hs)
    next hs => exact List.count_eq_zero_of_not_mem fun hm => hs ((h.mem_queue hr s).1 hm)
  · rintro ⟨t, ht⟩
    by_contra hno
    rw [not_or] at hno
    rw [hq.noTable hno.1 hno.2] at ht
    cases ht
  · rintro (hp | hrun)
    · obtain ⟨-, -, -, t, ht, -⟩ := hq.prefilling hp
      exact ⟨t, ht⟩
    · obtain ⟨-, -, -, t, ht, -⟩ := hq.running hrun
      exact ⟨t, ht⟩
  · obtain ⟨-, -, hlt, t, ht, hnum, hlen⟩ := hq.prefilling hp
    exact ⟨hlt, t, ht, hnum, hlen⟩
  · obtain ⟨-, hlive, -, t, ht, hlen, -, hcount⟩ := hq.running hrun
    obtain ⟨hout, hnum⟩ := hcount fun ⟨s, hs, _⟩ => absurd hs List.not_mem_nil
    have hone : 1 ≤ (e.req r).outputIds.length := List.length_pos_iff.2 hout
    rw [Request.tokens, List.length_append] at hnum
    refine ⟨hone, (hlive List.not_mem_nil).2.resolve_left hout, t, ht, ?_, hlen⟩
    omega

/-- A finished request holds no block, so the pool is complete. -/
theorem Inv.poolComplete (h : Inv T base e [] []) : e.PoolComplete := by
  refine ⟨h.accounted.counted.free_nodup, fun b => ?_⟩
  rw [h.accounted.mem_free_iff]
  refine and_congr_right fun _ => ⟨fun hno r t _ ht => hno r t ht, fun hno r t ht => hno r t ?_ ht⟩
  by_contra hr
  rw [not_or] at hr
  rw [(h.each r).noTable hr.1 hr.2] at ht
  cases ht

/-! ### A step and a run -/

variable [Field R] [LinearOrder R] {torch : Torch R} {src : Source R G} {e₁ : ContinuousBatchingEngine D R G}
  {b : Batch} {sl : List Slice}

/-- **A finished request stays as it is** in a step. -/
theorem StepRun.finished (hinv : Inv T base e [] []) (h : StepRun torch src T base e e₁ b sl e')
    (hr : r ∈ e.finished) : r ∈ e'.finished ∧ (e'.req r).outputIds = (e.req r).outputIds := by
  obtain ⟨done, hdone, -⟩ := h.executed.finished
  have hnot : r ∉ e.toSample := fun hm => by
    obtain ⟨-, hover, hout⟩ := (hinv.each r).finished hr
    rcases (h.sampled r hm).2.1 with hnil | hlive
    · exact hout hnil
    · rw [hlive] at hover
      cases hover
  refine ⟨?_, ?_⟩
  · rw [hdone, h.scheduled.finished]
    exact List.mem_append_left _ hr
  · have hnone : drawnFor (e.toSample.zip (drawRows torch src T base e e.toSample).1) r = [] := by
      rw [drawnFor, List.map_eq_nil_iff, List.filter_eq_nil_iff]
      rintro ⟨r', tid⟩ hd heq
      obtain rfl := of_decide_eq_true heq
      exact hnot (List.of_mem_zip hd).1
    have htext := (h.text r).outputIds
    rw [hnone, Request.emit_nil] at htext
    exact htext

/-- **The blocks of a request that finishes** in a step, those it was given in that step
included, are free after it. -/
theorem StepRun.freed (h : StepRun torch src T base e e₁ b sl e') (hr : r ∈ e'.finished) {t : BlockTable}
    (ht : e₁.cache.manager.tables.lookup r = some t) : ∀ b ∈ t.blockIds, b ∈ e'.cache.manager.freeList := by
  intro b hb
  rw [h.inv.accounted.mem_free_iff, h.executed.numBlocks]
  refine ⟨h.mid.accounted.block_lt ht b hb, fun r' t' ht' hb' => ?_⟩
  rcases eq_or_ne r' r with rfl | hne
  · have hnone : e'.cache.manager.tables.lookup r' = none := by
      have hlists := h.inv.lists
      simp only [List.nodup_append, List.mem_append] at hlists
      obtain ⟨-, -, hdisj⟩ := hlists
      exact (h.inv.each r').noTable (fun hm => hdisj r' (Or.inl (Or.inr hm)) r' hr rfl)
        fun hm => hdisj r' (Or.inr hm) r' hr rfl
    rw [hnone] at ht'
    cases ht'
  · exact h.mid.disjoint r r' t t' hne.symm ht (h.executed.tables r' t' ht') b hb hb'

/-- The ids that the calls of a run returned. -/
def returned (torch : Torch R) (src : Source R G) (runner : ModelRunner X D R) :
    ContinuousBatchingEngine D R G → List (Call D R) → List ℕ
  | _, [] => []
  | e, .addRequest s :: cs =>
    match e.addRequest s with
    | (.error _, e) => returned torch src runner e cs
    | (.ok r, e) => r :: returned torch src runner e cs
  | e, .step :: cs => returned torch src runner (e.step torch src runner).2 cs

variable {numBlocks blockSize : ℕ} {subs : List (Submission D R)}

/-- **The ids returned** are the numbers from the next id on. -/
theorem After.returned (h : After T numBlocks blockSize subs e) {cs : List (Call D R)}
    (hprompt : ∀ s ∈ submissions cs, s.promptIds ≠ []) (hrun : calls torch src T.runner e cs = .ok e') :
    returned torch src T.runner e cs = List.range' e.nextId (submissions cs).length := by
  induction cs generalizing e subs with
  | nil => rfl
  | cons c cs ih =>
    rw [calls.eq_def] at hrun
    cases c with
    | addRequest s =>
      rw [submissions] at hprompt
      rcases addRequest_spec e s with ⟨msg, herr⟩ | ⟨hok, -⟩
      · simp only [herr] at hrun
        cases hrun
      · simp only [hok] at hrun
        rw [ContinuousBatchingEngine.returned, hok]
        simp only
        rw [ih (h.submit (hprompt s List.mem_cons_self) hok)
          (fun s' hs' => hprompt s' (List.mem_cons_of_mem _ hs')) hrun]
        rfl
    | step =>
      rcases hres : e.step torch src T.runner with ⟨x | ⟨⟩, e₁⟩
      · simp only [hres] at hrun
        cases hrun
      · simp only [hres] at hrun
        obtain ⟨_, _, _, hstep⟩ := h.stepRun hres (basesOf subs) fun r s hs => by rw [basesOf, hs]
        rw [ContinuousBatchingEngine.returned, hres, ih (h.step hres) hprompt hrun, hstep.nextId]
        rfl

/-- **A finished request stays as it is** in a run. -/
theorem After.finished (h : After T numBlocks blockSize subs e) {cs : List (Call D R)}
    (hprompt : ∀ s ∈ submissions cs, s.promptIds ≠ []) (hrun : calls torch src T.runner e cs = .ok e')
    (hr : r ∈ e.finished) : r ∈ e'.finished ∧ (e'.req r).outputIds = (e.req r).outputIds := by
  refine (calls_induction (P := fun subs _ e₁ => After T numBlocks blockSize subs e₁ ∧
      r ∈ e₁.finished ∧ (e₁.req r).outputIds = (e.req r).outputIds) (S := fun _ => True) subs []
    ?_ ?_ ⟨h, hr, rfl⟩ hprompt (fun _ _ _ _ _ => trivial) hrun).2
  · rintro subs - e₁ s r' e₂ ⟨hafter, hf, hout⟩ hs heq
    refine ⟨hafter.submit hs heq, ?_⟩
    rcases addRequest_spec e₁ s with ⟨msg, herr⟩ | ⟨hok, -⟩
    · rw [herr] at heq
      cases heq
    obtain rfl := (Prod.mk.inj (hok.symm.trans heq)).2
    have hlt : r < e₁.nextId := (hafter.invOf.created r).1 (by simp [hf])
    refine ⟨hf, ?_⟩
    show (Function.update e₁.req e₁.nextId _ r).outputIds = _
    rw [Function.update_of_ne hlt.ne]
    exact hout
  · rintro subs - e₁ e₂ ⟨hafter, hf, hout⟩ - heq
    obtain ⟨_, _, _, hstep⟩ := hafter.stepRun heq (basesOf subs) fun r s hs => by rw [basesOf, hs]
    obtain ⟨hf', hout'⟩ := hstep.finished hafter.invOf hf
    exact ⟨hafter.step heq, hf', hout'.trans hout⟩

end ContinuousBatchingEngine

open ContinuousBatchingEngine

variable {X D R G : Type} [Zero D] [Add X] [Field R] [LinearOrder R]

/-- **The life of a request.**  After every run that raised nothing each returned id stands as it
should and the pool is complete; a step that finishes a request frees all its blocks, and
no later call changes its output. -/
theorem lifecycle (torch : Torch R) (src : Source R G) (T : Transformer X D R) (numBlocks : ℕ)
    {blockSize : ℕ} (hbs : 1 ≤ blockSize) (maxBatchTokens : ℕ) (chunkSize : Option ℕ) (rng : G)
    (cs : List (Call D R)) (hprompt : ∀ s ∈ submissions cs, s.promptIds ≠ [])
    {e : ContinuousBatchingEngine D R G} :
    let e₀ := init T numBlocks blockSize maxBatchTokens chunkSize rng
    calls torch src T.runner e₀ cs = .ok e →
      (∀ r ∈ returned torch src T.runner e₀ cs, e.Standing r) ∧ e.PoolComplete ∧
      (∀ cs₁ cs₂ e₁ e₂ r t, cs = cs₁ ++ .step :: cs₂ → calls torch src T.runner e₀ cs₁ = .ok e₁ →
        e₁.step torch src T.runner = (.ok (), e₂) → r ∈ e₂.finished →
        e₁.schedule.2.1.cache.manager.tables.lookup r = some t →
        ∀ b ∈ t.blockIds, b ∈ e₂.cache.manager.freeList) ∧
      ∀ cs₁ cs₂ e₁, cs = cs₁ ++ cs₂ → calls torch src T.runner e₀ cs₁ = .ok e₁ →
        ∀ r ∈ e₁.finished, r ∈ e.finished ∧ (e.req r).outputIds = (e₁.req r).outputIds := by
  intro e₀ hrun
  have hinit := After.init T numBlocks hbs maxBatchTokens chunkSize rng (R := R) (G := G)
  have hafter := hinit.run hprompt hrun
  have hpart : ∀ cs₁ cs₂ e₁, cs = cs₁ ++ cs₂ → calls torch src T.runner e₀ cs₁ = .ok e₁ →
      After T numBlocks blockSize (submissions cs₁) e₁ := by
    rintro cs₁ cs₂ e₁ rfl hrun₁
    refine List.nil_append (submissions cs₁) ▸ hinit.run (fun s hs => hprompt s ?_) hrun₁
    rw [submissions_append]
    exact List.mem_append_left _ hs
  refine ⟨fun r hr => ?_, hafter.invOf.poolComplete, ?_, ?_⟩
  · rw [hinit.returned hprompt hrun, List.mem_range'_1] at hr
    have hlt : r < 0 + (submissions cs).length := hr.2
    refine hafter.invOf.standing ?_
    rw [hafter.count, List.nil_append]
    omega
  · intro cs₁ cs₂ e₁ e₂ r t hcs hrun₁ hstep hr ht
    obtain ⟨_, _, _, hrun₂⟩ := (hpart cs₁ _ e₁ hcs hrun₁).stepRun hstep (basesOf (submissions cs₁))
      fun r s hs => by rw [basesOf, hs]
    rw [hrun₂.schedule] at ht
    exact hrun₂.freed hr ht
  · rintro cs₁ cs₂ e₁ rfl hrun₁ r hr
    have hrun₂ : calls torch src T.runner e₁ cs₂ = .ok e := by
      rw [calls_append, hrun₁] at hrun
      exact hrun
    refine (hpart cs₁ cs₂ e₁ rfl hrun₁).finished (fun s hs => hprompt s ?_) hrun₂ hr
    rw [submissions_append]
    exact List.mem_append_right _ hs

/-- The hypotheses are satisfiable: after a step one request has finished on its first
token, one is running and one is in the middle of its prompt. -/
theorem lifecycle_mixed :
    let torch : Torch ℚ := ⟨id, fun _ => []⟩
    let src : Source ℚ Unit := ⟨fun g => (0, g), fun _ g => (0, g)⟩
    let e₁ := (((init sumModel 8 2 8 (some 2) () : ContinuousBatchingEngine ℤ ℚ Unit).addRequest
      ⟨[0], 1, .default, none, 0, none⟩).2.addRequest ⟨[1, 2], 4, .default, none, 0, none⟩).2
    let e := ((e₁.addRequest ⟨[0, 1, 2, 0, 1], 1, .default, none, 0, none⟩).2.step torch src
      sumModel.runner).2
    e.finished = [0] ∧ e.running = [1] ∧ e.prefilling = [2] ∧ e.Standing 0 ∧ e.Standing 2 :=
  have h := lifecycle ⟨id, fun _ => []⟩ ⟨fun g => (0, g), fun _ g => (0, g)⟩ sumModel 8
    (by decide : 1 ≤ 2) 8 (some 2) ()
    [.addRequest ⟨[0], 1, .default, none, 0, none⟩, .addRequest ⟨[1, 2], 4, .default, none, 0, none⟩,
      .addRequest ⟨[0, 1, 2, 0, 1], 1, .default, none, 0, none⟩, .step] (by simp [submissions])
    ((calls_addRequest (r := 0) (by decide +kernel) _).trans
      ((calls_addRequest (r := 1) (by decide +kernel) _).trans
        ((calls_addRequest (r := 2) (by decide +kernel) _).trans (calls_step (by decide +kernel) _))))
  ⟨by decide +kernel, by decide +kernel, by decide +kernel, h.1 0 (by decide +kernel),
    h.1 2 (by decide +kernel)⟩

end DiSpec
