/-
# A whole step in any state

`Sched/Queues.lean` follows phases 1 and 2 of `step` in any state; this module
follows phases 3 to 5 and puts them together.  Whatever a step does and however it
ends, it appends at most one token to the output of each request, only requests of
the batch get one, and no id is lost or doubled (`step_any`).  A caller that goes on
after an exception makes a run of `leave`s; every state it reaches satisfies `Queues`
(`leaves_queues`).

The runner is arbitrary here: nothing depends on what it computes.
-/

import DiSpec.Sched.Chunks

namespace DiSpec
namespace ContinuousBatchingEngine

variable {X D R G : Type} {e : ContinuousBatchingEngine D R G} {r : ℕ}

/-! ### Phase 5 -/

/-- **The loop over the drawn tokens in any state** appends the tokens `taken` to their
requests: all of them, unless it stops at a request that has no table. -/
structure Appends (e : ContinuousBatchingEngine D R G) (drawn : List (ℕ × ℕ)) (res : Except Exc (List ℕ))
    (e' : ContinuousBatchingEngine D R G) (taken : List (ℕ × ℕ)) : Prop where
  frame : e' = { e with req := e'.req }
  pre : taken <+: drawn
  text : ∀ r, SameText ((e.req r).emit (drawnFor taken r)) (e'.req r)
  others : ∀ r, r ∉ drawn.map Prod.fst → e'.req r = e.req r
  ok : ∀ fin, res = .ok fin → taken = drawn ∧ fin.Sublist (drawn.map Prod.fst)
  error : ∀ x, res = .error x → x = .KeyError

/-- One token appended, and then others. -/
theorem Appends.cons {q : Request D R} {tid : ℕ} {drawn taken : List (ℕ × ℕ)} {res res' : Except Exc (List ℕ)}
    {e' : ContinuousBatchingEngine D R G} (hq : SameText ((e.req r).emit [tid]) q)
    (h : Appends (e.setReq r q) drawn res e' taken)
    (hok : ∀ fin', res' = .ok fin' → ∃ fin, res = .ok fin ∧ (fin' = fin ∨ fin' = r :: fin))
    (herr : ∀ x, res' = .error x → res = .error x) :
    Appends e ((r, tid) :: drawn) res' e' ((r, tid) :: taken) := by
  refine ⟨h.frame, (List.prefix_cons_inj _).2 h.pre, fun r' => ?_, fun r' hr' => ?_, fun fin' hfin => ?_,
    fun x hx => h.error x (herr x hx)⟩
  · rw [drawnFor_cons]
    refine SameText.trans ?_ (h.text r')
    rcases eq_or_ne r' r with rfl | hne
    · rw [if_pos rfl, show (e.setReq r' q).req r' = q from Function.update_self _ _ _,
        ← Request.emit_emit]
      exact hq.emit _
    · rw [if_neg hne.symm, List.nil_append,
        show (e.setReq r q).req r' = e.req r' from Function.update_of_ne hne _ _]
      exact .refl _
  · rw [List.map_cons, List.mem_cons, not_or] at hr'
    rw [h.others r' hr'.2]
    exact Function.update_of_ne hr'.1 _ _
  · obtain ⟨fin, hres, hcase⟩ := hok fin' hfin
    obtain ⟨rfl, hsub⟩ := h.ok fin hres
    refine ⟨rfl, ?_⟩
    rcases hcase with rfl | rfl
    · exact hsub.cons r
    · exact hsub.cons_cons r

theorem appendOutputs_any (drawn : List (ℕ × ℕ)) (e : ContinuousBatchingEngine D R G) :
    ∃ res e' taken, e.appendOutputs drawn = (res, e') ∧ Appends e drawn res e' taken := by
  have hnil : ∀ (e : ContinuousBatchingEngine D R G) r,
      SameText ((e.req r).emit (drawnFor [] r)) (e.req r) := by
    intro e r
    rw [show drawnFor [] r = [] from rfl, Request.emit_nil]
    exact .refl _
  induction drawn generalizing e with
  | nil =>
    refine ⟨.ok [], e, [], rfl, rfl, List.nil_prefix, hnil e, fun _ _ => rfl, fun fin hfin => ?_, by simp⟩
    obtain rfl := Except.ok.inj hfin
    exact ⟨rfl, List.Sublist.refl _⟩
  | cons d drawn ih =>
    obtain ⟨r, tid⟩ := d
    rw [appendOutputs]
    cases htab : e.cache.manager.blockTable r with
    | error x =>
      set q : Request D R := { e.req r with outputIds := (e.req r).outputIds ++ [tid] } with hq
      have hkey : x = .KeyError := by
        unfold BlockManager.blockTable at htab
        split at htab
        · cases htab
        · exact (Except.error.inj htab).symm
      have hstop : Appends (e.setReq r q) drawn (.error x) (e.setReq r q) [] :=
        ⟨rfl, List.nil_prefix, hnil _, fun _ _ => rfl, by simp, fun x' hx' => by
          rw [← Except.error.inj hx', hkey]⟩
      exact ⟨.error x, e.setReq r q, [(r, tid)], rfl,
        hstop.cons ⟨rfl, rfl, rfl, rfl, rfl, rfl, rfl⟩ (by simp) fun _ h => h⟩
    | ok table =>
      simp only
      set q : Request D R := { e.req r with
        outputIds := (e.req r).outputIds ++ [tid], curLen := table.numTokens } with hq
      by_cases hdone : q.done = true
      · obtain ⟨res, e', taken, heq, hrest⟩ := ih (e.setReq r { q with state := .FINISHED })
        have htext : SameText ((e.req r).emit [tid]) { q with state := .FINISHED } :=
          ⟨rfl, rfl, rfl, rfl, rfl, rfl, rfl⟩
        rw [if_pos hdone, heq]
        cases res with
        | error x => exact ⟨_, e', _, rfl, .cons htext hrest (by simp) fun _ h => h⟩
        | ok fin =>
          exact ⟨_, e', _, rfl, .cons htext hrest
            (fun fin' h => ⟨fin, rfl, Or.inr (Except.ok.inj h).symm⟩) (by simp)⟩
      · obtain ⟨res, e', taken, heq, hrest⟩ := ih (e.setReq r q)
        have htext : SameText ((e.req r).emit [tid]) q := ⟨rfl, rfl, rfl, rfl, rfl, rfl, rfl⟩
        rw [if_neg hdone]
        exact ⟨res, e', _, heq, .cons htext hrest (fun fin' h => ⟨fin', h, Or.inl rfl⟩) fun _ h => h⟩

/-- **The loop over the finished requests in any state** moves them from one queue to the
other, up to one that is not running. -/
theorem retire_any (fin : List ℕ) (e : ContinuousBatchingEngine D R G) :
    ∃ res e' done, e.retire fin = (res, e') ∧
      e' = { e with cache := e'.cache, running := e'.running, finished := e.finished ++ done } ∧
      done <+: fin ∧ (e'.running ++ done).Perm e.running ∧ (res = .ok () → done = fin) ∧
      ∀ x, res = .error x → x.isOutOfBlocks = false := by
  induction fin generalizing e with
  | nil =>
    refine ⟨.ok (), e, [], rfl, ?_, List.nil_prefix, ?_, fun _ => rfl, by simp⟩
    · rw [List.append_nil]
    · rw [List.append_nil]
  | cons r rs ih =>
    rw [retire]
    by_cases hr : r ∈ e.running
    · rw [show remove e.running r = .ok (e.running.erase r) from if_pos hr]
      rcases hfree : e.cache.manager.free r with ⟨x | ⟨⟩, m⟩
      · refine ⟨.error x, { e.setManager m with
          running := e.running.erase r, finished := e.finished ++ [r] }, [r], ?_, rfl, ⟨rs, rfl⟩, ?_, by simp,
          fun x' hx' => ?_⟩
        · simp only [hfree]
          rfl
        · exact (List.perm_append_singleton r _).trans (List.perm_cons_erase hr).symm
        · obtain rfl := Except.error.inj hx'
          rw [BlockManager.free_raises _ _ _ (congrArg Prod.fst hfree)]
          rfl
      · obtain ⟨res, e', done, heq, hframe, hpre, hperm, hok, herr⟩ := ih { e.setManager m with
          running := e.running.erase r, finished := e.finished ++ [r] }
        refine ⟨res, e', r :: done, ?_, ?_, (List.prefix_cons_inj r).2 hpre, ?_, fun hres => by rw [hok hres],
          herr⟩
        · simp only [hfree]
          exact heq
        · rw [hframe, List.append_assoc]
          rfl
        · exact List.perm_middle.trans ((hperm.cons r).trans (List.perm_cons_erase hr).symm)
    · rw [show remove e.running r = .error (.ValueError "list.remove(x): x not in list") from if_neg hr]
      refine ⟨_, e, [], rfl, ?_, List.nil_prefix, ?_, by simp, ?_⟩
      · rw [List.append_nil]
      · rw [List.append_nil]
      · rintro x hx
        obtain rfl := Except.error.inj hx
        rfl

/-! ### Phases 3 to 5 -/

/-- What phases 3 to 5 may do in any state, having appended `taken` and retired `done`. -/
structure Delivers (e e' : ContinuousBatchingEngine D R G) (taken : List (ℕ × ℕ)) (done : List ℕ) :
    Prop where
  text : ∀ r, SameText ((e.req r).emit (drawnFor taken r)) (e'.req r)
  others : ∀ r, r ∉ e.running → e'.req r = e.req r
  waiting : e'.waiting = e.waiting
  prefilling : e'.prefilling = e.prefilling
  running : (e'.running ++ done).Perm e.running
  finished : e'.finished = e.finished ++ done
  nextId : e'.nextId = e.nextId
  maxBatchTokens : e'.maxBatchTokens = e.maxBatchTokens
  chunkSize : e'.chunkSize = e.chunkSize
  numPrefillTokens : e'.numPrefillTokens = e.numPrefillTokens
  numDecodeTokens : e'.numDecodeTokens = e.numDecodeTokens
  emitted : ∀ r ∈ done, r ∈ taken.map Prod.fst

/-- Nothing delivered. -/
theorem Delivers.none (e : ContinuousBatchingEngine D R G) (cache : PagedKVCache D) (n : ℕ) :
    Delivers e { e with cache, numSteps := n } [] [] := by
  refine ⟨fun r => ?_, fun _ _ => rfl, rfl, rfl, ?_, (List.append_nil _).symm, rfl, rfl, rfl, rfl, rfl,
    fun r hr => hr⟩
  · rw [show drawnFor [] r = [] from rfl, Request.emit_nil]
    exact .refl _
  · rw [List.append_nil]

theorem map_fst_zip_prefix (l l' : List ℕ) : (l.zip l').map Prod.fst <+: l := by
  induction l generalizing l' with
  | nil => exact List.nil_prefix
  | cons a l ih =>
    cases l' with
    | nil => exact List.nil_prefix
    | cons c l' => exact (List.prefix_cons_inj a).2 (ih l')

/-- `hidden[idx]` raises nothing but `IndexError`. -/
theorem indexRows_raises {Y : Type} (hidden : List Y) (is : List ℤ) (x : Exc)
    (h : indexRows hidden is = .error x) : x = .IndexError := by
  cases is with
  | nil => cases h
  | cons i is =>
    rw [indexRows] at h
    split at h
    · split at h
      · exact (Except.error.inj h).symm
      · cases h
    · exact (Except.error.inj h).symm

variable [Field R] [LinearOrder R]

/-- **Phases 3 to 5 in any state**, for a batch whose sampled requests run. -/
theorem execute_any (torch : Torch R) (src : Source R G) (runner : ModelRunner X D R)
    (e : ContinuousBatchingEngine D R G) {b : Batch} (hs : ∀ r ∈ sampleBatch b, r ∈ e.running) :
    ∃ res e' taken done, e.execute torch src runner b = (res, e') ∧ Delivers e e' taken done ∧
      taken.map Prod.fst <+: sampleBatch b ∧
      ∀ x, res = .error x → x.isOutOfBlocks = false ∨
        (runner.forward b.tokenIds b.positions b.writeSlots b.seqMeta e.cache).1 = .error x := by
  unfold execute
  rcases hfwd : runner.forward b.tokenIds b.positions b.writeSlots b.seqMeta e.cache with ⟨x | hidden, cache⟩
  · exact ⟨.error x, _, [], [], rfl, .none e cache e.numSteps, List.nil_prefix, fun x' hx' => Or.inr (by
      rw [Except.error.inj hx'])⟩
  simp only
  by_cases hlast : b.lastIdx = []
  · exact ⟨.ok (), _, [], [], if_pos hlast, .none e cache _, List.nil_prefix, by simp⟩
  rw [if_neg hlast]
  cases hrows : indexRows hidden b.lastIdx with
  | error x =>
    refine ⟨.error x, _, [], [], rfl, .none e cache _, List.nil_prefix, fun x' hx' => Or.inl ?_⟩
    rw [← Except.error.inj hx', indexRows_raises _ _ _ hrows]
    rfl
  | ok rows =>
    cases hbatch : sampleBatch b with
    | nil =>
      refine ⟨.error .IndexError, _, [], [], rfl, .none e cache _, List.nil_prefix, fun x' hx' => Or.inl ?_⟩
      rw [← Except.error.inj hx']
      rfl
    | cons first rest =>
      simp only
      set drawn := (sample torch (e.req first).params (runner.logits rows)).run src e.rng with hdrawn
      set e₁ : ContinuousBatchingEngine D R G :=
        { e with cache, numSteps := e.numSteps + 1, rng := drawn.2 } with he₁
      obtain ⟨res₁, e₂, taken, happ, hap⟩ := appendOutputs_any ((first :: rest).zip drawn.1) e₁
      have hframe := hap.frame
      have hfst : ((first :: rest).zip drawn.1).map Prod.fst <+: first :: rest := map_fst_zip_prefix _ _
      have hothers : ∀ r, r ∉ e.running → e₂.req r = e.req r := fun r hr =>
        hap.others r fun hm => hr (hs r (hbatch ▸ hfst.subset hm))
      rw [happ]
      cases res₁ with
      | error x =>
        refine ⟨.error x, e₂, taken, [], rfl, ⟨hap.text, hothers, ?_, ?_, ?_, ?_, ?_, ?_, ?_, ?_, ?_,
          fun r hr => absurd hr List.not_mem_nil⟩, (hap.pre.map Prod.fst).trans hfst, fun x' hx' => Or.inl ?_⟩
        · rw [hframe]
        · rw [hframe]
        · rw [hframe, List.append_nil]
        · rw [hframe, List.append_nil]
        · rw [hframe]
        · rw [hframe]
        · rw [hframe]
        · rw [hframe]
        · rw [hframe]
        · rw [← Except.error.inj hx', hap.error x rfl]
          rfl
      | ok fin =>
        obtain ⟨res, e₃, done, hret, hframe₃, hdone, hperm, -, herr⟩ := retire_any fin e₂
        obtain ⟨htaken, hfin⟩ := hap.ok fin rfl
        have hrun : e₂.running = e.running := by rw [hframe]
        have hall : e₃ = { e with
            cache := e₃.cache
            req := e₂.req
            running := e₃.running
            finished := e.finished ++ done
            numSteps := e.numSteps + 1
            rng := drawn.2 } := by
          rw [hframe₃, hframe]
        refine ⟨res, e₃, taken, done, hret, ⟨fun r => ?_, fun r hr => ?_, ?_, ?_, hrun ▸ hperm, ?_, ?_, ?_,
          ?_, ?_, ?_, fun r hr => htaken ▸ hfin.subset (hdone.subset hr)⟩,
          (hap.pre.map Prod.fst).trans hfst, fun x hx => Or.inl (herr x hx)⟩
        · rw [hall]
          exact hap.text r
        · rw [hall]
          exact hothers r hr
        · rw [hall]
        · rw [hall]
        · rw [hall]
        · rw [hall]
        · rw [hall]
        · rw [hall]
        · rw [hall]
        · rw [hall]

omit [Field R] [LinearOrder R] in
/-- The requests sampled from, in any state. -/
theorem Schedules.sampleBatch {e₁ : ContinuousBatchingEngine D R G} {b : Batch} {dec new : List Slice}
    (h : Schedules e (.ok ()) e₁ b dec new) : sampleBatch b = e.toSample := by
  rw [sampleBatch_eq h.parallel.batch (h.flags rfl), h.toSample rfl]

omit [Field R] [LinearOrder R] in
/-- They run, and there are no two of them the same. -/
theorem Schedules.toSample_running {e₁ : ContinuousBatchingEngine D R G} {b : Batch} {dec new : List Slice}
    (h : Schedules e (.ok ()) e₁ b dec new) : e.toSample.Nodup ∧ ∀ r ∈ e.toSample, r ∈ e₁.running := by
  rw [← h.toSample rfl]
  refine ⟨h.nodup.sublist (List.filter_sublist.map _), fun r hr => ?_⟩
  obtain ⟨s, hs, rfl⟩ := List.mem_map.1 hr
  obtain ⟨hs, hsam⟩ := List.mem_filter.1 hs
  rw [h.running]
  rcases List.mem_append.1 hs with hs | hs
  · exact List.mem_append_left _ (h.decodes.subset (List.mem_map_of_mem hs))
  · exact List.mem_append_right _ (List.mem_map_of_mem (List.mem_filter.2 ⟨hs, hsam⟩))

/-! ### A step -/

/-- **What a step may do in any state**, having appended `taken` and retired `done`. -/
structure Steps (e e' : ContinuousBatchingEngine D R G) (taken : List (ℕ × ℕ)) (done : List ℕ) :
    Prop where
  queues : Queues e'
  text : ∀ r, SameText ((e.req r).emit (drawnFor taken r)) (e'.req r)
  ids : e'.ids.Perm e.ids
  finished : e'.finished = e.finished ++ done
  nextId : e'.nextId = e.nextId
  maxBatchTokens : e'.maxBatchTokens = e.maxBatchTokens
  nodup : (taken.map Prod.fst).Nodup
  emits : ∀ r ∈ taken.map Prod.fst, r ∈ e'.running ∨ r ∈ done
  emitted : ∀ r ∈ done, r ∈ taken.map Prod.fst

omit [Field R] [LinearOrder R] in
/-- Phases 3 to 5 after the others. -/
theorem Moves.delivers {e₁ e' : ContinuousBatchingEngine D R G} {taken : List (ℕ × ℕ)} {done : List ℕ}
    (hm : Moves e e₁) (hq : Queues e₁) (h : Delivers e₁ e' taken done)
    (hn : (taken.map Prod.fst).Nodup) (hrun : ∀ r ∈ taken.map Prod.fst, r ∈ e₁.running) :
    Steps e e' taken done := by
  have hids : e'.ids.Perm e₁.ids := by
    unfold ContinuousBatchingEngine.ids
    rw [h.waiting, h.prefilling, h.finished, List.append_assoc, List.append_assoc _ e₁.running]
    refine List.Perm.append_left _ ?_
    refine (List.Perm.append_left _ List.perm_append_comm).trans ?_
    rw [← List.append_assoc]
    exact h.running.append_right _
  have hother : ∀ r, r ∈ e₁.waiting ∨ r ∈ e₁.prefilling → e'.req r = e₁.req r := fun r hr =>
    h.others r (hr.elim (fun hw => (not_mem_of_waiting hq.nodup hw).2.1)
      fun hp => (not_mem_of_prefilling hq.nodup hp).2.1)
  refine ⟨⟨hids.nodup_iff.2 hq.nodup, fun r hr => ?_, fun r => ?_, fun r hr => ?_, fun r hr => ?_, ?_⟩,
    fun r => ((hm.text r).emit _).trans (h.text r), hids.trans hm.ids, ?_, h.nextId.trans hm.nextId,
    h.maxBatchTokens.trans hm.maxBatchTokens, hn, fun r hr => ?_, h.emitted⟩
  · rw [h.nextId]
    exact hq.bound r (hids.mem_iff.1 hr)
  · rw [(h.text r).id]
    exact hq.id r
  · rw [h.waiting] at hr
    rw [hother r (Or.inl hr)]
    exact hq.waiting r hr
  · rw [h.prefilling] at hr
    rw [hother r (Or.inr hr)]
    exact hq.prefilling r hr
  · rw [h.chunkSize, h.maxBatchTokens]
    exact hq.chunk
  · rw [h.finished, hm.finished]
  · exact List.mem_append.1 (h.running.mem_iff.2 (hrun r hr))

/-- **A step in any state.** -/
theorem step_any (torch : Torch R) (src : Source R G) (runner : ModelRunner X D R) (h : Queues e) :
    ∃ res e' taken done, e.step torch src runner = (res, e') ∧ Steps e e' taken done := by
  obtain ⟨res, e₁, b, dec, new, heq, hs⟩ := schedule_any h
  have hstop : Steps e e₁ [] [] := hs.moves.delivers hs.queues (.none e₁ e₁.cache e₁.numSteps)
    List.nodup_nil fun _ hr => absurd hr List.not_mem_nil
  rw [step, heq]
  cases res with
  | error x => exact ⟨_, e₁, [], [], rfl, hstop⟩
  | ok =>
    by_cases hb : b.batch = []
    · exact ⟨_, e₁, [], [], if_pos hb, hstop⟩
    · obtain ⟨hnodup, hrun⟩ := hs.toSample_running
      obtain ⟨res, e', taken, done, hexec, hdel, hpre, -⟩ := execute_any torch src runner e₁ (b := b)
        fun r hr => hrun r (hs.sampleBatch ▸ hr)
      rw [hs.sampleBatch] at hpre
      exact ⟨res, e', taken, done, (if_neg hb).trans hexec, hs.moves.delivers hs.queues hdel
        (hnodup.sublist hpre.sublist) fun r hr => hrun r (hpre.subset hr)⟩

/-! ### Runs that go on after an exception -/

/-- The engine after a call, raising or not. -/
def leave (torch : Torch R) (src : Source R G) (runner : ModelRunner X D R)
    (e : ContinuousBatchingEngine D R G) : Call D R → ContinuousBatchingEngine D R G
  | .addRequest s => (e.addRequest s).2
  | .step => (e.step torch src runner).2

/-- The engine after a list of calls, each made whether or not those before it raised. -/
def leaves (torch : Torch R) (src : Source R G) (runner : ModelRunner X D R)
    (e : ContinuousBatchingEngine D R G) (cs : List (Call D R)) : ContinuousBatchingEngine D R G :=
  cs.foldl (leave torch src runner) e

omit [Field R] [LinearOrder R] in
/-- A submission, accepted or not, keeps `Queues`. -/
theorem Queues.submit (h : Queues e) (s : Submission D R) : Queues (e.addRequest s).2 := by
  rcases addRequest_spec e s with ⟨msg, herr⟩ | ⟨hok, hcovers⟩
  · rw [herr]
    exact h
  rw [hok]
  have hnew : e.nextId ∉ e.ids := fun hm => lt_irrefl _ (h.bound _ hm)
  have hne : ∀ r ∈ e.ids, r ≠ e.nextId := by
    rintro r hr rfl
    exact hnew hr
  have hperm : (e.waiting ++ [e.nextId] ++ e.prefilling ++ e.running ++ e.finished).Perm
      (e.nextId :: e.ids) :=
    ((((List.perm_append_singleton _ _).append_right _).append_right _).append_right _)
  refine ⟨hperm.nodup_iff.2 (List.nodup_cons.2 ⟨hnew, h.nodup⟩), fun r hr => ?_, fun r => ?_, fun r hr => ?_,
    fun r hr => ?_, h.chunk⟩
  · show r < e.nextId + 1
    rcases List.mem_cons.1 (hperm.mem_iff.1 hr) with rfl | hr
    · omega
    · have := h.bound r hr
      omega
  · show (Function.update e.req e.nextId _ r).id = r
    rcases eq_or_ne r e.nextId with rfl | hr
    · rw [Function.update_self]
    · rw [Function.update_of_ne hr]
      exact h.id r
  · show (Function.update e.req e.nextId _ r).state = _ ∧ (Function.update e.req e.nextId _ r).outputIds = _ ∧
      (Function.update e.req e.nextId _ r).prefillPos = _ ∧
      (prefixLen (Function.update e.req e.nextId _ r).prefixKv = 0 ∨
        prefixLen (Function.update e.req e.nextId _ r).prefixKv <
          (Function.update e.req e.nextId _ r).promptIds.length)
    rcases List.mem_append.1 hr with hr | hr
    · rw [Function.update_of_ne (hne r (by simp [ContinuousBatchingEngine.ids, hr]))]
      exact h.waiting r hr
    · obtain rfl := List.mem_singleton.1 hr
      rw [Function.update_self]
      refine ⟨rfl, rfl, rfl, ?_⟩
      cases hkv : s.prefixKv with
      | none => exact Or.inl rfl
      | some kv => exact Or.inr (hcovers kv.1 kv.2 hkv).2.2
  · show (Function.update e.req e.nextId _ r).state = _ ∧ (Function.update e.req e.nextId _ r).outputIds = _ ∧
      ((Function.update e.req e.nextId _ r).prefillPos = 0 ∨
        (Function.update e.req e.nextId _ r).prefillPos <
          (Function.update e.req e.nextId _ r).promptIds.length)
    have hr : r ∈ e.prefilling := hr
    rw [Function.update_of_ne (hne r (by simp [ContinuousBatchingEngine.ids, hr]))]
    exact h.prefilling r hr

omit [LinearOrder R] in
theorem init_queues [Zero D] (T : Transformer X D R) (numBlocks blockSize maxBatchTokens : ℕ)
    (chunkSize : Option ℕ) (rng : G) :
    Queues (init T numBlocks blockSize maxBatchTokens chunkSize rng) := by
  have hnil : ∀ {r : ℕ}, r ∉ ([] : List ℕ) := List.not_mem_nil
  refine ⟨List.nodup_nil, fun r hr => absurd hr hnil, fun r => rfl, fun r hr => absurd hr hnil,
    fun r hr => absurd hr hnil, init_chunkSize T numBlocks blockSize maxBatchTokens chunkSize rng⟩

/-- **A call, raising or not**, keeps `Queues`. -/
theorem Queues.leave (h : Queues e) (torch : Torch R) (src : Source R G) (runner : ModelRunner X D R)
    (c : Call D R) : Queues (leave torch src runner e c) := by
  cases c with
  | addRequest s => exact h.submit s
  | step =>
    obtain ⟨res, e', taken, done, heq, hsteps⟩ := step_any torch src runner h
    rw [ContinuousBatchingEngine.leave, heq]
    exact hsteps.queues

/-- **Every state that calls lead to**, raising or not, satisfies `Queues`. -/
theorem Queues.leaves (h : Queues e) (torch : Torch R) (src : Source R G) (runner : ModelRunner X D R)
    (cs : List (Call D R)) : Queues (leaves torch src runner e cs) := by
  induction cs generalizing e with
  | nil => exact h
  | cons c cs ih => exact ih (h.leave torch src runner c)

/-- The submissions that the calls of a run accepted, in order. -/
def accepted (torch : Torch R) (src : Source R G) (runner : ModelRunner X D R) :
    ContinuousBatchingEngine D R G → List (Call D R) → List (Submission D R)
  | _, [] => []
  | e, .addRequest s :: cs =>
    match e.addRequest s with
    | (.error _, e) => accepted torch src runner e cs
    | (.ok _, e) => s :: accepted torch src runner e cs
  | e, .step :: cs => accepted torch src runner (e.step torch src runner).2 cs

omit [Field R] [LinearOrder R] in
theorem Submitted.step {subs : List (Submission D R)} (h : Submitted subs e)
    {e' : ContinuousBatchingEngine D R G} {taken : List (ℕ × ℕ)} {done : List ℕ}
    (hs : Steps e e' taken done) : Submitted subs e' := by
  refine ⟨hs.nextId.trans h.count, fun r s hr => ?_⟩
  obtain ⟨h₁, h₂, h₃, h₄⟩ := h.text r s hr
  have htext := hs.text r
  exact ⟨htext.promptIds.trans h₁, htext.params.trans h₂, htext.maxNewTokens.trans h₃, htext.eosId.trans h₄⟩

/-- **The requests of a run are those it accepted**, whatever its calls raised. -/
theorem Submitted.leaves {subs : List (Submission D R)} (h : Submitted subs e) (hq : Queues e)
    (torch : Torch R) (src : Source R G) (runner : ModelRunner X D R) (cs : List (Call D R)) :
    Submitted (subs ++ accepted torch src runner e cs) (leaves torch src runner e cs) := by
  induction cs generalizing e subs with
  | nil => rwa [accepted, List.append_nil]
  | cons c cs ih =>
    have hq' := hq.leave torch src runner c
    show Submitted _ (ContinuousBatchingEngine.leaves torch src runner (leave torch src runner e c) cs)
    cases c with
    | addRequest s =>
      rw [accepted, leave] at *
      rcases hres : e.addRequest s with ⟨x | r, e₁⟩
      · rw [hres] at hq'
        rcases addRequest_spec e s with ⟨msg, herr⟩ | ⟨hok, -⟩
        · obtain rfl := (Prod.mk.inj (herr.symm.trans hres)).2
          exact ih h hq'
        · rw [hok] at hres
          cases hres
      · rw [hres] at hq'
        rw [List.append_cons]
        exact ih (h.submit hres).1 hq'
    | step =>
      obtain ⟨res, e', taken, done, heq, hsteps⟩ := step_any torch src runner hq
      rw [accepted, leave] at *
      rw [heq] at hq' ⊢
      exact ih (h.step hsteps) hq'

end ContinuousBatchingEngine
end DiSpec
