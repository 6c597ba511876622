/-
# The token budget

The module docstring of `dispec/sched/scheduler.py`: the budget bounds the tokens of a forward.

Both phases of `schedule` take from the budget what they put into the batch (`Spends`, for the second),
so no batch is larger than the budget.  Phase 1 comes first and takes one token of each running request,
and a request starts to run only with a chunk of its prompt, which is not empty.  So never more requests
run than the budget has tokens (`Budgeted`), and the budget never keeps a running request waiting: every
step that returns gives each of them one token (`Budgeted.step`), from its first token to its last.

All of it holds after exceptions too.
-/

import DiSpec.Sched.Prefilled
import DiSpec.Sched.Progress

namespace DiSpec

open Slice

/-- Decode tokens are one each. -/
theorem total_decodes {dec : List Slice} (h : ∀ s ∈ dec, s.len = 1 ∧ s.sampled = true) :
    total dec = dec.length := by
  rw [total, List.map_congr_left fun s hs => (h s hs).1]
  simp

/-- Slices that are not empty are no more than their tokens. -/
theorem length_le_total {sl : List Slice} (h : ∀ s ∈ sl, 1 ≤ s.len) : sl.length ≤ total sl := by
  rw [total, ← List.length_map Slice.len]
  refine List.length_le_sum_of_one_le _ fun n hn => ?_
  obtain ⟨s, hs, rfl⟩ := List.mem_map.1 hn
  exact h s hs

/-- A batch has one row for each token. -/
theorem length_owners (sl : List Slice) :
    (sl.flatMap fun s => List.replicate s.len s.req).length = total sl := by
  rw [List.length_flatMap, total]
  simp

theorem total_append (sl sl' : List Slice) : total (sl ++ sl') = total sl + total sl' := by
  rw [total, total, total, List.map_append, List.sum_append]

namespace ContinuousBatchingEngine

variable {X D R G : Type} {e e' : ContinuousBatchingEngine D R G} {b b' : Batch} {r : ℕ}

/-! ### What the loops spend -/

/-- What goes into the batch is taken from the budget, and no entry is longer than `n`. -/
structure Spends (n : ℕ) (b b' : Batch) : Prop where
  budget : b'.cursor + b'.budget = b.cursor + b.budget
  entries : ∃ l, b'.seqMeta = b.seqMeta ++ l ∧ ∀ m ∈ l, m.qLen ≤ n

theorem Spends.refl (n : ℕ) (b : Batch) : Spends n b b :=
  ⟨rfl, [], (List.append_nil _).symm, by simp⟩

theorem Spends.trans {n : ℕ} {b₁ b₂ b₃ : Batch} (h : Spends n b₁ b₂) (h' : Spends n b₂ b₃) :
    Spends n b₁ b₃ := by
  obtain ⟨l, hl, hle⟩ := h.entries
  obtain ⟨l', hl', hle'⟩ := h'.entries
  refine ⟨h'.budget.trans h.budget, l ++ l', ?_, fun m hm => ?_⟩
  · rw [hl', hl, List.append_assoc]
  · rcases List.mem_append.1 hm with hm | hm
    · exact hle m hm
    · exact hle' m hm

/-- One more entry. -/
theorem Spends.one {n : ℕ} {m : SeqMeta} (hmeta : b'.seqMeta = b.seqMeta ++ [m]) (hm : m.qLen ≤ n)
    (hbudget : b'.cursor + b'.budget = b.cursor + b.budget) : Spends n b b' :=
  ⟨hbudget, [m], hmeta, fun m' hm' => by rwa [List.mem_singleton.1 hm']⟩

/-- An import puts nothing into the batch. -/
theorem importPrefix_spends (e : ContinuousBatchingEngine D R G) (b : Batch) (r : ℕ) (t : BlockTable) :
    Spends e.chunkSize b (e.importPrefix b r t).2.2 ∧ (e.importPrefix b r t).2.1.chunkSize = e.chunkSize := by
  unfold importPrefix
  split
  · exact ⟨.refl _ b, rfl⟩
  · split
    · exact ⟨.refl _ b, rfl⟩
    · exact ⟨⟨rfl, [], (List.append_nil _).symm, by simp⟩, rfl⟩

theorem admitRequest_spends (e : ContinuousBatchingEngine D R G) (b : Batch) (r : ℕ) :
    Spends e.chunkSize b (e.admitRequest b r).2.2 ∧ (e.admitRequest b r).2.1.chunkSize = e.chunkSize := by
  unfold admitRequest
  split
  · exact ⟨.refl _ b, rfl⟩
  · split
    · split
      · exact ⟨.refl _ b, rfl⟩
      · exact ⟨.refl _ b, rfl⟩
    next table m halloc =>
      have himp := importPrefix_spends (e.setManager (m.setTable r { table with numTokens := 0 })) b r
        { table with numTokens := 0 }
      dsimp only
      split
      next heq =>
        rw [heq] at himp
        exact himp
      next heq =>
        rw [heq] at himp
        split
        · exact himp
        · exact himp

theorem prefillChunk_spends (e : ContinuousBatchingEngine D R G) (b : Batch) (r : ℕ) :
    Spends e.chunkSize b (e.prefillChunk b r).2.2 ∧ (e.prefillChunk b r).2.1.chunkSize = e.chunkSize := by
  unfold prefillChunk
  split
  · exact ⟨.refl _ b, rfl⟩
  · dsimp only
    split
    · exact ⟨.refl _ b, rfl⟩
    · set n := min (min ((e.req r).promptIds.length - (e.req r).prefillPos) e.chunkSize) b.budget with hn
      have hbudget : b.cursor + n + (b.budget - n) = b.cursor + b.budget := by omega
      have hchunk : n ≤ e.chunkSize := by omega
      split
      · split
        · exact ⟨.one rfl hchunk hbudget, rfl⟩
        · exact ⟨.one rfl hchunk hbudget, rfl⟩
      · exact ⟨.one rfl hchunk hbudget, rfl⟩

theorem prefillLoop_spends (rs : List ℕ) (e : ContinuousBatchingEngine D R G) (b : Batch) :
    Spends e.chunkSize b (e.prefillLoop b rs).2.2 := by
  have hloop : Spends e.chunkSize b (e.prefillLoop b rs).2.2 ∧
      (e.prefillLoop b rs).2.1.chunkSize = e.chunkSize := by
    refine prefillLoop_keeps (P := fun e' b' => Spends e.chunkSize b b' ∧ e'.chunkSize = e.chunkSize)
      (fun e' b' r h => ?_) (fun e' b' r h => ?_) rs ⟨.refl _ b, rfl⟩
    · obtain ⟨hadm, hsize⟩ := admitRequest_spends e' b' r
      rw [h.2] at hadm hsize
      exact ⟨h.1.trans hadm, hsize⟩
    · obtain ⟨hchunk, hsize⟩ := prefillChunk_spends e' b' r
      rw [h.2] at hchunk hsize
      exact ⟨h.1.trans hchunk, hsize⟩
  exact hloop.1

/-! ### One step -/

/-- **What keeps the budget from starving anyone**: no more requests run than it has tokens. -/
structure Budgeted (B C : ℕ) (e : ContinuousBatchingEngine D R G) : Prop where
  queues : Queues e
  maxBatchTokens : e.maxBatchTokens = B
  chunkSize : e.chunkSize = C
  running : e.running.length ≤ B

variable {B C : ℕ}

/-- **The batch of a step**, raising or not: it fits the budget, no prompt gets more than a chunk, and
what runs afterwards still fits; phase 1 reaches every running request unless it raises. -/
theorem Budgeted.schedule (h : Budgeted B C e) :
    ∃ res e₁ b dec new, e.schedule = (res, e₁, b) ∧ Schedules e res e₁ b dec new ∧
      total (dec ++ new) ≤ B ∧ (∀ s ∈ new, s.len ≤ C) ∧
      e₁.running.length ≤ B ∧ (res = .ok () → dec.map Slice.req = e.running) := by
  rcases schedule_phases h.queues with ⟨x, e₁, b, dec, heq, hdec⟩ |
    ⟨res, e₂, b₂, e', b', dec, new, heq, hbt, hloop, hnew⟩
  · have hs := hdec.schedules h.queues
    refine ⟨.error x, e₁, b, dec, [], heq, hs, ?_, by simp, ?_, by simp⟩
    · have hbudget := hdec.budget
      have hlen : total dec = dec.length := total_decodes hs.one
      rw [List.append_nil, hlen, ← h.maxBatchTokens]
      have : e.emptyBatch.budget = e.maxBatchTokens := rfl
      omega
    · rw [hs.running, List.filter_nil, List.map_nil, List.append_nil]
      exact h.running
  · have hs := hbt.schedules h.queues hnew
    have hspends := prefillLoop_spends (e₂.prefilling ++ e₂.waiting) e₂ b₂
    rw [hloop] at hspends
    obtain ⟨hbudget, l, hl, hle⟩ := hspends
    have hall : dec.map Slice.req = e.running := by
      rw [hbt.reqs]
      exact List.take_of_length_le (h.running.trans_eq h.maxBatchTokens.symm)
    have hdec : total dec = dec.length := total_decodes hbt.one
    have hcursor := hs.parallel.cursor
    have hcursor₂ := hbt.parallel.cursor
    have hbudget₂ := hbt.budget
    have hmax := h.maxBatchTokens
    have hbudget : b'.cursor + b'.budget = b₂.cursor + b₂.budget := hbudget
    have htotal : total (dec ++ new) ≤ B := by omega
    refine ⟨res, e', b', dec, new, heq, hs, htotal, fun s hs' => ?_, ?_, fun _ => hall⟩
    · have hwidths := hs.parallel.widths
      rw [show b'.seqMeta = b₂.seqMeta ++ l from hl, List.map_append, List.map_append, hbt.parallel.widths]
        at hwidths
      have hmem : s.len ∈ l.map SeqMeta.qLen := by
        rw [List.append_cancel_left hwidths]
        exact List.mem_map_of_mem hs'
      obtain ⟨m, hm, hlen⟩ := List.mem_map.1 hmem
      rw [← hlen, ← h.chunkSize, ← hbt.moves.chunkSize]
      exact hle m hm
    · have hnewlen : new.length ≤ total new := length_le_total hs.positive
      have hrun : dec.length = e.running.length := by
        rw [← hall, List.length_map]
      have hfilter := List.length_filter_le (fun s : Slice => s.sampled) new
      rw [hs.running, List.length_append, List.length_map]
      rw [total_append] at htotal
      omega

section

variable [Zero D] [Add X] [Field R] [LinearOrder R] {torch : Torch R} {src : Source R G}
  {T : Transformer X D R}

/-- **Phases 3 to 5, when they return**, have given one token to each sampled request. -/
theorem execute_gives {e₁ : ContinuousBatchingEngine D R G} {b : Batch}
    (hlen : b.lastIdx.length = (sampleBatch b).length) (hn : (sampleBatch b).Nodup)
    (hrun : e₁.execute torch src T.runner b = (.ok (), e')) :
    ∀ r ∈ sampleBatch b, ∃ t, (e'.req r).outputIds = (e₁.req r).outputIds ++ [t] := by
  unfold execute at hrun
  rcases hfwd : T.runner.forward b.tokenIds b.positions b.writeSlots b.seqMeta e₁.cache with
    ⟨x | hidden, cache⟩
  · rw [hfwd] at hrun
    cases hrun
  simp only [hfwd] at hrun
  by_cases hlast : b.lastIdx = []
  · rw [hlast, List.length_nil] at hlen
    rw [List.length_eq_zero_iff.1 hlen.symm]
    simp
  rw [if_neg hlast] at hrun
  cases hrows : indexRows hidden b.lastIdx with
  | error x =>
    rw [hrows] at hrun
    cases hrun
  | ok rows =>
    cases hbatch : sampleBatch b with
    | nil => simp
    | cons first rest =>
      simp only [hrows, hbatch] at hrun
      set toks := (sample torch (e₁.req first).params (T.runner.logits rows)).run src e₁.rng with htoks
      set e₂ : ContinuousBatchingEngine D R G :=
        { e₁ with cache, numSteps := e₁.numSteps + 1, rng := toks.2 } with he₂
      have hcount : toks.1.length = (first :: rest).length := by
        rw [htoks, sample_eq, RandM.length_run_sequence, List.length_map, ← hbatch, ← hlen]
        exact (List.length_map _).trans (length_indexRows hidden _ hrows)
      have hfst : ((first :: rest).zip toks.1).map Prod.fst = first :: rest := List.map_fst_zip hcount.ge
      obtain ⟨res, e₃, taken, happ, hap⟩ := appendOutputs_any ((first :: rest).zip toks.1) e₂
      rw [happ] at hrun
      cases res with
      | error x => cases hrun
      | ok fin =>
        obtain ⟨htaken, -⟩ := hap.ok fin rfl
        obtain ⟨res, e₄, done, hret, hframe, -⟩ := retire_any fin e₃
        have heq : (res, e₄) = (.ok (), e') := hret.symm.trans hrun
        obtain ⟨-, rfl⟩ := Prod.mk.inj heq
        intro r hr
        have hone : (drawnFor taken r).length = 1 := by
          rw [htaken]
          exact length_drawnFor (by rwa [hfst, ← hbatch]) (by rwa [hfst])
        obtain ⟨t, ht⟩ := List.length_eq_one_iff.1 hone
        refine ⟨t, ?_⟩
        rw [hframe, (hap.text r).outputIds, Request.emit, ht]

/-- **One step.**  Raising or not it keeps the bound, and a request that ran runs or is finished; if it
returns, it has given one token to each request that ran, and a request to which it gave a token
runs or is finished. -/
theorem Budgeted.step (h : Budgeted B C e) (torch : Torch R) (src : Source R G)
    (T : Transformer X D R) :
    Budgeted B C (e.step torch src T.runner).2 ∧
    (∀ r, r ∈ e.running ∨ r ∈ e.finished →
      r ∈ (e.step torch src T.runner).2.running ∨ r ∈ (e.step torch src T.runner).2.finished) ∧
    ((e.step torch src T.runner).1 = .ok () → ∀ r ∈ e.running,
      ∃ t, ((e.step torch src T.runner).2.req r).outputIds = (e.req r).outputIds ++ [t]) := by
  obtain ⟨res, e₁, b, dec, new, heq, hs, -, -, hrun₁, hall⟩ := h.schedule
  -- what phases 3 to 5 deliver
  obtain ⟨res', e', taken, done, hstep, hd, hgive⟩ : ∃ res' e' taken done,
      e.step torch src T.runner = (res', e') ∧ Delivers e₁ e' taken done ∧
      (res' = .ok () → ∀ r ∈ e.running, ∃ t, (e'.req r).outputIds = (e₁.req r).outputIds ++ [t]) := by
    rw [ContinuousBatchingEngine.step, heq]
    cases res with
    | error x => exact ⟨_, e₁, [], [], rfl, .none e₁ e₁.cache e₁.numSteps, by simp⟩
    | ok =>
      have hin : ∀ r ∈ e.running, r ∈ ContinuousBatchingEngine.sampleBatch b := fun r hr => by
        rw [hs.sampleBatch, ← hs.toSample rfl]
        rw [← hall rfl] at hr
        obtain ⟨s, hdec, rfl⟩ := List.mem_map.1 hr
        exact List.mem_map_of_mem (List.mem_filter.2 ⟨List.mem_append_left _ hdec, (hs.one s hdec).2⟩)
      obtain ⟨hnodup, hrunning⟩ := hs.toSample_running
      rw [← hs.sampleBatch] at hnodup hrunning
      by_cases hb : b.batch = []
      · refine ⟨_, e₁, [], [], if_pos hb, .none e₁ e₁.cache e₁.numSteps, fun _ r hr => ?_⟩
        have hnil : ContinuousBatchingEngine.sampleBatch b = [] := by
          rw [ContinuousBatchingEngine.sampleBatch, hb]
          rfl
        exact absurd (hnil ▸ hin r hr) List.not_mem_nil
      · obtain ⟨res', e', taken, done, hexec, hd, -, -⟩ := execute_any torch src T.runner e₁ hrunning
        refine ⟨res', e', taken, done, (if_neg hb).trans hexec, hd, fun hok r hr => ?_⟩
        rw [hok] at hexec
        exact execute_gives hs.length_lastIdx hnodup hexec r (hin r hr)
  have hqueues : Queues e' := by
    obtain ⟨res₂, e₂, taken₂, done₂, heq₂, hsteps⟩ := step_any torch src T.runner h.queues
    obtain ⟨-, rfl⟩ := Prod.mk.inj (hstep.symm.trans heq₂)
    exact hsteps.queues
  rw [hstep]
  refine ⟨⟨hqueues, hd.maxBatchTokens.trans (hs.moves.maxBatchTokens.trans h.maxBatchTokens),
    hd.chunkSize.trans (hs.moves.chunkSize.trans h.chunkSize), ?_⟩, fun r hr => ?_, fun hok r hr => ?_⟩
  · have hlen := hd.running.length_eq
    rw [List.length_append] at hlen
    show e'.running.length ≤ B
    omega
  · show r ∈ e'.running ∨ r ∈ e'.finished
    rw [hd.finished, hs.moves.finished, List.mem_append]
    rcases hr with hr | hr
    · exact (List.mem_append.1 (hd.running.mem_iff.2 (hs.moves.running r hr))).imp_right Or.inr
    · exact Or.inr (Or.inl hr)
  · obtain ⟨t, ht⟩ := hgive hok r hr
    exact ⟨t, by rw [ht, (hs.moves.text r).outputIds]⟩

/-- What a step, raising or not, may give to a request: one token at most, to one that runs or is finished
then, and none to one that was finished before. -/
theorem step_tokens (h : Queues e) (torch : Torch R) (src : Source R G) (T : Transformer X D R) (r : ℕ) :
    ∃ n ≤ 1, ((e.step torch src T.runner).2.req r).outputIds.length = (e.req r).outputIds.length + n ∧
      (n = 1 → r ∈ (e.step torch src T.runner).2.running ∨ r ∈ (e.step torch src T.runner).2.finished) ∧
      (r ∈ e.finished → n = 0 ∧ r ∈ (e.step torch src T.runner).2.finished) := by
  obtain ⟨res, e', taken, done, heq, hs⟩ := step_any torch src T.runner h
  rw [heq]
  by_cases hr : r ∈ taken.map Prod.fst
  · obtain ⟨t, ht⟩ := hs.drawn hr
    refine ⟨1, le_rfl, by rw [ht, List.length_append, List.length_singleton], fun _ => ?_, fun hf => ?_⟩
    · rw [hs.finished]
      exact (hs.emits r hr).imp_right fun hd => List.mem_append_right _ hd
    · exact absurd hr (hs.apart.2 r hf).2
  · refine ⟨0, Nat.zero_le 1, by rw [hs.undrawn hr, Nat.add_zero], by simp, fun hf => ⟨rfl, ?_⟩⟩
    rw [hs.finished]
    exact List.mem_append_left _ hf

/-! ### Runs -/

/-- How many tokens request `r` gets in each step of a run that returns. -/
def tokensPerStep (torch : Torch R) (src : Source R G) (runner : ModelRunner X D R) :
    ContinuousBatchingEngine D R G → List (Call D R) → ℕ → List ℕ
  | _, [], _ => []
  | e, .addRequest s :: cs, r => tokensPerStep torch src runner (e.addRequest s).2 cs r
  | e, .step :: cs, r =>
    match e.step torch src runner with
    | (.error _, e') => tokensPerStep torch src runner e' cs r
    | (.ok (), e') =>
      ((e'.req r).outputIds.length - (e.req r).outputIds.length) :: tokensPerStep torch src runner e' cs r

omit [Zero D] [Add X] [Field R] [LinearOrder R] in
theorem Budgeted.submit (h : Budgeted B C e) (s : Submission D R) :
    Budgeted B C (e.addRequest s).2 ∧ (e.addRequest s).2.running = e.running ∧
      (e.addRequest s).2.finished = e.finished := by
  have hq := h.queues.submit s
  rcases addRequest_spec e s with ⟨msg, herr⟩ | ⟨hok, -⟩
  · rw [herr]
    exact ⟨h, rfl, rfl⟩
  rw [hok] at hq ⊢
  exact ⟨⟨hq, h.maxBatchTokens, h.chunkSize, h.running⟩, rfl, rfl⟩

omit [Add X] [LinearOrder R] in
theorem Budgeted.init (T : Transformer X D R) (numBlocks blockSize B : ℕ) (chunkSize : Option ℕ) (rng : G) :
    Budgeted B (ContinuousBatchingEngine.init T numBlocks blockSize B chunkSize rng).chunkSize
      (ContinuousBatchingEngine.init T numBlocks blockSize B chunkSize rng) :=
  ⟨init_queues T numBlocks blockSize B chunkSize rng, rfl, rfl, Nat.zero_le B⟩

/-- **A run**, whatever its calls raise: the bound holds after it, and a request gets a token in every step
that returns between the first that gives it one and the last. -/
theorem Budgeted.leaves (h : Budgeted B C e) (torch : Torch R) (src : Source R G) (T : Transformer X D R)
    (cs : List (Call D R)) (r : ℕ) :
    Budgeted B C (leaves torch src T.runner e cs) ∧
    ∃ before during after, tokensPerStep torch src T.runner e cs r =
        List.replicate before 0 ++ (List.replicate during 1 ++ List.replicate after 0) ∧
      (r ∈ e.running → before = 0) ∧ (r ∈ e.finished → before = 0 ∧ during = 0) := by
  induction cs generalizing e with
  | nil => exact ⟨h, 0, 0, 0, rfl, fun _ => rfl, fun _ => ⟨rfl, rfl⟩⟩
  | cons c cs ih =>
    show Budgeted B C
      (ContinuousBatchingEngine.leaves torch src T.runner (leave torch src T.runner e c) cs) ∧ _
    cases c with
    | addRequest s =>
      rw [leave, tokensPerStep]
      obtain ⟨h₁, hrun, hfin⟩ := h.submit s
      rw [← hrun, ← hfin]
      exact ih h₁
    | step =>
      rw [leave, tokensPerStep]
      obtain ⟨h₁, hkeep, hgive⟩ := h.step torch src T
      obtain ⟨n, hn, hlen, hgot, hold⟩ := step_tokens h.queues torch src T r
      obtain ⟨hb, before, during, after, heq, hrun, hfin⟩ := ih h₁
      refine ⟨hb, ?_⟩
      rcases hres : e.step torch src T.runner with ⟨x | ⟨⟩, e₁⟩
      all_goals rw [hres] at hkeep hgive hlen hgot hold heq hrun hfin
      · -- a step that raises gives no number
        refine ⟨before, during, after, heq, fun hr => ?_, fun hr => hfin (hold hr).2⟩
        exact (hkeep r (Or.inl hr)).elim hrun fun hf => (hfin hf).1
      · simp only
        rw [heq, show (e₁.req r).outputIds.length - (e.req r).outputIds.length = n by
          have : (e₁.req r).outputIds.length = (e.req r).outputIds.length + n := hlen
          omega]
        rcases Nat.le_one_iff_eq_zero_or_eq_one.1 hn with rfl | rfl
        · by_cases hf : r ∈ e.finished
          · obtain ⟨rfl, rfl⟩ := hfin (hold hf).2
            exact ⟨0, 0, after + 1, rfl, fun _ => rfl, fun _ => ⟨rfl, rfl⟩⟩
          · refine ⟨before + 1, during, after, rfl, fun hr => ?_, fun hr => absurd hr hf⟩
            obtain ⟨t, ht⟩ := hgive rfl r hr
            have hone := congrArg List.length ht
            rw [List.length_append, List.length_singleton] at hone
            have : (e₁.req r).outputIds.length = (e.req r).outputIds.length + 0 := hlen
            omega
        · have hzero : before = 0 := (hgot rfl).elim hrun fun hf => (hfin hf).1
          subst hzero
          refine ⟨0, during + 1, after, rfl, fun _ => rfl, fun hr => ?_⟩
          exact absurd (hold hr).1 Nat.one_ne_zero

end

end ContinuousBatchingEngine

open ContinuousBatchingEngine

variable {X D R G : Type} [Zero D] [Add X] [Field R] [LinearOrder R]

/-- **The token budget holds and never starves decode.**  In every state that calls lead to, raising or
not: no more requests run than the budget `B` has tokens; the next batch, which `forward` gets if `schedule`
returns, has at most `B` tokens, one of each request that runs and at most `chunk_size` of any
other; and if the step returns, each request that ran got one token.  So the steps that return give a
request its tokens one after the other, with no gap between the first and the last. -/
theorem token_budget (torch : Torch R) (src : Source R G) (T : Transformer X D R) (numBlocks blockSize : ℕ)
    (B : ℕ) (chunkSize : Option ℕ) (rng : G) (cs : List (Call D R)) :
    let e₀ := init T numBlocks blockSize B chunkSize rng
    let e := leaves torch src T.runner e₀ cs
    e.running.length ≤ B ∧
    (∀ e₁ b, e.schedule = (.ok (), e₁, b) →
      b.tokenIds.length ≤ B ∧ b.owners.length = b.tokenIds.length ∧
      (∀ r ∈ e.running, b.owners.count r = 1) ∧ ∀ r ∉ e.running, b.owners.count r ≤ e₀.chunkSize) ∧
    (∀ e', e.step torch src T.runner = (.ok (), e') →
      ∀ r ∈ e.running, ∃ t, (e'.req r).outputIds = (e.req r).outputIds ++ [t]) ∧
    ∀ r, ∃ before during after, tokensPerStep torch src T.runner e₀ cs r =
      List.replicate before 0 ++ (List.replicate during 1 ++ List.replicate after 0) := by
  intro e₀ e
  have h₀ : Budgeted B e₀.chunkSize e₀ := Budgeted.init T numBlocks blockSize B chunkSize rng
  have h : Budgeted B e₀.chunkSize e := (h₀.leaves torch src T cs 0).1
  refine ⟨h.running, fun e₁ b heq => ?_, fun e' hstep => ?_, fun r => ?_⟩
  · obtain ⟨res, e₂, b₂, dec, new, heq₂, hs, htotal, hchunk, -, hall⟩ := h.schedule
    obtain ⟨rfl, h₁⟩ := Prod.mk.inj (heq.symm.trans heq₂)
    obtain ⟨rfl, rfl⟩ := Prod.mk.inj h₁
    refine ⟨hs.parallel.tokenIds.trans_le htotal, ?_, fun r hr => ?_, fun r hr => ?_⟩
    · rw [hs.parallel.owners, hs.parallel.tokenIds, length_owners]
    · rw [← hall rfl] at hr
      obtain ⟨s, hdec, rfl⟩ := List.mem_map.1 hr
      rw [hs.parallel.owners, count_owners,
        sum_len_of_nodup hs.nodup (List.mem_append_left _ hdec)]
      exact (hs.one s hdec).1
    · rw [hs.parallel.owners, count_owners]
      by_cases hin : r ∈ (dec ++ new).map Slice.req
      · obtain ⟨s, hs', rfl⟩ := List.mem_map.1 hin
        rw [sum_len_of_nodup hs.nodup hs']
        rcases List.mem_append.1 hs' with hdec | hnew
        · exact absurd (hs.decodes.subset (List.mem_map_of_mem hdec)) hr
        · exact hchunk s hnew
      · rw [sum_len_of_notMem hin]
        exact Nat.zero_le _
  · have hgive := (h.step torch src T).2.2
    rw [hstep] at hgive
    exact hgive rfl
  · obtain ⟨-, before, during, after, heq, -⟩ := h₀.leaves torch src T cs r
    exact ⟨before, during, after, heq⟩

/-- The hypotheses are satisfiable: a budget of two, spent on a short request and on one prompt token at a
time of a long one. -/
theorem token_budget_two :
    let torch : Torch ℚ := ⟨id, fun _ => []⟩
    let src : Source ℚ Unit := ⟨fun g => (0, g), fun _ g => (0, g)⟩
    let e₀ : ContinuousBatchingEngine ℤ ℚ Unit := init sumModel 8 2 2 (some 1) ()
    let cs : List (Call ℤ ℚ) := [.addRequest ⟨[0, 1, 2], 2, .default, none, 0, none⟩,
      .addRequest ⟨[1], 4, .default, none, 0, none⟩, .step, .step, .step]
    let e := leaves torch src sumModel.runner e₀ cs
    e.running = [1, 0] ∧ tokensPerStep torch src sumModel.runner e₀ cs 0 = [0, 0, 1] ∧
      ∀ e₁ b, e.schedule = (.ok (), e₁, b) → b.tokenIds.length ≤ 2 ∧ ∀ r ∈ [1, 0], b.owners.count r = 1 := by
  intro torch src e₀ cs e
  have hrun : e.running = [1, 0] := by decide +kernel
  have h := token_budget torch src sumModel 8 2 2 (some 1) () cs
  refine ⟨hrun, by decide +kernel, fun e₁ b heq => ?_⟩
  obtain ⟨hlen, -, hone, -⟩ := h.2.1 e₁ b heq
  exact ⟨hlen, fun r hr => hone r (hrun.symm ▸ hr)⟩

end DiSpec
