/-
# Admission in the order of priority

`step` sorts the waiting queue by `(-priority, id)` and then walks a snapshot of the prefilling and the
waiting requests, in which both queues are changed.  The walk serves a prefix of the snapshot
(`prefillLoop_line`): every prefilling request is offered its chunk before the first waiting one is admitted,
and who is admitted is a prefix of the sorted queue (`schedule_line`).  A request that stands before another
therefore leaves the queue no later, in every run (`leaves_before`).
-/

import DiSpec.Sched.HeadOfLine

namespace DiSpec

open Slice

/-- The requests of a batch, each with the tokens it has in it. -/
def Batch.chunks (b : Batch) : List (ℕ × ℕ) := b.batch.zip (b.seqMeta.map SeqMeta.qLen)

theorem Parallel.chunks {b : Batch} {sl : List Slice} (h : Parallel b sl) :
    b.chunks = sl.map fun s => (s.req, s.len) := by
  rw [Batch.chunks, h.batch, h.widths, List.zip_map']

namespace ContinuousBatchingEngine

variable {X D R G : Type} {e e' : ContinuousBatchingEngine D R G} {b b' : Batch} {r r' : ℕ} {rs : List ℕ}

/-- `r` stands before `r'` in the order of admission: it has the higher priority, or the same and came
first. -/
def Before (e : ContinuousBatchingEngine D R G) (r r' : ℕ) : Prop :=
  (e.req r').priority < (e.req r).priority ∨
    (e.req r').priority = (e.req r).priority ∧ (e.req r).id < (e.req r').id

/-- The chunks that requests are offered one after the other, each out of what is left of the budget. -/
def offered (e : ContinuousBatchingEngine D R G) : ℕ → List ℕ → List (ℕ × ℕ)
  | _, [] => []
  | budget, r :: rs =>
    let chunk := min (min ((e.req r).promptIds.length - resumeAt (e.req r)) e.chunkSize) budget
    (r, chunk) :: e.offered (budget - chunk) rs

theorem offered_congr (hreq : ∀ r ∈ rs, e'.req r = e.req r) (hchunk : e'.chunkSize = e.chunkSize)
    (budget : ℕ) : e'.offered budget rs = e.offered budget rs := by
  induction rs generalizing budget with
  | nil => rfl
  | cons r rs ih =>
    rw [offered, offered, hreq r List.mem_cons_self, hchunk]
    exact congrArg _ (ih (fun r' hr' => hreq r' (List.mem_cons_of_mem _ hr')) _)

/-- What the first requests are offered does not depend on those behind them. -/
theorem offered_append (e : ContinuousBatchingEngine D R G) (budget : ℕ) (rs rs' : List ℕ) :
    ∃ rest, e.offered budget (rs ++ rs') = e.offered budget rs ++ rest ∧ rest.map Prod.fst = rs' := by
  induction rs generalizing budget with
  | nil =>
    refine ⟨e.offered budget rs', rfl, ?_⟩
    induction rs' generalizing budget with
    | nil => rfl
    | cons r rs' ih => rw [offered, List.map_cons, ih]
  | cons r rs ih =>
    obtain ⟨rest, heq, hrest⟩ := ih (budget -
      min (min ((e.req r).promptIds.length - resumeAt (e.req r)) e.chunkSize) budget)
    exact ⟨rest, congrArg _ heq, hrest⟩

/-! ### The walk of phase 2 -/

/-- A request that got its chunk does not wait. -/
theorem Chunk.not_waiting {s : Slice} (h : Chunk e e' b b' s) (hq : Queues e') : s.req ∉ e'.waiting := by
  intro hw
  have hpos := (hq.waiting s.req hw).2.2.1
  rw [h.prefillPos] at hpos
  have hone := h.positive
  omega

/-- **What the walk did**: `served` are the requests whose turn took them out of the waiting queue or gave
them a chunk, `given` those that got one. -/
structure Line (e : ContinuousBatchingEngine D R G) (b : Batch) (rs : List ℕ)
    (e' : ContinuousBatchingEngine D R G) (b' : Batch) (served given : List ℕ) : Prop where
  first : served <+: rs
  all : served = given ∨ ∃ r, served = given ++ [r]
  waiting : ∀ r, r ∈ e'.waiting ↔ r ∈ e.waiting ∧ r ∉ served
  chunks : ∃ new : List Slice, new.map (fun s => (s.req, s.len)) = e.offered b.budget given ∧
    ∀ sl, Parallel b sl → Parallel b' (sl ++ new)

/-- The walk stops at once. -/
theorem Line.stop (e : ContinuousBatchingEngine D R G) (b : Batch) (rs : List ℕ) : Line e b rs e b [] [] :=
  ⟨List.nil_prefix, Or.inl rfl, fun r => by simp, [], rfl, fun sl hsl => by rwa [List.append_nil]⟩

/-- The walk stops in the turn of `r`. -/
theorem Line.turn (h : Turn e e' r) (hshrink : ∀ r' ∈ e'.waiting, r' ∈ e.waiting) (l : List (ℕ × ℕ × ℕ))
    (rs : List ℕ) : ∃ served, Line e b (r :: rs) e' { b with imports := b.imports ++ l } served [] := by
  have hpar : ∀ sl, Parallel b sl → Parallel { b with imports := b.imports ++ l } (sl ++ []) := by
    intro sl hsl
    rw [List.append_nil]
    exact ⟨hsl.batch, hsl.widths, hsl.tokenIds, hsl.cursor, hsl.lastIdx⟩
  by_cases hleft : r ∈ e.waiting ∧ r ∉ e'.waiting
  · refine ⟨[r], (List.prefix_cons_inj r).2 List.nil_prefix, Or.inr ⟨r, rfl⟩, fun r' => ?_, [], rfl, hpar⟩
    rw [List.mem_singleton]
    rcases eq_or_ne r' r with rfl | hne
    · exact iff_of_false hleft.2 fun h => h.2 rfl
    · rw [(h.others r' hne).2.1]
      exact (and_iff_left hne).symm
  · refine ⟨[], List.nil_prefix, Or.inl rfl, fun r' => ?_, [], rfl, hpar⟩
    rw [and_iff_left List.not_mem_nil]
    rcases eq_or_ne r' r with rfl | hne
    · refine ⟨hshrink r', fun hr => ?_⟩
      by_contra hnot
      exact hleft ⟨hr, hnot⟩
    · exact (h.others r' hne).2.1

/-- The turn of `r` gave it a chunk, and the walk went on. -/
theorem Line.cons {e₁ : ContinuousBatchingEngine D R G} {b₁ : Batch} {s : Slice} {served given : List ℕ}
    (hturn : Turn e e₁ s.req) (hchunk : Chunk e e₁ b b₁ s) (hq : Queues e₁) (hn : s.req ∉ rs)
    (h : Line e₁ b₁ rs e' b' served given) :
    Line e b (s.req :: rs) e' b' (s.req :: served) (s.req :: given) := by
  have hgiven : ∀ r ∈ given, r ∈ rs := by
    intro r hr
    refine h.first.subset ?_
    rcases h.all with heq | ⟨r', heq⟩
    · exact heq ▸ hr
    · exact heq ▸ List.mem_append_left _ hr
  refine ⟨(List.prefix_cons_inj _).2 h.first, ?_, fun r => ?_, ?_⟩
  · rcases h.all with rfl | ⟨r, rfl⟩
    · exact Or.inl rfl
    · exact Or.inr ⟨r, rfl⟩
  · rw [h.waiting, List.mem_cons, not_or]
    rcases eq_or_ne r s.req with rfl | hne
    · exact iff_of_false (fun h => hchunk.not_waiting hq h.1) fun h => h.2.1 rfl
    · rw [(hturn.others r hne).2.1, and_iff_right hne]
  · obtain ⟨new, hnew, hpar⟩ := h.chunks
    refine ⟨s :: new, ?_, fun sl hsl => ?_⟩
    · have hbudget : b₁.budget = b.budget - s.len := by
        have := hchunk.budget
        omega
      have hsame : e₁.offered b₁.budget given = e.offered b₁.budget given :=
        offered_congr (fun r hr => (hturn.others r fun heq => hn (heq ▸ hgiven r hr)).1) hturn.chunkSize _
      rw [List.map_cons, hnew, hsame, offered, ← hchunk.len, ← hbudget]
    · rw [List.append_cons]
      exact hpar _ (hchunk.parallel sl hsl)

/-- **The walk of phase 2, in any state.** -/
theorem prefillLoop_line (rs : List ℕ) {e : ContinuousBatchingEngine D R G} (h : Queues e) (b : Batch)
    (hn : rs.Nodup) (hrs : ∀ r ∈ rs, r ∈ e.prefilling ∨ r ∈ e.waiting) :
    ∃ served given, Line e b rs (e.prefillLoop b rs).2.1 (e.prefillLoop b rs).2.2 served given := by
  induction rs generalizing e b with
  | nil => exact ⟨[], [], .stop e b []⟩
  | cons r rs ih =>
    rcases Nat.eq_zero_or_pos b.budget with h0 | hpos
    · refine ⟨[], [], ?_⟩
      rw [prefillLoop, if_pos (by omega)]
      exact .stop e b _
    rw [List.nodup_cons] at hn
    have hshrink := prefillLoop_waiting (r :: rs) e b
    rcases prefill_turn h b (hrs r List.mem_cons_self) hpos rs with
      ⟨res, e', l, heq, hturn, -⟩ | ⟨e₁, b₁, s, heq, hturn, hq, rfl, hchunk, -⟩
    · rw [heq] at hshrink ⊢
      obtain ⟨served, hline⟩ := Line.turn (b := b) hturn hshrink l rs
      exact ⟨served, [], hline⟩
    · have hnext : ∀ r' ∈ rs, r' ∈ e₁.prefilling ∨ r' ∈ e₁.waiting := fun r' hr' => by
        obtain ⟨-, hw, hp⟩ := hturn.others r' fun he => hn.1 (he ▸ hr')
        rw [hw, hp]
        exact hrs r' (List.mem_cons_of_mem _ hr')
      obtain ⟨served, given, hline⟩ := ih hq b₁ hn.2 hnext
      rw [heq]
      exact ⟨_, _, .cons hturn hchunk hq hn.1 hline⟩

/-! ### The order of the queue -/

theorem Before.asymm (h : e.Before r r') : ¬e.Before r' r := by
  unfold Before at h ⊢
  omega

/-- **The sorted queue** is in the order of admission. -/
theorem admissionQueue_before (h : Queues e) : e.admissionQueue.Pairwise e.Before := by
  have : Std.Total e.admissionOrder := ⟨fun r r' => le_total _ _⟩
  have : IsTrans ℕ e.admissionOrder := ⟨fun _ _ _ h h' => le_trans h h'⟩
  have hsorted := List.pairwise_insertionSort e.admissionOrder e.waiting
  have hnodup : e.admissionQueue.Nodup :=
    e.admissionQueue_perm.nodup_iff.2 h.nodup.of_append_left.of_append_left.of_append_left
  refine (hsorted.and hnodup).imp fun {r r'} ⟨hle, hne⟩ => ?_
  have hids : (e.req r).id ≠ (e.req r').id := by
    rw [h.id r, h.id r']
    exact hne
  unfold admissionOrder at hle
  rw [Prod.Lex.toLex_le_toLex] at hle
  unfold Before
  omega

/-- What stands in front of a member of a prefix of the queue is in it too. -/
theorem mem_take_of_before (h : Queues e) {k : ℕ} (hr : r ∈ e.waiting) (hbefore : e.Before r r')
    (hr' : r' ∈ e.admissionQueue.take k) : r ∈ e.admissionQueue.take k := by
  by_contra hnot
  have hmem := mem_admissionQueue.2 hr
  have hsorted := admissionQueue_before h
  rw [← List.take_append_drop k e.admissionQueue] at hmem hsorted
  have hdrop := (List.mem_append.1 hmem).resolve_left hnot
  exact hbefore.asymm ((List.pairwise_append.1 hsorted).2.2 r' hr' r hdrop)

/-! ### A step -/

/-- **Who is admitted** by the two phases: a prefix of the sorted queue, and nobody before every
prefilling request was offered its chunk of what decoding left of the budget. -/
theorem schedule_line (h : Queues e) : ∃ k,
    (∀ r, r ∈ e.schedule.2.1.waiting ↔ r ∈ e.waiting ∧ r ∉ e.admissionQueue.take k) ∧
    ∀ r ∈ e.waiting, r ∉ e.schedule.2.1.waiting →
      ∃ rest, e.schedule.2.2.chunks = e.decoding.map (·, 1) ++
          e.offered (e.maxBatchTokens - e.decoding.length) e.prefilling ++ rest ∧
        ∀ x ∈ rest, x.1 ∈ e.waiting := by
  rcases schedule_phases h with ⟨x, e₁, b, dec, heq, hdec⟩ |
    ⟨res, e₂, b₂, e', b', dec, -, heq, hbt, hloop, -⟩
  · -- phase 1 raised, and nobody left the queue
    obtain ⟨m, hframe⟩ := hdec.frame
    have hwait : e.schedule.2.1.waiting = e.waiting := by
      rw [heq, hframe]
      rfl
    rw [hwait]
    exact ⟨0, fun r => by simp, fun r hr hnot => absurd hr hnot⟩
  obtain ⟨served, given, hline⟩ := prefillLoop_line (e₂.prefilling ++ e₂.waiting) hbt.queues b₂ hbt.turns
    fun r hr => List.mem_append.1 hr
  have hqueue : e₂.waiting = e.admissionQueue := hbt.waiting
  rw [hloop, hbt.prefilling, hqueue] at hline
  rw [heq]
  have hserved := List.prefix_iff_eq_take.1 hline.first
  rw [List.take_append] at hserved
  have hmem : ∀ r ∈ e.waiting,
      (r ∈ served ↔ r ∈ e.admissionQueue.take (served.length - e.prefilling.length)) := by
    intro r hr
    have hnp : r ∉ e.prefilling.take served.length := fun hp =>
      (not_mem_of_waiting h.nodup hr).1 (List.mem_of_mem_take hp)
    rw [hserved, List.mem_append, or_iff_right hnp, ← hserved]
  refine ⟨served.length - e.prefilling.length, fun r => ?_, fun r hr hnot => ?_⟩
  · rw [hline.waiting, hqueue, mem_admissionQueue]
    exact and_congr_right fun hr => not_congr (hmem r hr)
  · have hin : r ∈ served := by
      by_contra hout
      exact hnot ((hline.waiting r).2 ⟨hqueue ▸ mem_admissionQueue.2 hr, hout⟩)
    -- somebody waiting was served, so all who prefill got their chunk
    have hlen : e.prefilling.length < served.length := by
      have hpos := List.length_pos_of_mem ((hmem r hr).1 hin)
      rw [List.length_take] at hpos
      omega
    obtain ⟨more, hgiven, hmore⟩ : ∃ more, given = e.prefilling ++ more ∧ ∀ r ∈ more, r ∈ e.waiting := by
      have hprefix : given <+: e.prefilling ++ e.admissionQueue := by
        rcases hline.all with hall | ⟨r', hall⟩
        · exact hall ▸ hline.first
        · exact (hall ▸ List.prefix_append given [r']).trans hline.first
      have hle : e.prefilling.length ≤ given.length := by
        rcases hline.all with hall | ⟨r', hall⟩
        · exact hall ▸ hlen.le
        · rw [hall, List.length_append, List.length_singleton] at hlen
          omega
      refine ⟨e.admissionQueue.take (given.length - e.prefilling.length), ?_, fun r hr =>
        mem_admissionQueue.1 (List.mem_of_mem_take hr)⟩
      conv_lhs => rw [List.prefix_iff_eq_take.1 hprefix, List.take_append, List.take_of_length_le hle]
    obtain ⟨new, hnew, hpar⟩ := hline.chunks
    obtain ⟨rest, hoffered, hrest⟩ :=
      e.offered_append (e.maxBatchTokens - e.decoding.length) e.prefilling more
    have hbudget : b₂.budget = e.maxBatchTokens - e.decoding.length := by
      have hb := hbt.budget
      rw [← hbt.reqs, List.length_map]
      omega
    have hsame : e₂.offered b₂.budget given = e.offered b₂.budget given :=
      offered_congr (fun r _ => by rw [hbt.req]) hbt.moves.chunkSize _
    refine ⟨rest, ?_, fun x hx => hmore _ (hrest ▸ List.mem_map_of_mem hx)⟩
    rw [(hpar dec hbt.parallel).chunks, List.map_append, hnew, hsame, hbudget, hgiven, hoffered,
      ← List.append_assoc, ← hbt.reqs, List.map_map]
    refine congrArg (· ++ _ ++ _) (List.map_congr_left fun s hs => ?_)
    rw [(hbt.one s hs).1]
    rfl

section

variable [Field R] [LinearOrder R]

/-- Phases 3 to 5 leave the waiting queue as phase 2 left it, raising or not. -/
theorem step_waiting (h : Queues e) (torch : Torch R) (src : Source R G) (runner : ModelRunner X D R) :
    (e.step torch src runner).2.waiting = e.schedule.2.1.waiting := by
  obtain ⟨res, e₁, b, dec, new, heq, hs⟩ := schedule_any h
  rw [step, heq]
  cases res with
  | error x => rfl
  | ok =>
    by_cases hb : b.batch = []
    · simp only [if_pos hb]
    · obtain ⟨-, hrun⟩ := hs.toSample_running
      obtain ⟨res, e', taken, done, hexec, hdel, -⟩ := execute_any torch src runner e₁ (b := b)
        fun r hr => hrun r (hs.sampleBatch ▸ hr)
      simp only [if_neg hb, hexec]
      exact hdel.waiting

/-- **A call does not let a request overtake** one that stands before it. -/
theorem leave_before (h : Queues e) (torch : Torch R) (src : Source R G) (runner : ModelRunner X D R)
    (c : Call D R) (hr : r < e.nextId) (hr' : r' < e.nextId) (hbefore : e.Before r r')
    (hline : r ∈ e.waiting → r' ∈ e.waiting) :
    r < (leave torch src runner e c).nextId ∧ r' < (leave torch src runner e c).nextId ∧
      (leave torch src runner e c).Before r r' ∧
      (r ∈ (leave torch src runner e c).waiting → r' ∈ (leave torch src runner e c).waiting) := by
  cases c with
  | addRequest s =>
    rcases addRequest_spec e s with ⟨msg, herr⟩ | ⟨hok, -⟩
    · rw [leave, herr]
      exact ⟨hr, hr', hbefore, hline⟩
    · rw [leave, hok]
      refine ⟨hr.trans (Nat.lt_succ_self _), hr'.trans (Nat.lt_succ_self _), ?_, fun hm => ?_⟩
      · unfold Before
        simp only [setReq, Function.update_of_ne hr.ne, Function.update_of_ne hr'.ne]
        exact hbefore
      · have hm : r ∈ e.waiting ++ [e.nextId] := hm
        have hold : r ∈ e.waiting :=
          (List.mem_append.1 hm).resolve_right fun hnew => hr.ne (List.mem_singleton.1 hnew)
        exact List.mem_append_left _ (hline hold)
  | step =>
    obtain ⟨k, hwait, -⟩ := schedule_line h
    rw [← step_waiting h torch src runner] at hwait
    obtain ⟨res, e', taken, done, heq, hsteps⟩ := step_any torch src runner h
    rw [leave]
    rw [heq] at hwait ⊢
    refine ⟨hsteps.nextId ▸ hr, hsteps.nextId ▸ hr', ?_, fun hm => ?_⟩
    · unfold Before
      rw [(hsteps.text r).priority, (hsteps.text r').priority, (hsteps.text r).id, (hsteps.text r').id]
      exact hbefore
    · obtain ⟨hold, hnot⟩ := (hwait r).1 hm
      exact (hwait r').2 ⟨hline hold, fun hm' => hnot (mem_take_of_before h hold hbefore hm')⟩

/-- **No overtaking in any run**, whatever its calls raise. -/
theorem leaves_before (h : Queues e) (torch : Torch R) (src : Source R G) (runner : ModelRunner X D R)
    (cs : List (Call D R)) (hr : r < e.nextId) (hr' : r' < e.nextId) (hbefore : e.Before r r')
    (hline : r ∈ e.waiting → r' ∈ e.waiting) :
    r ∈ (leaves torch src runner e cs).waiting → r' ∈ (leaves torch src runner e cs).waiting := by
  induction cs generalizing e with
  | nil => exact hline
  | cons c cs ih =>
    obtain ⟨h₁, h₂, h₃, h₄⟩ := leave_before h torch src runner c hr hr' hbefore hline
    exact ih (h.leave torch src runner c) h₁ h₂ h₃ h₄

end

end ContinuousBatchingEngine

open ContinuousBatchingEngine

variable {X D R G : Type} [Zero D] [Field R] [LinearOrder R]

/-- **Admission respects priority, with no overtaking.**  In every state that calls lead to, raising or not,
and for the next step, raising or not: the requests that leave `waiting` are a prefix of it in the order of
admission.  If there is one, the batch starts with the decodes and the chunks offered to all that
prefill, and only requests that waited come behind them.  In every run that goes on from there a request
that waits with another one that stands before it is not admitted before that one. -/
theorem admission_in_order (torch : Torch R) (src : Source R G) (runner : ModelRunner X D R)
    (T : Transformer X D R) (numBlocks blockSize maxBatchTokens : ℕ) (chunkSize : Option ℕ) (rng : G)
    (cs : List (Call D R)) :
    let e := leaves torch src runner (init T numBlocks blockSize maxBatchTokens chunkSize rng) cs
    let e' := (e.step torch src runner).2
    (e.admissionQueue.Perm e.waiting ∧ e.admissionQueue.Pairwise e.Before) ∧
    (∃ k, ∀ r ∈ e.waiting, r ∉ e'.waiting ↔ r ∈ e.admissionQueue.take k) ∧
    (∀ r ∈ e.waiting, r ∉ e'.waiting →
      ∃ rest, e.schedule.2.2.chunks = e.decoding.map (·, 1) ++
          e.offered (e.maxBatchTokens - e.decoding.length) e.prefilling ++ rest ∧
        ∀ x ∈ rest, x.1 ∈ e.waiting) ∧
    ∀ r ∈ e.waiting, ∀ r' ∈ e.waiting, e.Before r r' → ∀ cs',
      r' ∉ (leaves torch src runner e cs').waiting → r ∉ (leaves torch src runner e cs').waiting := by
  intro e e'
  have h : Queues e :=
    (init_queues T numBlocks blockSize maxBatchTokens chunkSize rng).leaves torch src runner cs
  obtain ⟨k, hwait, hoffered⟩ := schedule_line h
  have hsame : e'.waiting = e.schedule.2.1.waiting := step_waiting h torch src runner
  rw [hsame]
  refine ⟨⟨e.admissionQueue_perm, admissionQueue_before h⟩, ⟨k, fun r hr => ?_⟩, hoffered,
    fun r hr r' hr' hbefore cs' hgone hm => hgone ?_⟩
  · rw [hwait, and_iff_right hr, not_not]
  · have hbound : ∀ r ∈ e.waiting, r < e.nextId := fun r hr => h.bound r <|
      List.mem_append_left _ (List.mem_append_left _ (List.mem_append_left _ hr))
    exact leaves_before h torch src runner cs' (hbound r hr) (hbound r' hr') hbefore (fun _ => hr') hm

/-- Priorities `0`, `5` and `1`, and a budget for two prompts: the first to come still waits. -/
example :
    let torch : Torch ℚ := ⟨id, fun _ => []⟩
    let src : Source ℚ Unit := ⟨fun g => (0, g), fun _ g => (0, g)⟩
    let e : ContinuousBatchingEngine ℤ ℚ Unit := leaves torch src sumModel.runner
      (init sumModel 8 2 2 none ()) [.addRequest ⟨[1], 8, .default, none, 0, none⟩,
        .addRequest ⟨[1], 8, .default, none, 5, none⟩, .addRequest ⟨[1], 8, .default, none, 1, none⟩]
    e.admissionQueue = [1, 2, 0] ∧ (e.step torch src sumModel.runner).2.waiting = [0] := by
  decide +kernel

end DiSpec
