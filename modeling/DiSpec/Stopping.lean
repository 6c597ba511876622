/-
# When a generation loop stops

`ContinuousBatchingEngine.step`, `LLMEngine.generate`, `decode_from_kv` and `SpeculativeEngine.generate`
each have a loop of their own, and each looks at `max_new_tokens` and at EOS in a place of its own.  The
law they are to obey is `Autoregressive.Stops`: no more tokens than the limit, EOS nowhere but at the end,
and fewer than the limit only with EOS at the end.

Three of them draw the first token before they look at the limit, and obey the law for the larger of the
limit and one (`Limited.leaves`, `LLMEngine.generate_stops`, `decodeFromKv_stops`): hence for the limit
itself unless it is zero (`Autoregressive.Stops.iff_pos`).  The speculative loop looks first and cuts a
burst at the limit, so it obeys the law for every limit (`SpeculativeEngine.generate_stops`).
-/

import DiSpec.Sched.Tenure
import DiSpec.Engine.CudaGraph
import DiSpec.Workers.Disaggregated
import DiSpec.Spec.Greedy

namespace DiSpec

open Autoregressive

/-! ### The scheduler -/

namespace ContinuousBatchingEngine

variable {X D R G : Type} {e e' : ContinuousBatchingEngine D R G} {r n : ℕ}

/-- A request that is done has reached its limit, or its last token is EOS. -/
theorem done_snoc {q : Request D R} {out : List ℕ} {t : ℕ} (hout : q.outputIds = out ++ [t])
    (h : q.done = true) : q.maxNewTokens ≤ out.length + 1 ∨ isEos q.eosId t = true := by
  rw [Request.done, Bool.or_eq_true, decide_eq_true_eq, hout, List.getLast?_append, List.length_append,
    List.length_singleton] at h
  exact h

/-- Who runs may get one token more, and who is finished has got them all. -/
structure Limited (e : ContinuousBatchingEngine D R G) : Prop where
  running : ∀ r ∈ e.running, (e.req r).outputIds.length < max (e.req r).maxNewTokens 1 ∧
    ∀ t ∈ (e.req r).outputIds, isEos (e.req r).eosId t = false
  finished : ∀ r ∈ e.finished,
    Stops (isEos (e.req r).eosId) (max (e.req r).maxNewTokens 1) (e.req r).outputIds

/-- Who is not finished may get one token more. -/
theorem Limited.unfinished (h : Limited e) (hq : Queues e) (hr : r ∈ e.ids) (hf : r ∉ e.finished) :
    (e.req r).outputIds.length < max (e.req r).maxNewTokens 1 ∧
      ∀ t ∈ (e.req r).outputIds, isEos (e.req r).eosId t = false := by
  have hnil : (e.req r).outputIds = [] → (e.req r).outputIds.length < max (e.req r).maxNewTokens 1 ∧
      ∀ t ∈ (e.req r).outputIds, isEos (e.req r).eosId t = false := fun hnil => by
    rw [hnil]
    exact ⟨by rw [List.length_nil]; omega, by simp⟩
  unfold ids at hr
  rcases List.mem_append.1 hr with hr | hr
  · rcases List.mem_append.1 hr with hr | hr
    · rcases List.mem_append.1 hr with hr | hr
      · exact hnil (hq.waiting r hr).2.1
      · exact hnil (hq.prefilling r hr).2.1
    · exact h.running r hr
  · exact absurd hr hf

variable [Zero D] [Add X] [Field R] [LinearOrder R]

/-- **A step**, raising or not. -/
theorem Limited.step (h : Limited e) (hn : Tenure n e) (hq : Queues e) (torch : Torch R)
    (src : Source R G) (T : Transformer X D R) : Limited (e.step torch src T.runner).2 := by
  obtain ⟨res, e', taken, done, heq, hs⟩ := step_any torch src T.runner hq
  obtain ⟨res', e'', heq', -, hgot⟩ := hn.step hq torch src T
  obtain ⟨rfl, rfl⟩ := Prod.mk.inj (heq.symm.trans heq')
  rw [heq]
  have hmax : ∀ r, (e'.req r).maxNewTokens = (e.req r).maxNewTokens := fun r => (hs.text r).maxNewTokens
  have heos : ∀ r, (e'.req r).eosId = (e.req r).eosId := fun r => (hs.text r).eosId
  have hdone : ∀ r ∈ taken.map Prod.fst, r ∈ e'.running ↔ (e'.req r).done = false := fun r hr => by
    obtain ⟨t, ht⟩ := hs.drawn hr
    exact hgot r (by rw [ht]; simp)
  refine ⟨fun r hr => ?_, fun r hr => ?_⟩
  · have hin : r ∈ e'.ids := by simp [ids, hr]
    obtain ⟨hlt, hopen⟩ := h.unfinished hq (hs.ids.mem_iff.1 hin) (hs.apart.1 r hr).1
    rw [hmax, heos]
    by_cases hm : r ∈ taken.map Prod.fst
    · obtain ⟨t, ht⟩ := hs.drawn hm
      obtain ⟨hlen, hlast⟩ := not_done ((hdone r hm).1 hr)
      rw [hmax] at hlen
      refine ⟨hlen.trans_le (le_max_left _ _), fun u hu => ?_⟩
      rw [ht] at hu
      rcases List.mem_append.1 hu with hu | hu
      · exact hopen u hu
      · rw [List.mem_singleton.1 hu, ← heos]
        exact hlast _ t ht
    · rw [hs.undrawn hm]
      exact ⟨hlt, hopen⟩
  · rw [hs.finished] at hr
    rw [hmax, heos]
    rcases List.mem_append.1 hr with hf | hd
    · rw [hs.undrawn (hs.apart.2 r hf).2]
      exact h.finished r hf
    · have hm := hs.emitted r hd
      have hin : r ∈ e'.ids := by simp [ids, hs.finished, hd]
      have hf : r ∉ e.finished := fun hf => (hs.apart.2 r hf).1 hd
      obtain ⟨hlt, hopen⟩ := h.unfinished hq (hs.ids.mem_iff.1 hin) hf
      obtain ⟨t, ht⟩ := hs.drawn hm
      -- who is retired does not run, so it is done
      have hstop : (e'.req r).done = true := by
        by_contra hnot
        exact (hs.apart.1 r ((hdone r hm).2 (Bool.not_eq_true _ ▸ hnot))).2 hd
      have hend := done_snoc ht hstop
      rw [hmax, heos] at hend
      rw [ht]
      exact Stops.snoc hlt hopen (hend.imp_left fun hle => by omega)

omit [Zero D] [Add X] [Field R] [LinearOrder R] in
/-- A submission, accepted or not. -/
theorem Limited.submit (h : Limited e) (hq : Queues e) (s : Submission D R) :
    Limited (e.addRequest s).2 := by
  rcases addRequest_spec e s with ⟨msg, herr⟩ | ⟨hok, -⟩
  · rw [herr]
    exact h
  rw [hok]
  have hold : ∀ r ∈ e.ids, Function.update e.req e.nextId (⟨e.nextId, s.promptIds, s.params, s.maxNewTokens,
      s.eosId, [], .WAITING, 0, false, s.priority, 0, s.prefixKv⟩ : Request D R) r = e.req r := fun r hr =>
    Function.update_of_ne (hq.bound r hr).ne _ _
  refine ⟨fun r hr => ?_, fun r hr => ?_⟩
  · have hr : r ∈ e.running := hr
    have := h.running r hr
    rw [← hold r (by simp [ids, hr])] at this
    exact this
  · have hr : r ∈ e.finished := hr
    have := h.finished r hr
    rw [← hold r (by simp [ids, hr])] at this
    exact this

/-- **Every state that calls lead to**, raising or not, whatever is batched with whatever. -/
theorem Limited.leaves (h : Limited e) (hn : Tenure n e) (hq : Queues e) (torch : Torch R)
    (src : Source R G) (T : Transformer X D R) (cs : List (Call D R)) :
    Limited (leaves torch src T.runner e cs) := by
  induction cs generalizing e with
  | nil => exact h
  | cons c cs ih =>
    cases c with
    | addRequest s => exact ih (h.submit hq s) (hn.submit hq s) (hq.submit s)
    | step =>
      obtain ⟨res, e', heq, hn', -⟩ := hn.step hq torch src T
      have h' := h.step hn hq torch src T
      have hq' := hq.leave torch src T.runner .step
      rw [heq] at h'
      rw [leave, heq] at hq'
      show Limited (ContinuousBatchingEngine.leaves torch src T.runner (e.step torch src T.runner).2 cs)
      rw [heq]
      exact ih h' hn' hq'

end ContinuousBatchingEngine

/-! ### The loops that draw the first token themselves -/

section Loops

variable {κ X D R G : Type} [Field R] [LinearOrder R]

/-- A first token, and a loop that stops after EOS: the law of the loops below. -/
theorem first_stops {eos : Option ℕ} {first : ℕ} {maxNewTokens : ℕ} {out : List ℕ}
    (h : Stops (isEos eos) (maxNewTokens - 1 + 1) (first :: out)) :
    Stops (isEos eos) (max maxNewTokens 1) (first :: out) := by
  rwa [show max maxNewTokens 1 = maxNewTokens - 1 + 1 by omega]

namespace LLMEngine

/-- **The decode loop in any state**: the token it starts from and those it draws. -/
theorem decode_stops (torch : Torch R) (src : Source R G) (runner : ModelRunner X D R) (seqId : ℕ)
    (reuse : List ℕ) (params : SamplingParams R) (eos : Option ℕ) (n nextId cur : ℕ) (e : LLMEngine κ D)
    (g : G) {out : List ℕ}
    (h : (decode torch src runner seqId reuse params eos n nextId cur e g).1 = .ok out) :
    Stops (isEos eos) (n + 1) (nextId :: out) := by
  induction n generalizing nextId cur e g out with
  | zero =>
    cases h
    exact .one (isEos eos) nextId
  | succ n ih =>
    rw [decode] at h
    split at h
    next heos =>
      cases h
      exact Stops.stopped (show isEos eos nextId = true from decide_eq_true heos) _
    next heos =>
      have hgo : isEos eos nextId = false := decide_eq_false heos
      split at h
      · cases h
      · split at h
        · cases h
        · split at h
          · cases h
          · split at h
            · cases h
            · split at h
              · cases h
              next heq =>
                cases h
                exact (ih _ _ _ _ (by rw [heq])).cons hgo

variable [DecidableEq κ]

/-- The first token, from the prefill, and the loop after it. -/
theorem generateBody_stops (H : RollingHash κ) (torch : Torch R) (src : Source R G)
    (runner : ModelRunner X D R) (e : LLMEngine κ D) (g : G) (seqId : ℕ) (promptIds reuse : List ℕ)
    (table : BlockTable) (maxNewTokens : ℕ) (params : SamplingParams R) (eos : Option ℕ) {out : List ℕ}
    (h : (e.generateBody H torch src runner g seqId promptIds reuse table maxNewTokens params eos).1 =
      .ok out) : Stops (isEos eos) (max maxNewTokens 1) out := by
  unfold generateBody at h
  split at h
  · cases h
  · split at h
    · cases h
    next heq =>
      cases h
      exact first_stops (decode_stops torch src runner seqId reuse params eos _ _ _ _ _ (by rw [heq]))

/-- **`LLMEngine.generate` in any state.** -/
theorem generate_stops (H : RollingHash κ) (torch : Torch R) (src : Source R G) (runner : ModelRunner X D R)
    (e : LLMEngine κ D) (g : G) (seqId : ℕ) (promptIds : List ℕ) (maxNewTokens : ℕ)
    (params : SamplingParams R) (eos : Option ℕ) {out : List ℕ}
    (h : (e.generate H torch src runner g seqId promptIds maxNewTokens params eos).1 = .ok out) :
    Stops (isEos eos) (max maxNewTokens 1) out := by
  unfold generate at h
  dsimp only at h
  split at h
  · cases h
  next table m halloc =>
    split at h
    · cases h
    · exact generateBody_stops H torch src runner _ g seqId promptIds _ table maxNewTokens params eos h

end LLMEngine

/-- The loop of the worker is that of an engine over the same cache. -/
theorem decodeLoop_stops (torch : Torch R) (src : Source R G) (runner : ModelRunner X D R) (sid : ℕ)
    (params : SamplingParams R) (eos : Option ℕ) (n nxt cur : ℕ) (c : PagedKVCache D) (g : G) {out : List ℕ}
    (h : (decodeLoop torch src runner sid params eos n nxt cur c g).1 = .ok out) :
    Stops (isEos eos) (n + 1) (nxt :: out) := by
  let e : LLMEngine Unit D := ⟨c, none, 0, []⟩
  have hloop := decodeLoop_eq torch src runner sid [] params eos n nxt cur e g rfl
  refine LLMEngine.decode_stops torch src runner sid [] params eos n nxt cur e g ?_
  rw [hloop] at h
  exact h

/-- **`decode_from_kv` in any state**, from whatever KV and first token. -/
theorem decodeFromKv_stops (torch : Torch R) (src : Source R G) (runner : ModelRunner X D R)
    (c : PagedKVCache D) (g : G) (sid : ℕ) (promptIds : List ℕ) (k v : KVTensor D) (firstToken maxNew : ℕ)
    (params : SamplingParams R) (eos : Option ℕ) {out : List ℕ}
    (h : (decodeFromKv torch src runner c g sid promptIds k v firstToken maxNew params eos).1 = .ok out) :
    Stops (isEos eos) (max maxNew 1) out := by
  unfold decodeFromKv at h
  dsimp only at h
  split at h
  · cases h
  · split at h
    · cases h
    · split at h
      · cases h
      next heq =>
        split at h
        · cases h
        · cases h
          exact first_stops (decodeLoop_stops torch src runner sid params eos _ _ _ _ g (by rw [heq]))

end Loops

section Graphs

variable {κ X D R G : Type} [Zero D] [Add X] [Field R] [LinearOrder R]

namespace GraphEngine

/-- The decode loop with graphs, replayed or eager. -/
theorem decode_stops (torch : Torch R) (src : Source R G) (T : Transformer X D R)
    (fused : Option (ℕ → X → List D)) (seqId : ℕ) (reuse : List ℕ) (params : SamplingParams R)
    (eos : Option ℕ) (n nextId cur : ℕ) (ge : GraphEngine κ D R) (g : G) {out : List ℕ}
    (h : (decode torch src T fused seqId reuse params eos n nextId cur ge g).1 = .ok out) :
    Stops (isEos eos) (n + 1) (nextId :: out) := by
  induction n generalizing nextId cur ge g out with
  | zero =>
    cases h
    exact .one (isEos eos) nextId
  | succ n ih =>
    rw [decode] at h
    split at h
    next heos =>
      cases h
      exact Stops.stopped (show isEos eos nextId = true from decide_eq_true heos) _
    next heos =>
      have hgo : isEos eos nextId = false := decide_eq_false heos
      split at h
      · cases h
      · split at h
        · cases h
        · split at h
          · cases h
          · split at h
            · cases h
            · split at h
              · cases h
              next heq =>
                cases h
                exact (ih _ _ _ _ (by rw [heq])).cons hgo

variable [DecidableEq κ]

theorem generateBody_stops (H : RollingHash κ) (torch : Torch R) (src : Source R G) (T : Transformer X D R)
    (fused : Option (ℕ → X → List D)) (ge : GraphEngine κ D R) (g : G) (seqId : ℕ)
    (promptIds reuse : List ℕ) (table : BlockTable) (maxNewTokens : ℕ) (params : SamplingParams R)
    (eos : Option ℕ) {out : List ℕ}
    (h : (generateBody H torch src T fused ge g seqId promptIds reuse table maxNewTokens params eos).1 =
      .ok out) : Stops (isEos eos) (max maxNewTokens 1) out := by
  unfold generateBody at h
  split at h
  · cases h
  · split at h
    · cases h
    next heq =>
      cases h
      exact first_stops (decode_stops torch src T fused seqId reuse params eos _ _ _ _ _ (by rw [heq]))

/-- `LLMEngine.generate` with graphs in any state. -/
theorem generate_stops (H : RollingHash κ) (torch : Torch R) (src : Source R G) (T : Transformer X D R)
    (fused : Option (ℕ → X → List D)) (ge : GraphEngine κ D R) (g : G) (seqId : ℕ) (promptIds : List ℕ)
    (maxNewTokens : ℕ) (params : SamplingParams R) (eos : Option ℕ) {out : List ℕ}
    (h : (generate H torch src T fused ge g seqId promptIds maxNewTokens params eos).1 = .ok out) :
    Stops (isEos eos) (max maxNewTokens 1) out := by
  unfold generate at h
  dsimp only at h
  split at h
  · cases h
  next table m halloc =>
    split at h
    · cases h
    · exact generateBody_stops H torch src T fused _ g seqId promptIds _ table maxNewTokens params eos h

end GraphEngine

end Graphs

/-! ### The speculative loop -/

namespace SpeculativeEngine

section

variable {X D Y E R G : Type} [Field R] [LinearOrder R] (S : SpecSetup X D Y E R) (torch : Torch R)
  (src : Source R G) (sid : ℕ) (params : SamplingParams R) (promptLen maxNewTokens : ℕ) (eos : Option ℕ)

/-- **The loop** from a head that is not at its end, with fuel for the tokens that are missing. -/
theorem loop_stops (fuel : ℕ) {s : SpecLoop D E R G} (hopen : ∀ t ∈ s.out, isEos eos t = false)
    (hlen : s.out.length ≤ maxNewTokens) (hfuel : maxNewTokens ≤ fuel + s.out.length) {out : List ℕ}
    {stats : SpecStats}
    (h : (loop S torch src sid params promptLen maxNewTokens eos fuel s).1 = .ok (out, stats)) :
    Stops (isEos eos) maxNewTokens out := by
  -- at the limit nothing is missing
  have hfull : s.out.length = maxNewTokens → Stops (isEos eos) maxNewTokens (s.out.take maxNewTokens) := by
    intro heq
    rw [List.take_of_length_le hlen]
    refine ⟨hlen, fun l t u r hout => hopen t (by rw [hout]; simp), fun hlt => by omega⟩
  induction fuel generalizing s with
  | zero =>
    cases h
    exact hfull (by omega)
  | succ fuel ih =>
    rw [loop] at h
    split at h
    next hlt =>
      rcases hround : round S torch src sid params promptLen maxNewTokens eos s with ⟨x | done, s'⟩
      · rw [hround] at h
        cases h
      rw [hround] at h
      obtain ⟨emitted, stats', hne, hdone, hout⟩ :=
        round_emits S torch src sid params promptLen maxNewTokens eos hround
      rcases @emit_spec maxNewTokens eos emitted s.out stats' hlt with
        ⟨hgo, hall, hshort, hnone⟩ | ⟨hret, l, t, r, -, hall, hshort, hnone, hend⟩
      · rw [hout] at hall hshort
        rw [← hdone, hgo] at h
        have hpos : 0 < emitted.length := List.length_pos_of_ne_nil hne
        have hopen' : ∀ t ∈ s'.out, isEos eos t = false := fun t ht => by
          rw [hall] at ht
          exact (List.mem_append.1 ht).elim (hopen t) (hnone t)
        refine ih hopen' hshort.le ?_ h fun heq => absurd heq hshort.ne
        rw [hall, List.length_append]
        omega
      · rw [hout] at hall hend
        rw [← hdone, hret] at h
        cases h
        have hopen' : ∀ u ∈ s.out ++ l, isEos eos u = false := fun u hu =>
          (List.mem_append.1 hu).elim (hopen u) (hnone u)
        rw [hall, List.length_append, List.length_singleton] at hend
        have hstops := Stops.snoc hshort hopen' hend
        rwa [hall, List.take_of_length_le hstops.length_le]
    next hge =>
      cases h
      exact hfull (by omega)

/-- The loop starts from no output. -/
theorem prefill_out (e : SpeculativeEngine D E R) (g : G) (promptIds : List ℕ) {s : SpecLoop D E R G}
    (h : (prefill S torch e g sid promptIds params).1 = .ok s) : s.out = [] := by
  unfold prefill at h
  split at h
  · cases h
  · split at h
    · cases h
    · dsimp only at h
      split at h
      · cases h
        rfl
      · cases h

/-- **`SpeculativeEngine.generate` in any state** obeys the law for every limit, also one that a single burst
of drafted tokens reaches, also zero. -/
theorem generate_stops (e : SpeculativeEngine D E R) (g : G) (promptIds : List ℕ) {out : List ℕ}
    {stats : SpecStats}
    (h : (e.generate S torch src g sid promptIds params maxNewTokens eos).1 = .ok (out, stats)) :
    Stops (isEos eos) maxNewTokens out := by
  unfold generate at h
  split at h
  · cases h
  next e₁ _ =>
    dsimp only at h
    split at h
    · cases h
    · unfold generateBody at h
      split at h
      · cases h
      next s _ hprefill =>
        have hout : s.out = [] := prefill_out S torch sid params e₁ g promptIds (by rw [hprefill])
        refine loop_stops S torch src sid params promptIds.length maxNewTokens eos maxNewTokens (s := s)
          ?_ ?_ ?_ h
        · rw [hout]
          simp
        · rw [hout]
          exact Nat.zero_le _
        · exact Nat.le_add_right _ _

end

end SpeculativeEngine

open ContinuousBatchingEngine

variable {κ X D Y E R G : Type} [DecidableEq κ] [Zero D] [Add X] [Zero E] [Add Y] [Field R] [LinearOrder R]

/-- **When the generation loops obey the limit.**  In every state that calls lead to, raising or not, a
request of the scheduler that still runs is short of its limit and has drawn no EOS, and one that is
finished obeys the law iff its limit is not zero.  So does what `generate` returns, with graphs or without,
from any state of the engine, and what the decode stage returns for what the prefill stage exported.  What
speculative decoding returns obeys the law for every limit. -/
theorem token_limit_iff (torch : Torch R) (src : Source R G) (T : Transformer X D R) (Td : Transformer Y E R)
    (H : RollingHash κ) :
    (∀ numBlocks blockSize, 1 ≤ blockSize → ∀ maxBatchTokens chunkSize rng (cs : List (Call D R)),
      let e₀ := init T numBlocks blockSize maxBatchTokens chunkSize rng
      let e := leaves torch src T.runner e₀ cs
      (∀ r ∈ e.running, ∃ s, (ContinuousBatchingEngine.accepted torch src T.runner e₀ cs)[r]? = some s ∧
        (e.req r).outputIds.length < max s.maxNewTokens 1 ∧
        ∀ t ∈ (e.req r).outputIds, isEos s.eosId t = false) ∧
      ∀ r ∈ e.finished, ∃ s, (ContinuousBatchingEngine.accepted torch src T.runner e₀ cs)[r]? = some s ∧
        (Stops (isEos s.eosId) s.maxNewTokens (e.req r).outputIds ↔ 1 ≤ s.maxNewTokens)) ∧
    (∀ (e : LLMEngine κ D) g seqId promptIds maxNewTokens params eos out,
      (e.generate H torch src T.runner g seqId promptIds maxNewTokens params eos).1 = .ok out →
      (Stops (isEos eos) maxNewTokens out ↔ 1 ≤ maxNewTokens)) ∧
    (∀ (ge : GraphEngine κ D R) fused g seqId promptIds maxNewTokens params eos out,
      (ge.generate H torch src T fused g seqId promptIds maxNewTokens params eos).1 = .ok out →
      (Stops (isEos eos) maxNewTokens out ↔ 1 ≤ maxNewTokens)) ∧
    (∀ c g sid promptIds params k v first,
      (prefillExport torch src T.runner c g sid promptIds params).1 = .ok (k, v, first) →
      ∀ c' g' sid' maxNew params' eos out,
      (decodeFromKv torch src T.runner c' g' sid' promptIds k v first maxNew params' eos).1 = .ok out →
      (Stops (isEos eos) maxNew out ↔ 1 ≤ maxNew)) ∧
    ∀ K, 1 ≤ K → ∀ (e : SpeculativeEngine D E R) g sid promptIds params maxNewTokens eos out stats,
      (e.generate (SpeculativeEngine.setup T Td K) torch src g sid promptIds params maxNewTokens eos).1 =
        .ok (out, stats) → Stops (isEos eos) maxNewTokens out := by
  refine ⟨fun numBlocks blockSize hbs maxBatchTokens chunkSize rng cs => ?_,
    fun e g seqId promptIds maxNewTokens params eos out h =>
      (LLMEngine.generate_stops H torch src T.runner e g seqId promptIds maxNewTokens params eos h).iff_pos,
    fun ge fused g seqId promptIds maxNewTokens params eos out h =>
      (GraphEngine.generate_stops H torch src T fused ge g seqId promptIds maxNewTokens params eos h).iff_pos,
    fun _ _ _ promptIds _ k v first _ c' g' sid' maxNew params' eos out h =>
      (decodeFromKv_stops torch src T.runner c' g' sid' promptIds k v first maxNew params' eos h).iff_pos,
    fun K _ e g sid promptIds params maxNewTokens eos out stats h =>
      SpeculativeEngine.generate_stops _ torch src sid params maxNewTokens eos e g promptIds h⟩
  intro e₀ e
  have hq₀ : Queues e₀ := init_queues T numBlocks blockSize maxBatchTokens chunkSize rng
  have hn₀ : Tenure numBlocks e₀ := .init T numBlocks hbs maxBatchTokens chunkSize rng
  have h₀ : Limited e₀ := ⟨fun r hr => absurd hr List.not_mem_nil, fun r hr => absurd hr List.not_mem_nil⟩
  have hsub₀ : Submitted [] e₀ := ⟨rfl, fun r s hs => by simp at hs⟩
  have hq : Queues e := hq₀.leaves torch src T.runner cs
  have h : Limited e := h₀.leaves hn₀ hq₀ torch src T cs
  have hsub : Submitted (ContinuousBatchingEngine.accepted torch src T.runner e₀ cs) e := by
    have := hsub₀.leaves hq₀ torch src T.runner cs
    rwa [List.nil_append] at this
  have hknown : ∀ r ∈ e.ids, ∃ s, (ContinuousBatchingEngine.accepted torch src T.runner e₀ cs)[r]? = some s ∧
      (e.req r).maxNewTokens = s.maxNewTokens ∧ (e.req r).eosId = s.eosId := fun r hr => by
    have hlt := hq.bound r hr
    rw [hsub.count] at hlt
    obtain ⟨-, -, hmax, heos⟩ := hsub.text r _ (List.getElem?_eq_getElem hlt)
    exact ⟨_, List.getElem?_eq_getElem hlt, hmax, heos⟩
  constructor
  · intro r hr
    obtain ⟨s, hs, hmax, heos⟩ := hknown r (by simp [ids, hr])
    have := h.running r hr
    rw [hmax, heos] at this
    exact ⟨s, hs, this⟩
  · intro r hr
    obtain ⟨s, hs, hmax, heos⟩ := hknown r (by simp [ids, hr])
    have := h.finished r hr
    rw [hmax, heos] at this
    exact ⟨s, hs, this.iff_pos⟩

/-- The hypotheses are satisfiable: each loop runs to its limit, the speculative one into a burst. -/
theorem token_limit_iff_four :
    let torch : Torch ℚ := ⟨id, fun _ => []⟩
    let src : Source ℚ Unit := ⟨fun g => (0, g), fun w g => (w.idxOf 1, g)⟩
    let draft := { sumModel with norm := fun x => x / 2 }
    let e : ContinuousBatchingEngine ℤ ℚ Unit := leaves torch src sumModel.runner
      (init sumModel 8 2 8 none ()) [.addRequest ⟨[0], 2, .default, none, 0, none⟩, .step, .step]
    let plain := ((LLMEngine.init sumModel 8 2 false).generate listHash torch src sumModel.runner () 0 [0] 4
      .default none).1
    let exported := (prefillExport torch src sumModel.runner (sumModel.newCache 8 2) () 0 [0] .default).1
    let spec := ((SpeculativeEngine.init sumModel draft 8 2).generate
      (SpeculativeEngine.setup sumModel draft 2) torch src () 0 [0] .default 4 none).1
    (∃ r ∈ e.finished, Stops (isEos none) 2 (e.req r).outputIds) ∧
      plain = .ok [0, 1, 2, 2] ∧ Stops (isEos none) 4 [0, 1, 2, 2] ∧
      (∃ k v first out, exported = .ok (k, v, first) ∧ (decodeFromKv torch src sumModel.runner
        (sumModel.newCache 5 3) () 3 [0] k v first 4 .default none).1 = .ok out ∧ Stops (isEos none) 4 out) ∧
      ∃ out stats, spec = .ok (out, stats) ∧ Stops (isEos none) 4 out := by
  intro torch src draft e plain exported spec
  obtain ⟨h₁, h₂, -, h₄, h₅⟩ := token_limit_iff (κ := List ℕ) torch src sumModel draft listHash
  have hplain : plain = .ok [0, 1, 2, 2] := by decide +kernel
  have hspec : spec = .ok ([0, 1, 2, 2], ⟨3, 6, 1, 4⟩) := by decide +kernel
  have hexported : (match exported with
      | .error _ => false
      | .ok (k, v, t) => decide ((decodeFromKv torch src sumModel.runner (sumModel.newCache 5 3) () 3 [0]
          k v t 4 .default none).1 = .ok [0, 1, 2, 2])) = true := by decide +kernel
  refine ⟨?_, hplain, (h₂ _ _ _ _ _ _ _ _ hplain).2 (by decide), ?_, _, _, hspec,
    h₅ 2 (by decide) _ _ _ _ _ _ _ _ _ hspec⟩
  · have hfinished : 0 ∈ e.finished := by decide +kernel
    obtain ⟨s, hs, hiff⟩ := (h₁ 8 2 (by decide) 8 none () _).2 0 hfinished
    obtain rfl : ⟨[0], 2, .default, none, 0, none⟩ = s := Option.some.inj hs
    exact ⟨0, hfinished, hiff.2 (by decide)⟩
  · rcases hres : exported with x | ⟨k, v, first⟩
    · rw [hres] at hexported
      cases hexported
    · rw [hres] at hexported
      have hout := of_decide_eq_true hexported
      exact ⟨k, v, first, _, rfl, hout, (h₄ _ _ _ _ _ _ _ _ hres _ _ _ _ _ _ _ hout).2 (by decide)⟩

/-- **A limit of zero** draws a token in the scheduler, in `generate` and in the decode stage, and none in
speculative decoding. -/
theorem limit_zero_draws_one :
    let torch : Torch ℚ := ⟨id, fun _ => []⟩
    let src : Source ℚ Unit := ⟨fun g => (0, g), fun w g => (w.idxOf 1, g)⟩
    let e : ContinuousBatchingEngine ℤ ℚ Unit := leaves torch src sumModel.runner
      (init sumModel 8 2 8 none ()) [.addRequest ⟨[0], 0, .default, none, 0, none⟩, .step]
    let plain := ((LLMEngine.init sumModel 8 2 false).generate listHash torch src sumModel.runner () 0 [0] 0
      .default none).1
    let exported := (prefillExport torch src sumModel.runner (sumModel.newCache 8 2) () 0 [0] .default).1
    let decoded : Except Exc (List ℕ) := match exported with
      | .error x => .error x
      | .ok (k, v, first) => (decodeFromKv torch src sumModel.runner (sumModel.newCache 5 3) () 3 [0] k v
          first 0 .default none).1
    let spec := ((SpeculativeEngine.init sumModel sumModel 8 2).generate
      (SpeculativeEngine.setup sumModel sumModel 2) torch src () 0 [0] .default 0 none).1
    (e.finished = [0] ∧ (e.req 0).outputIds = [0] ∧ plain = .ok [0] ∧ decoded = .ok [0] ∧
      spec = .ok ([], ⟨0, 0, 0, 0⟩)) ∧ ¬Stops (isEos none) 0 [0] := by
  intro torch src e plain exported decoded spec
  refine ⟨?_, fun h => absurd h.length_le (by decide)⟩
  decide +kernel

end DiSpec
