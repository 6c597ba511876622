/-
# What speculation saves

`callDraws` is `SpeculativeEngine.generate` with no caches: the text, and the counts of `SpecStats`.
Against any generator the engine returns what it draws (`generate_draws`), and its text has the law of
decoding token by token with the target (`expect_loopDraws_text`).

`Tally` is what the counts say whatever is drawn.  On average a round emits what `DiSpec.Spec.Acceptance`
says, so by the drift rule of loops the number of rounds follows from the number of tokens
(`speculative_speedup`).
-/

import DiSpec.Spec.Acceptance
import DiSpec.Spec.Forwards

namespace DiSpec

open Autoregressive RandM

namespace SpecStats

/-- `acceptance_rate`. -/
def acceptanceRate (stats : SpecStats) : ℚ :=
  if stats.proposed ≠ 0 then stats.accepted / stats.proposed else 0

/-- `tokens_per_iter`. -/
def tokensPerIter (stats : SpecStats) : ℚ :=
  if stats.iters ≠ 0 then stats.emitted / stats.iters else 0

end SpecStats

namespace SpeculativeEngine

/-! ### The text and the counts -/

section Draws

variable {R : Type} [Field R] [LinearOrder R]
variable (P Q : List ℕ → List R) (K maxNewTokens : ℕ) (eos : Option ℕ) (promptIds : List ℕ)

/-- What a round makes of the text and the counts when `rejection_sample` has returned. -/
def counted (s : List ℕ × SpecStats) : Except Exc (List ℕ × ℕ) → Bool × List ℕ × SpecStats
  | .error _ => (true, s)
  | .ok (emitted, nAcc) =>
    emit maxNewTokens eos emitted s.1 { s.2 with
      iters := s.2.iters + 1,
      proposed := s.2.proposed + K,
      accepted := s.2.accepted + nAcc }

/-- A round with no caches. -/
def roundDraws (s : List ℕ × SpecStats) : RandM R (Bool × List ℕ × SpecStats) :=
  (unstopped (fun c => sampleFromProbs (Q c)) K (promptIds ++ s.1)).bind fun ts =>
    (rejectionSample (P (promptIds ++ s.1 ++ ts)) ts (rowsAlong Q (promptIds ++ s.1) ts)
      (rowsAlong P (promptIds ++ s.1) ts)).map (counted K maxNewTokens eos s)

/-- The loop with no caches. -/
def loopDraws (fuel : ℕ) (s : List ℕ × SpecStats) : RandM R (List ℕ × SpecStats) :=
  whileLoop (fun s => decide (s.1.length < maxNewTokens)) (roundDraws P Q K maxNewTokens eos promptIds) fuel s

/-- A call with no caches. -/
def callDraws : RandM R (List ℕ × SpecStats) :=
  loopDraws P Q K maxNewTokens eos promptIds maxNewTokens ([], ⟨0, 0, 0, 0⟩)

end Draws

/-- The counts of a text that is returned. -/
structure Tally (K maxNewTokens : ℕ) (eos : Option ℕ) (s : List ℕ × SpecStats) : Prop where
  emitted : s.2.emitted = s.1.length
  proposed : s.2.proposed = K * s.2.iters
  accepted : s.2.accepted ≤ s.2.proposed
  iters : s.2.iters ≤ s.2.emitted
  emitted_le : s.2.emitted ≤ s.2.accepted + s.2.iters
  le_emitted : s.2.accepted + s.2.iters ≤ s.2.emitted + K
  stops : Stops (isEos eos) maxNewTokens s.1

/-- The counts of a text at the head of the loop, with `fuel` rounds left. -/
structure Ongoing (K maxNewTokens : ℕ) (eos : Option ℕ) (fuel : ℕ) (s : List ℕ × SpecStats) : Prop where
  emitted : s.2.emitted = s.1.length
  proposed : s.2.proposed = K * s.2.iters
  accepted : s.2.accepted ≤ s.2.proposed
  exact : s.2.accepted + s.2.iters = s.1.length
  length_le : s.1.length ≤ maxNewTokens
  unstopped : ∀ t ∈ s.1, isEos eos t = false
  fuel : maxNewTokens ≤ fuel + s.1.length

/-- Before the first round. -/
theorem Ongoing.start (K maxNewTokens : ℕ) (eos : Option ℕ) :
    Ongoing K maxNewTokens eos maxNewTokens ([], ⟨0, 0, 0, 0⟩) :=
  ⟨rfl, rfl, le_rfl, rfl, Nat.zero_le _, by simp, le_rfl⟩

variable {K maxNewTokens : ℕ} {eos : Option ℕ} {s : List ℕ × SpecStats}

/-- **The rates that are reported**: no more tokens in a round than the accepted ones and one more. -/
theorem Tally.rates (h : Tally K maxNewTokens eos s) (hK : 1 ≤ K) :
    s.2.acceptanceRate ≤ 1 ∧ s.2.tokensPerIter ≤ K * s.2.acceptanceRate + 1 := by
  have hprop := h.proposed
  have hacc := h.accepted
  unfold SpecStats.acceptanceRate SpecStats.tokensPerIter
  rcases Nat.eq_zero_or_pos s.2.iters with h0 | hpos
  · rw [h0, Nat.mul_zero] at hprop
    rw [hprop, h0]
    simp
  have hK' : (0 : ℚ) < K := Nat.cast_pos.2 hK
  have hiters : (0 : ℚ) < s.2.iters := Nat.cast_pos.2 hpos
  have hne : s.2.proposed ≠ 0 := hprop ▸ (Nat.mul_pos hK hpos).ne'
  rw [if_pos hne, if_pos hpos.ne']
  constructor
  · exact (div_le_one (Nat.cast_pos.2 (Nat.pos_of_ne_zero hne))).2 (Nat.cast_le.2 hacc)
  · rw [hprop, Nat.cast_mul, ← mul_div_assoc, mul_div_mul_left _ _ hK'.ne', div_le_iff₀ hiters, add_mul,
      div_mul_cancel₀ _ hiters.ne', one_mul]
    exact_mod_cast h.emitted_le

/-- A round counts itself, its draft, and what it appends. -/
theorem counted_spec (K maxNewTokens : ℕ) (eos : Option ℕ) (s : List ℕ × SpecStats) (emitted : List ℕ)
    (n : ℕ) :
    let e := counted K maxNewTokens eos s (.ok (emitted, n))
    e.2.2.iters = s.2.iters + 1 ∧ e.2.2.proposed = s.2.proposed + K ∧ e.2.2.accepted = s.2.accepted + n ∧
      (s.2.emitted = s.1.length → e.2.2.emitted = e.2.1.length) := by
  intro e
  obtain ⟨hrest, hcount⟩ := emit_stats maxNewTokens eos emitted s.1 { s.2 with
    iters := s.2.iters + 1,
    proposed := s.2.proposed + K,
    accepted := s.2.accepted + n }
  change e.2.2.emitted + s.1.length = s.2.emitted + e.2.1.length at hcount
  refine ⟨congrArg SpecStats.iters hrest, congrArg SpecStats.proposed hrest,
    congrArg SpecStats.accepted hrest, fun hemitted => ?_⟩
  omega

namespace Ongoing

variable {fuel : ℕ} (h : Ongoing K maxNewTokens eos (fuel + 1) s) (hlt : s.1.length < maxNewTokens)
  {ts : List ℕ} {n : ℕ} (t : ℕ) (hts : ts.length = K) (hn : n ≤ ts.length)
include h hlt hts hn

/-- **A round after which the loop goes on** appends all that it emits. -/
theorem goesOn (hgo : (counted K maxNewTokens eos s (.ok (ts.take n ++ [t], n))).1 = false) :
    Ongoing K maxNewTokens eos fuel (counted K maxNewTokens eos s (.ok (ts.take n ++ [t], n))).2 := by
  set e := counted K maxNewTokens eos s (.ok (ts.take n ++ [t], n)) with he
  obtain ⟨hiters, hproposed, haccepted, hemitted⟩ := counted_spec K maxNewTokens eos s (ts.take n ++ [t]) n
  rw [← he] at hiters hproposed haccepted hemitted
  have hlen : (ts.take n ++ [t]).length = n + 1 := by
    rw [List.length_append, List.length_take, min_eq_left hn, List.length_singleton]
  have hacc := h.accepted
  have hexact := h.exact
  have hfuel := h.fuel
  rcases @emit_spec maxNewTokens eos (ts.take n ++ [t]) s.1 { s.2 with
    iters := s.2.iters + 1,
    proposed := s.2.proposed + K,
    accepted := s.2.accepted + n } hlt with ⟨-, hout, hshort, hopen⟩ | ⟨hret, -⟩
  · change e.2.1 = s.1 ++ (ts.take n ++ [t]) at hout
    have hout' : e.2.1.length = s.1.length + (n + 1) := by rw [hout, List.length_append, hlen]
    refine ⟨hemitted h.emitted, ?_, ?_, ?_, hshort.le, fun u hu => ?_, ?_⟩
    · rw [hproposed, hiters, h.proposed, Nat.mul_succ]
    · rw [haccepted, hproposed]
      omega
    · rw [haccepted, hiters]
      omega
    · rw [hout] at hu
      exact (List.mem_append.1 hu).elim (h.unstopped u) (hopen u)
    · omega
  · exact absurd (hgo.symm.trans hret) Bool.false_ne_true

/-- **A round in which `generate` returns** appends one token at least. -/
theorem returns (hret : (counted K maxNewTokens eos s (.ok (ts.take n ++ [t], n))).1 = true) :
    Tally K maxNewTokens eos (counted K maxNewTokens eos s (.ok (ts.take n ++ [t], n))).2 := by
  set e := counted K maxNewTokens eos s (.ok (ts.take n ++ [t], n)) with he
  obtain ⟨hiters, hproposed, haccepted, hemitted⟩ := counted_spec K maxNewTokens eos s (ts.take n ++ [t]) n
  rw [← he] at hiters hproposed haccepted hemitted
  have hemitted := hemitted h.emitted
  have hacc := h.accepted
  have hexact := h.exact
  rcases @emit_spec maxNewTokens eos (ts.take n ++ [t]) s.1 { s.2 with
    iters := s.2.iters + 1,
    proposed := s.2.proposed + K,
    accepted := s.2.accepted + n } hlt with ⟨hgo, -⟩ | ⟨-, l, u, r, hsplit, hout, hshort, hopen, hend⟩
  · exact absurd (hgo.symm.trans hret) Bool.false_ne_true
  · change e.2.1 = s.1 ++ l ++ [u] at hout
    change maxNewTokens ≤ e.2.1.length ∨ isEos eos u = true at hend
    have hout' : e.2.1.length = s.1.length + l.length + 1 := by
      rw [hout, List.length_append, List.length_append, List.length_singleton]
    have hl : l.length ≤ n := by
      have hlen := congrArg List.length hsplit
      rw [List.length_append, List.length_take, min_eq_left hn, List.length_singleton, List.length_append,
        List.length_cons] at hlen
      omega
    refine ⟨hemitted, ?_, ?_, ?_, ?_, ?_, ?_⟩
    · rw [hproposed, hiters, h.proposed, Nat.mul_succ]
    · rw [haccepted, hproposed]
      omega
    · rw [hiters, hemitted]
      omega
    · rw [hemitted, haccepted, hiters]
      omega
    · rw [hemitted, haccepted, hiters]
      omega
    · rw [hout]
      refine Stops.snoc hshort (fun v hv => ?_) (hend.imp (fun hle => ?_) id)
      · exact (List.mem_append.1 hv).elim (h.unstopped v) (hopen v)
      · rw [List.length_append]
        omega

end Ongoing

/-- Counts at the end of the loop. -/
theorem Ongoing.tally {fuel : ℕ} (h : Ongoing K maxNewTokens eos fuel s)
    (hend : fuel = 0 ∨ decide (s.1.length < maxNewTokens) = false) : Tally K maxNewTokens eos s := by
  have hexact := h.exact
  have hfull : s.1.length = maxNewTokens := by
    refine le_antisymm h.length_le ?_
    rcases hend with h0 | hlt
    · have := h.fuel
      omega
    · exact not_lt.1 (of_decide_eq_false hlt)
  refine ⟨h.emitted, h.proposed, h.accepted, ?_, ?_, ?_, h.length_le, fun l t u r heq => ?_, fun hlt => ?_⟩
  · rw [h.emitted]
    omega
  · rw [h.emitted]
    omega
  · rw [h.emitted]
    omega
  · exact h.unstopped t (by rw [heq]; simp)
  · omega

section Always

variable {R : Type} [Field R] [LinearOrder R] {V : ℕ} (hV : 0 < V) {P Q : List ℕ → List R}
  (hQ : ∀ c, (Q c).length = V) (hP : ∀ c, (P c).length = V)
include hV hQ hP

/-- What a round does, whatever is drawn. -/
theorem always_roundDraws (promptIds : List ℕ) (s : List ℕ × SpecStats) :
    (roundDraws P Q K maxNewTokens eos promptIds s).Always fun r =>
      ∃ (ts : List ℕ) (n t : ℕ), ts.length = K ∧ n ≤ ts.length ∧
        r = counted K maxNewTokens eos s (.ok (ts.take n ++ [t], n)) := by
  refine (always_unstopped hV hQ K (promptIds ++ s.1)).bind fun ts hts => ?_
  refine (always_rejectionSample hV hQ hP (hP _) hts.2 (promptIds ++ s.1)).map ?_
  rintro r ⟨n, t, hn, rfl⟩
  exact ⟨ts, n, t, hts.1, hn, rfl⟩

/-- **The counts are those of the text**, whatever is drawn. -/
theorem always_loopDraws (promptIds : List ℕ) {fuel : ℕ} (h : Ongoing K maxNewTokens eos fuel s) :
    (loopDraws P Q K maxNewTokens eos promptIds fuel s).Always (Tally K maxNewTokens eos) := by
  refine always_whileLoop (I := Ongoing K maxNewTokens eos) (fun fuel s hs hlt => ?_)
    (fun fuel s hs hend => hs.tally hend) h
  refine (always_roundDraws hV hQ hP promptIds s).mono ?_
  rintro r ⟨ts, n, t, hts, hn, rfl⟩
  have hshort := of_decide_eq_true hlt
  exact ⟨hs.goesOn hshort t hts hn, hs.returns hshort t hts hn⟩

end Always

/-! ### What a call costs on average -/

/-- **The text is that of the loop over rounds** (`DiSpec.Spec.Law`), of which the counts are not. -/
theorem expect_loopDraws_text {V : ℕ} (hV : 0 < V) {P Q : List ℕ → List ℝ} (hQ : ∀ c, (Q c).length = V)
    (hP : ∀ c, (P c).length = V) (promptIds : List ℕ) (f : List ℕ → ℝ) (fuel : ℕ) {s : List ℕ × SpecStats}
    (hlt : s.1.length < maxNewTokens) :
    (loopDraws P Q K maxNewTokens eos promptIds fuel s).expect (fun r => f r.1) =
      (chunked (roundText P Q K) (isEos eos) fuel (maxNewTokens - s.1.length) (promptIds ++ s.1)).expect
        fun ts => f (s.1 ++ ts) := by
  induction fuel generalizing s with
  | zero =>
    show f s.1 = f (s.1 ++ [])
    rw [List.append_nil]
  | succ fuel ih =>
    rw [loopDraws, whileLoop, if_pos (decide_eq_true hlt), chunked, roundDraws, roundText, expect_bind,
      expect_bind, expect_bind, expect_bind]
    refine (always_unstopped hV hQ K (promptIds ++ s.1)).expect_congr fun ts hts => ?_
    rw [expect_map, expect_map]
    refine (always_rejectionSample hV hQ hP (hP _) hts.2 (promptIds ++ s.1)).expect_congr ?_
    rintro r ⟨n, t, -, rfl⟩
    set stats : SpecStats := { s.2 with
      iters := s.2.iters + 1,
      proposed := s.2.proposed + K,
      accepted := s.2.accepted + n } with hstats
    show (if (emit maxNewTokens eos (ts.take n ++ [t]) s.1 stats).1 then _ else _ : RandM ℝ _).expect _ = _
    rw [emittedOf]
    obtain ⟨hdone, hout⟩ := emit_eq_cutAt eos (ts.take n ++ [t]) stats hlt
    by_cases hend : maxNewTokens - s.1.length ≤ (ts.take n ++ [t]).length ∨ (ts.take n ++ [t]).any (isEos eos)
    · rw [if_pos (hdone.2 hend), if_pos hend, expect_pure, expect_pure]
      exact congrArg f hout
    · rw [if_neg (fun h => hend (hdone.1 h)), if_neg hend, expect_map]
      rw [cutAt_eq_self hend] at hout
      obtain ⟨hshort, -⟩ := not_or.1 hend
      have hlen : (emit maxNewTokens eos (ts.take n ++ [t]) s.1 stats).2.1.length =
          s.1.length + (ts.take n ++ [t]).length := by rw [hout, List.length_append]
      refine (ih (s := (emit maxNewTokens eos (ts.take n ++ [t]) s.1 stats).2) (by omega)).trans ?_
      rw [hlen, hout, ← Nat.sub_sub]
      simp only [List.append_assoc]

section Average

variable {V : ℕ} (hV : 0 < V) (q p : List ℕ → Dist V) (promptIds : List ℕ)

theorem averages_roundDraws (K maxNewTokens : ℕ) (eos : Option ℕ) (s : List ℕ × SpecStats) :
    (roundDraws (Dist.row ∘ p) (Dist.row ∘ q) K maxNewTokens eos promptIds s).Averages :=
  (averages_drawn q K (promptIds ++ s.1)).bind fun ts =>
    (averages_rejectionSample q p (p (promptIds ++ s.1 ++ ts)) ts (promptIds ++ s.1)).map _

theorem averages_callDraws (K maxNewTokens : ℕ) (eos : Option ℕ) :
    (callDraws (Dist.row ∘ p) (Dist.row ∘ q) K maxNewTokens eos promptIds).Averages :=
  averages_whileLoop _ (averages_roundDraws q p promptIds K maxNewTokens eos) _ _

include hV in
/-- A round adds what it emits on average. -/
theorem expect_roundDraws (s : List ℕ × SpecStats) (m : ℝ) :
    (roundDraws (Dist.row ∘ p) (Dist.row ∘ q) K maxNewTokens eos promptIds s).expect (fun r =>
        (r.2.2.accepted + r.2.2.iters : ℝ) - m * r.2.2.iters) =
      (s.2.accepted + s.2.iters : ℝ) - m * s.2.iters + (expectedEmitted q p K (promptIds ++ s.1) - m) := by
  rw [expectedEmitted, roundDraws, expect_bind]
  set c : ℝ := (s.2.accepted + s.2.iters : ℝ) - m * s.2.iters - m with hc
  have hdraft := (averages_drawn q K (promptIds ++ s.1)).lawful 1 c fun ts =>
    (rejectionSample (p (promptIds ++ s.1 ++ ts)).row ts (rowsAlong (Dist.row ∘ q) (promptIds ++ s.1) ts)
      (rowsAlong (Dist.row ∘ p) (promptIds ++ s.1) ts)).expect fun r => (acceptedOf r : ℝ) + 1
  rw [one_mul] at hdraft
  rw [show ∀ x : ℝ, (s.2.accepted + s.2.iters : ℝ) - m * s.2.iters + (x - m) = x + c from fun x => by ring,
    ← hdraft]
  refine (always_unstopped hV (fun c => (q c).length) K (promptIds ++ s.1)).expect_congr fun ts hts => ?_
  rw [expect_map, ← (averages_rejectionSample q p _ ts (promptIds ++ s.1)).lawful]
  refine (always_rejectionSample hV (fun c => (q c).length) (fun c => (p c).length) (p _).length
    hts.2 (promptIds ++ s.1)).expect_congr ?_
  rintro r ⟨n, t, -, rfl⟩
  obtain ⟨hiters, -, haccepted, -⟩ := counted_spec K maxNewTokens eos s (ts.take n ++ [t]) n
  rw [hiters, haccepted, acceptedOf, Nat.cast_add, Nat.cast_add, Nat.cast_one, hc]
  ring

include hV in
/-- **Rounds that emit `m` tokens or more** on average are that many fewer. -/
theorem le_expect_callDraws (K maxNewTokens : ℕ) (eos : Option ℕ) {m : ℝ}
    (hm : ∀ l, m ≤ expectedEmitted q p K (promptIds ++ l)) :
    let x := callDraws (Dist.row ∘ p) (Dist.row ∘ q) K maxNewTokens eos promptIds
    (x.expect fun r => (r.2.iters : ℝ)) * m ≤ x.expect fun r => (r.2.accepted + r.2.iters : ℝ) := by
  intro x
  have hbody := averages_roundDraws q p promptIds K maxNewTokens eos
  have hdrift := le_expect_whileLoop (fun s => decide (s.1.length < maxNewTokens)) hbody
    (φ := fun s => (s.2.accepted + s.2.iters : ℝ) - m * s.2.iters) (fun s _ => by
      rw [expect_roundDraws hV]
      exact le_add_of_nonneg_right (sub_nonneg.2 (hm s.1))) maxNewTokens ([], ⟨0, 0, 0, 0⟩)
  rw [(averages_whileLoop _ hbody _ _).sub_smul] at hdrift
  simp only [Nat.cast_zero, add_zero, mul_zero, sub_zero] at hdrift
  rw [mul_comm]
  exact sub_nonneg.1 hdrift

include hV in
/-- Rounds that emit `m` tokens or less on average. -/
theorem expect_callDraws_le (K maxNewTokens : ℕ) (eos : Option ℕ) {m : ℝ}
    (hm : ∀ l, expectedEmitted q p K (promptIds ++ l) ≤ m) :
    let x := callDraws (Dist.row ∘ p) (Dist.row ∘ q) K maxNewTokens eos promptIds
    (x.expect fun r => (r.2.accepted + r.2.iters : ℝ)) ≤ (x.expect fun r => (r.2.iters : ℝ)) * m := by
  intro x
  have hbody := averages_roundDraws q p promptIds K maxNewTokens eos
  have hdrift := expect_whileLoop_le (fun s => decide (s.1.length < maxNewTokens)) hbody
    (φ := fun s => (s.2.accepted + s.2.iters : ℝ) - m * s.2.iters) (fun s _ => by
      rw [expect_roundDraws hV]
      exact add_le_of_nonpos_right (sub_nonpos.2 (hm s.1))) maxNewTokens ([], ⟨0, 0, 0, 0⟩)
  rw [(averages_whileLoop _ hbody _ _).sub_smul] at hdrift
  simp only [Nat.cast_zero, add_zero, mul_zero, sub_zero] at hdrift
  rw [mul_comm (x.expect _)]
  exact sub_nonpos.1 hdrift

end Average

/-! ### The engine draws the same -/

section Engine

variable {X D Y E R G : Type} [Zero D] [Add X] [Zero E] [Add Y] [Field R] [LinearOrder R]
variable {S : SpecSetup X D Y E R} {T : Transformer X D R} {Td : Transformer Y E R} {sid : ℕ}
variable {torch : Torch R} {params : SamplingParams R} {V : ℕ} (hV : 0 < V)
include hV

/-- **One round of the loop** runs out of blocks, or does what `roundDraws` draws to the text and the
counts, leaves the generator where that leaves it, and both caches coherent where `generate` goes on. -/
theorem round_draws (htgt : S.tgt = T.runner) (hdrf : S.drf = Td.runner) (hK : 1 ≤ S.numSpeculativeTokens)
    (hQ : ∀ c, (nextProbs torch S.vocab params Td c).length = V)
    (hP : ∀ c, (nextProbs torch S.vocab params T c).length = V) {src : Source R G} (hsrc : src.InRange)
    {promptIds : List ℕ} (maxNewTokens : ℕ) (eos : Option ℕ) {s : SpecLoop D E R G}
    (h : Coherent S torch params T Td sid (promptIds ++ s.out) s) :
    ∃ r s', SpeculativeEngine.round S torch src sid params promptIds.length maxNewTokens eos s = (r, s') ∧
      ((∃ msg, r = .error (.OutOfBlocksError msg)) ∨ ∃ done, r = .ok done ∧
        (roundDraws (nextProbs torch S.vocab params T) (nextProbs torch S.vocab params Td)
          S.numSpeculativeTokens maxNewTokens eos promptIds (s.out, s.stats)).run src s.g =
            ((done, s'.out, s'.stats), s'.g) ∧
        (done = false → Coherent S torch params T Td sid (promptIds ++ s'.out) s')) := by
  set P := nextProbs torch S.vocab params T with hPdef
  set Q := nextProbs torch S.vocab params Td with hQdef
  set ctx := promptIds ++ s.out with hctx
  obtain ⟨r₁, s₁, heq₁, -, ⟨⟨msg, rfl⟩, -⟩ | ⟨ts, rd, rfl, hts, rfl, -, -, hout, ht, hd⟩⟩ :=
    propose_spec htgt hdrf hK src h
  · exact ⟨_, s₁, by rw [SpeculativeEngine.round, heq₁], Or.inl ⟨msg, rfl⟩⟩
  have hdraft := propose_run hdrf hK h heq₁
  have hstats := propose_stats heq₁
  have hrange : ∀ t ∈ ts, t < V := by
    have := (always_unstopped hV hQ S.numSpeculativeTokens ctx).run hsrc s.g
    rw [hdraft] at this
    exact this.2
  rcases hrej : (rejectionSample (P (ctx ++ ts)) ts (rowsAlong Q ctx ts) (rowsAlong P ctx ts)).run src
    s₁.g with ⟨r₂, g₂⟩
  obtain ⟨n, t, hn, rfl⟩ : ∃ n t, n ≤ ts.length ∧ r₂ = .ok (ts.take n ++ [t], n) := by
    have := (always_rejectionSample hV hQ hP (hP (ctx ++ ts)) hrange ctx).run hsrc s₁.g
    rwa [hrej] at this
  have hdraws : (roundDraws P Q S.numSpeculativeTokens maxNewTokens eos promptIds (s.out, s.stats)).run
      src s.g = (counted S.numSpeculativeTokens maxNewTokens eos (s.out, s.stats)
        (.ok (ts.take n ++ [t], n)), g₂) := by
    rw [roundDraws, RandM.run_bind, hdraft, RandM.run_map, hrej]
  set stats : SpecStats := { s₁.stats with
    iters := s₁.stats.iters + 1,
    proposed := s₁.stats.proposed + S.numSpeculativeTokens,
    accepted := s₁.stats.accepted + n } with hstats₂
  obtain ⟨r₃, s₃, heq₃, -, -, hout₃, hstats₃, hg₃, hcase⟩ :=
    resync_spec (S := S) (s := { s₁ with g := g₂, stats }) htgt hdrf hK torch params t ht hd hts hn
      (show ctx.length = promptIds.length + s₁.out.length by rw [hout, hctx, List.length_append])
  have hround : SpeculativeEngine.round S torch src sid params promptIds.length maxNewTokens eos s =
      settle S torch src sid params promptIds.length maxNewTokens eos ctx.length
        ⟨s.out, ts, rowsAlong Q ctx ts, rowsAlong P ctx ts, P (ctx ++ ts)⟩ s₁ := by
    rw [SpeculativeEngine.round, heq₁]
  rw [hround, settle_ok maxNewTokens eos hrej, heq₃]
  rcases hcase with ⟨msg, rfl⟩ | ⟨rfl, hcoh⟩
  · exact ⟨_, s₃, rfl, Or.inl ⟨msg, rfl⟩⟩
  refine ⟨_, _, rfl, Or.inr ⟨_, rfl, ?_, fun hgo => ?_⟩⟩
  · rw [hdraws, counted, hg₃, hout₃, hstats₃, hstats₂, hstats, hout]
  · have hall := emit_false hgo
    rw [hout₃, hout] at hall
    show Coherent S torch params T Td sid
      (promptIds ++ (emit maxNewTokens eos (ts.take n ++ [t]) s₃.out s₃.stats).2.1) _
    rw [hout₃, hout, hall, ← List.append_assoc]
    exact ⟨hcoh.tgt, hcoh.drf, hcoh.pNext, hcoh.qNext⟩

/-- **The loop** runs out of blocks, or returns what `loopDraws` draws.  By induction on the rounds. -/
theorem loop_draws (htgt : S.tgt = T.runner) (hdrf : S.drf = Td.runner) (hK : 1 ≤ S.numSpeculativeTokens)
    (hQ : ∀ c, (nextProbs torch S.vocab params Td c).length = V)
    (hP : ∀ c, (nextProbs torch S.vocab params T c).length = V) {src : Source R G} (hsrc : src.InRange)
    {promptIds : List ℕ} (maxNewTokens : ℕ) (eos : Option ℕ) (fuel : ℕ) {s : SpecLoop D E R G}
    (h : Coherent S torch params T Td sid (promptIds ++ s.out) s) :
    let v := (loopDraws (nextProbs torch S.vocab params T) (nextProbs torch S.vocab params Td)
      S.numSpeculativeTokens maxNewTokens eos promptIds fuel (s.out, s.stats)).run src s.g
    ∃ r s', loop S torch src sid params promptIds.length maxNewTokens eos fuel s = (r, s') ∧
      ((∃ msg, r = .error (.OutOfBlocksError msg)) ∨
        r = .ok (v.1.1.take maxNewTokens, v.1.2) ∧ s'.g = v.2) := by
  induction fuel generalizing s with
  | zero => exact ⟨_, s, rfl, Or.inr ⟨rfl, rfl⟩⟩
  | succ fuel ih =>
    intro v
    by_cases hlt : s.out.length < maxNewTokens
    · obtain ⟨r, s', heq, ⟨msg, rfl⟩ | ⟨done, rfl, hdraws, hcoh⟩⟩ :=
        round_draws hV htgt hdrf hK hQ hP hsrc maxNewTokens eos h
      · exact ⟨_, s', by rw [loop, if_pos hlt, heq], Or.inl ⟨msg, rfl⟩⟩
      have hv : v = _ := run_whileLoop_succ src _ fuel (decide_eq_true hlt) hdraws
      rw [hv, loop, if_pos hlt, heq]
      cases done with
      | true => exact ⟨_, s', rfl, Or.inr ⟨rfl, rfl⟩⟩
      | false => exact ih (hcoh rfl)
    · have hv : v = ((s.out, s.stats), s.g) := by
        show (whileLoop _ _ (fuel + 1) _).run src s.g = _
        rw [whileLoop, if_neg (by simpa using hlt), run_pure]
      rw [hv, loop, if_neg hlt]
      exact ⟨_, s, rfl, Or.inr ⟨rfl, rfl⟩⟩

/-- **A call of `generate`** runs out of blocks, or returns the text and the counts that `callDraws` draws
and leaves the generator where that leaves it. -/
theorem generate_draws (htgt : S.tgt = T.runner) (hdrf : S.drf = Td.runner) (hK : 1 ≤ S.numSpeculativeTokens)
    (hQ : ∀ c, (nextProbs torch S.vocab params Td c).length = V)
    (hP : ∀ c, (nextProbs torch S.vocab params T c).length = V) {src : Source R G} (hsrc : src.InRange)
    {e : SpeculativeEngine D E R} (hs : e.Sound)
    (hnone : e.tgt.cache.manager.tables.lookup sid = none ∧ e.drf.cache.manager.tables.lookup sid = none)
    (g : G) {promptIds : List ℕ} (h0 : promptIds ≠ []) (maxNewTokens : ℕ) (eos : Option ℕ) :
    let v := (callDraws (nextProbs torch S.vocab params T) (nextProbs torch S.vocab params Td)
      S.numSpeculativeTokens maxNewTokens eos promptIds).run src g
    ∃ r e' g', e.generate S torch src g sid promptIds params maxNewTokens eos = (r, e', g') ∧
      ((∃ msg, r = .error (.OutOfBlocksError msg)) ∨ r = .ok v.1 ∧ g' = v.2) := by
  intro v
  have htake : v.1.1.take maxNewTokens = v.1.1 := by
    refine List.take_of_length_le ?_
    exact ((always_loopDraws hV hQ hP promptIds (.start S.numSpeculativeTokens maxNewTokens eos)).run hsrc
      g).stops.length_le
  obtain ⟨r₁, e₁, heq₁, hs₁, -, hcase⟩ := allocate_spec hs sid promptIds
  unfold generate
  rw [heq₁]
  rcases hcase with ⟨x, rfl, hx⟩ | ⟨rfl, t, u, ht, hnum, hu, hnum'⟩
  · obtain ⟨msg, rfl⟩ := hx hnone.1 hnone.2
    exact ⟨_, _, _, rfl, Or.inl ⟨msg, rfl⟩⟩
  have hbody : ∃ r e₃ g₃, e₁.generateBody S torch src g sid promptIds params maxNewTokens eos =
      (r, e₃, g₃) ∧ e₃.Sound ∧ ((∃ msg, r = .error (.OutOfBlocksError msg)) ∨ r = .ok v.1 ∧ g₃ = v.2) := by
    obtain ⟨r₂, e₂, heq₂, hs₂, -, hcase⟩ := prefill_spec htgt hdrf torch params hs₁ g ht hnum hu hnum'
    have hstats := prefill_stats S torch params e₁ sid promptIds g
    unfold generateBody
    rw [heq₂] at hstats ⊢
    rcases hcase with ⟨msg, rfl⟩ | ⟨hnil, -⟩ | ⟨s, rfl, rfl, hout, hg, hcoh⟩
    · exact ⟨_, e₂, g, rfl, hs₂, Or.inl ⟨msg, rfl⟩⟩
    · exact absurd hnil h0
    have hcoh' : Coherent S torch params T Td sid (promptIds ++ s.out) s := by
      rwa [hout, List.append_nil]
    obtain ⟨hs₃, -⟩ := loop_sound htgt hdrf hK src promptIds maxNewTokens eos maxNewTokens hcoh'
    obtain ⟨r, s', hloop, hcase⟩ := loop_draws hV htgt hdrf hK hQ hP hsrc maxNewTokens eos maxNewTokens hcoh'
    rw [hloop] at hs₃
    refine ⟨r, s'.engine, s'.g, by simp only [hloop], hs₃, hcase.imp id ?_⟩
    rintro ⟨rfl, hg'⟩
    rw [hout, hstats s rfl, hg] at hg' ⊢
    refine ⟨?_, hg'⟩
    show Except.ok (v.1.1.take maxNewTokens, v.1.2) = _
    rw [htake]
  obtain ⟨r₃, e₃, g₃, heq₃, hs₃, hcase⟩ := hbody
  obtain ⟨e₄, heq₄, -, -⟩ := free_spec hs₃ sid
  simp only [heq₃, heq₄]
  exact ⟨r₃, e₄, g₃, rfl, hcase⟩

end Engine

end SpeculativeEngine

open SpeculativeEngine

variable {X D Y E : Type} [Zero D] [Add X] [Zero E] [Add Y]

/-- **A call that fits** returns what `callDraws` draws, after any calls. -/
theorem SpeculativeEngine.Served.generate_draws {V : ℕ} (hV : 0 < V) {T : Transformer X D ℝ}
    {Td : Transformer Y E ℝ} {torch : Torch ℝ} {params : SamplingParams ℝ} {K numBlocks blockSize : ℕ}
    (hK : 1 ≤ K) (hbs : 1 ≤ blockSize)
    (hQ : ∀ c, (nextProbs torch (setup T Td K).vocab params Td c).length = V)
    (hP : ∀ c, (nextProbs torch (setup T Td K).vocab params T c).length = V) {G : Type} {src : Source ℝ G}
    (hsrc : src.InRange) {promptIds : List ℕ} (h0 : promptIds ≠ []) {maxNewTokens : ℕ} (eos : Option ℕ)
    (hfits : (BlockManager.init numBlocks blockSize).blocksNeeded (promptIds.length + maxNewTokens + K) ≤
      numBlocks) {next : ℕ} {e : SpeculativeEngine D E ℝ}
    (he : Served (setup T Td K) torch src (init T Td numBlocks blockSize) next e) (g : G) (sid : ℕ) :
    let v := (callDraws (nextProbs torch (setup T Td K).vocab params T)
      (nextProbs torch (setup T Td K).vocab params Td) K maxNewTokens eos promptIds).run src g
    ∃ e', e.generate (setup T Td K) torch src g sid promptIds params maxNewTokens eos =
      (.ok v.1, e', v.2) := by
  obtain ⟨hidle, hnb, hbs'⟩ := he.idle (T := T) (S := setup T Td K) rfl rfl hK hbs
  obtain ⟨hs, -⟩ := he.sound (T := T) (S := setup T Td K) rfl rfl hK hbs
  obtain ⟨r, e', g', heq, ⟨msg, rfl⟩ | ⟨rfl, rfl⟩⟩ := SpeculativeEngine.generate_draws (T := T)
    (S := setup T Td K) hV rfl rfl hK hQ hP hsrc hs ⟨hidle.tgt.none sid, hidle.drf.none sid⟩ g h0
    maxNewTokens eos
  · obtain ⟨-, -, hshort⟩ := generate_ends (T := T) (S := setup T Td K) rfl rfl hK torch src hidle g sid
      promptIds params maxNewTokens eos heq
    have hlt := hshort msg rfl
    have hneed : e.tgt.cache.manager.blocksNeeded (promptIds.length + maxNewTokens + K) =
        (BlockManager.init numBlocks blockSize).blocksNeeded (promptIds.length + maxNewTokens + K) :=
      BlockManager.blocksNeeded_congr hbs' _
    rw [hnb] at hlt
    exact absurd (hlt.trans_eq hneed) (not_lt.2 hfits)
  · exact ⟨e', heq⟩

/-- **What speculation saves.**  The models and the pools are as in `speculative_lossless`.  Then there is
one program such that after any calls, against any generator that draws indices of the rows, a call of
`generate` returns the text and the counts that the program draws, and has called the target
`1 + 2 * iters` times and the draft `1 + K * iters` times.  Whatever is drawn, the counts are those of
the text (`Tally`).  The text has the law of decoding token by token with the target, which calls it once
for each token.  Where the distributions of draft and target overlap by `β` at least, along every
continuation of the prompt, the expected number of rounds times `1 + β + … + β ^ K` is at most the
expected number of tokens plus `K`; where they overlap by `β` at most, it is at least the expected number
of tokens. -/
theorem speculative_speedup (T : Transformer X D ℝ) (Td : Transformer Y E ℝ) {torch : Torch ℝ}
    (htorch : torch.Lawful) {K numBlocks blockSize : ℕ} (hK : 1 ≤ K) (hbs : 1 ≤ blockSize)
    (hV : 0 < T.vocabSize) (hV' : 0 < Td.vocabSize) (hrow : ∀ x, (T.lmHead x).length = T.vocabSize)
    (hrow' : ∀ y, (Td.lmHead y).length = Td.vocabSize) (params : SamplingParams ℝ) {promptIds : List ℕ}
    (h0 : promptIds ≠ []) (maxNewTokens : ℕ) (eos : Option ℕ)
    (hfits : (BlockManager.init numBlocks blockSize).blocksNeeded (promptIds.length + maxNewTokens + K) ≤
      numBlocks) :
    let S := setup T Td K
    let P := nextProbs torch S.vocab params T
    let Q := nextProbs torch S.vocab params Td
    let plain := decode (fun c => sampleFromProbs (P c)) (isEos eos) maxNewTokens promptIds
    let overlap := fun l => ∑ t ∈ Finset.range S.vocab,
      min ((Q (promptIds ++ l)).getD t 0) ((P (promptIds ++ l)).getD t 0)
    ∃ x : RandM ℝ (List ℕ × SpecStats),
      (∀ {G : Type} (src : Source ℝ G), src.InRange → ∀ next e,
        Served S torch src (init T Td numBlocks blockSize) next e → ∀ g sid, ∃ e',
          e.generate S torch src g sid promptIds params maxNewTokens eos =
            (.ok (x.run src g).1, e', (x.run src g).2) ∧
          Forwards e e' (1 + 2 * (x.run src g).1.2.iters) (1 + K * (x.run src g).1.2.iters)) ∧
      x.Always (Tally K maxNewTokens eos) ∧
      (∀ f, (x.expect fun r => f r.1) = plain.expect f) ∧
      (∀ β, 0 ≤ β → (∀ l, β ≤ overlap l) → (x.expect fun r => (r.2.iters : ℝ)) *
        ∑ k ∈ Finset.range (K + 1), β ^ k ≤ (plain.expect fun ts => (ts.length : ℝ)) + K) ∧
      ∀ β, (∀ l, overlap l ≤ β) → (plain.expect fun ts => (ts.length : ℝ)) ≤
        (x.expect fun r => (r.2.iters : ℝ)) * ∑ k ∈ Finset.range (K + 1), β ^ k := by
  intro S P Q plain overlap
  have hmin : 0 < S.vocab := lt_min hV hV'
  have htake : ∀ c, ((T.nextLogits c).take S.vocab).length = S.vocab := fun c => by
    rw [List.length_take, show (T.nextLogits c).length = T.vocabSize from hrow _]
    exact min_eq_left (min_le_left _ _)
  have htake' : ∀ c, ((Td.nextLogits c).take S.vocab).length = S.vocab := fun c => by
    rw [List.length_take, show (Td.nextLogits c).length = Td.vocabSize from hrow' _]
    exact min_eq_left (min_le_right _ _)
  -- the distributions that the engine carries
  let p : List ℕ → Dist S.vocab := fun c => distOf htorch params hmin (htake c)
  let q : List ℕ → Dist S.vocab := fun c => distOf htorch params hmin (htake' c)
  have hP : ∀ c, (P c).length = S.vocab := fun c => (p c).length
  have hQ : ∀ c, (Q c).length = S.vocab := fun c => (q c).length
  set x := callDraws P Q K maxNewTokens eos promptIds with hx
  have hxavg : x.Averages := averages_callDraws q p promptIds K maxNewTokens eos
  have htally : x.Always (Tally K maxNewTokens eos) :=
    always_loopDraws hmin hQ hP promptIds (.start K maxNewTokens eos)
  have hlaw : ∀ f, (x.expect fun r => f r.1) = plain.expect f := fun f => by
    rcases Nat.eq_zero_or_pos maxNewTokens with rfl | hmax
    · rfl
    · refine (expect_loopDraws_text hmin hQ hP promptIds f maxNewTokens (s := ([], ⟨0, 0, 0, 0⟩))
        hmax).trans ?_
      rw [List.append_nil]
      exact (completes_roundText hmin q p K).chunked (fun c => (p c).lawful_sample) (isEos eos) hmax le_rfl
        promptIds f
  refine ⟨x, fun {G} src hsrc next e he g sid => ?_, htally, hlaw, fun β hβ hover => ?_, fun β hover => ?_⟩
  · obtain ⟨e', heq⟩ := he.generate_draws hmin hK hbs hQ hP hsrc h0 eos hfits g sid
    exact ⟨e', heq, generate_forwards hK heq⟩
  · have hm := le_expect_callDraws hmin q p promptIds K maxNewTokens eos fun l =>
      geom_le_expectedEmitted hmin hβ K (promptIds ++ l) fun l' => by
        rw [List.append_assoc]
        exact hover (l ++ l')
    refine le_trans hm ?_
    rw [← hlaw]
    have hshift := hxavg.lawful 1 K fun r => (r.1.length : ℝ)
    rw [one_mul] at hshift
    refine le_trans (hxavg.mono_of_always htally fun r hr => ?_) hshift.le
    have := hr.le_emitted
    rw [hr.emitted] at this
    rw [one_mul]
    exact_mod_cast this
  · have hm := expect_callDraws_le hmin q p promptIds K maxNewTokens eos fun l =>
      expectedEmitted_le_geom hmin K (promptIds ++ l) fun l' => by
        rw [List.append_assoc]
        exact hover (l ++ l')
    refine le_trans ?_ hm
    rw [← hlaw]
    refine hxavg.mono_of_always htally fun r hr => ?_
    have := hr.emitted_le
    rw [hr.emitted] at this
    exact_mod_cast this

/-- The hypotheses are satisfiable: at temperature one, with top-2 and top-p, a draft that is the target
itself overlaps with it by one, so that a round of two drafts emits three tokens. -/
theorem speculative_speedup_self :
    let torch : Torch ℝ := ⟨Real.exp, stableSort⟩
    let params : SamplingParams ℝ := ⟨1, 9 / 10, 2⟩
    let P := nextProbs torch 3 params (shiftModel 0)
    let plain := decode (fun c => sampleFromProbs (P c)) (isEos none) 3 [0, 1]
    ∃ x : RandM ℝ (List ℕ × SpecStats), x.Always (Tally 2 3 none) ∧
      (x.expect fun r => (r.2.iters : ℝ)) * 3 ≤ (plain.expect fun ts => (ts.length : ℝ)) + 2 ∧
      (plain.expect fun ts => (ts.length : ℝ)) ≤ (x.expect fun r => (r.2.iters : ℝ)) * 3 := by
  intro torch params P plain
  have htorch : torch.Lawful := lawful_stableSort Real.exp_pos
  have hlen : ∀ x, ((shiftModel 0).lmHead x).length = (shiftModel 0).vocabSize := fun x => rfl
  obtain ⟨x, -, htally, -, hge, hle⟩ := speculative_speedup (shiftModel 0) (shiftModel 0) htorch
    (show 1 ≤ 2 by decide) (show 1 ≤ 2 by decide) (by decide) (by decide) hlen hlen params
    (List.cons_ne_nil 0 [1]) 3 none (show (BlockManager.init 8 2).blocksNeeded 7 ≤ 8 by decide)
  have hone : ∀ c, ∑ t ∈ Finset.range 3, min ((P c).getD t 0) ((P c).getD t 0) = 1 := fun c => by
    simp only [min_self]
    exact (distOf htorch params (show 0 < 3 by decide)
      (show (((shiftModel 0).nextLogits c).take 3).length = 3 from rfl)).sum_mass
  have hgeom : ∑ k ∈ Finset.range (2 + 1), (1 : ℝ) ^ k = 3 := by norm_num
  refine ⟨x, htally, ?_, ?_⟩
  · rw [← hgeom]
    exact hge 1 zero_le_one fun l => (hone ([0, 1] ++ l)).ge
  · rw [← hgeom]
    exact hle 1 fun l => (hone ([0, 1] ++ l)).le

end DiSpec
