/-
# The two caches stay coherent

`Coherent` is the invariant of the loop of `SpeculativeEngine.generate`: the text
so far is resident in both caches, and the distributions carried along are those
after it.  `round_spec` is one round of the loop: wherever `rejection_sample` stops,
the emitted tokens extend the text of both caches.  Every head of the loop of some
call is coherent (`speculative_caches_coherent`).

`generate_spec` closes the loop: a call leaves the accounting of both caches sound
and the tables of other sequences alone, so that calls can follow calls
(`Served`).
-/

import DiSpec.Spec.Heads
import DiSpec.Spec.Phases

namespace DiSpec

/-- A round as it should be: `K` drafted tokens, and each row is the distribution after the
drafted tokens before it. -/
structure SpecRound.Conditioned {R : Type} (P Q : List ℕ → List R) (K : ℕ) (ctx : List ℕ)
    (r : SpecRound R) : Prop where
  drafted : r.draftTokens.length = K
  qStack : r.qStack = (List.range K).map fun i => Q (ctx ++ r.draftTokens.take i)
  pStack : r.pStack = (List.range K).map fun i => P (ctx ++ r.draftTokens.take i)
  pBonus : r.pBonus = P (ctx ++ r.draftTokens)

namespace SpeculativeEngine

variable {X D Y E R G : Type}

/-- The accounting of both caches. -/
structure Sound (e : SpeculativeEngine D E R) : Prop where
  tgt : e.tgt.Sound
  drf : e.drf.Sound

/-- Nothing but the table of `sid` changed. -/
structure Touches (e e' : SpeculativeEngine D E R) (sid : ℕ) : Prop where
  tgt : BlockManager.Touches e.tgt.cache.manager e'.tgt.cache.manager sid
  drf : BlockManager.Touches e.drf.cache.manager e'.drf.cache.manager sid

theorem Touches.refl (e : SpeculativeEngine D E R) (sid : ℕ) : Touches e e sid := ⟨.refl _ _, .refl _ _⟩

theorem Touches.trans {e e' e'' : SpeculativeEngine D E R} {sid : ℕ} (h : Touches e e' sid)
    (h' : Touches e' e'' sid) : Touches e e'' sid :=
  ⟨h.tgt.trans h'.tgt, h.drf.trans h'.drf⟩

/-- The caches after some calls: their accounting is sound, and the calls wrote at the end of
the tables of the sequence. -/
structure Advances (e e' : SpeculativeEngine D E R) (sid : ℕ) : Prop where
  sound : e'.Sound
  tgt : Side.WritesAtEnd e.tgt e'.tgt sid
  drf : Side.WritesAtEnd e.drf e'.drf sid

theorem Advances.trans {e e' e'' : SpeculativeEngine D E R} {sid : ℕ} (h : Advances e e' sid)
    (h' : Advances e' e'' sid) : Advances e e'' sid :=
  ⟨h'.sound, h.tgt.trans h'.tgt, h.drf.trans h'.drf⟩

theorem Advances.touches {e e' : SpeculativeEngine D E R} {sid : ℕ} (h : Advances e e' sid) :
    Touches e e' sid := ⟨h.tgt.touches, h.drf.touches⟩

variable [Zero D] [Add X] [Zero E] [Add Y] [Field R] [LinearOrder R]

/-- The text `ctx` is resident in both caches, and the distributions carried are those
after it. -/
structure Coherent (S : SpecSetup X D Y E R) (torch : Torch R) (params : SamplingParams R)
    (T : Transformer X D R) (Td : Transformer Y E R) (sid : ℕ) (ctx : List ℕ) (s : SpecLoop D E R G) :
    Prop where
  tgt : s.engine.tgt.Resident T sid ctx
  drf : s.engine.drf.Resident Td sid ctx
  pNext : s.pNext = nextProbs torch S.vocab params T ctx
  qNext : s.qNext = nextProbs torch S.vocab params Td ctx

variable {S : SpecSetup X D Y E R} {T : Transformer X D R} {Td : Transformer Y E R} {sid : ℕ}
variable {torch : Torch R} {params : SamplingParams R} {ctx : List ℕ}

/-- **Steps 1 and 2** hand over the rows along the drafted tokens. -/
theorem propose_spec (htgt : S.tgt = T.runner) (hdrf : S.drf = Td.runner)
    (hK : 1 ≤ S.numSpeculativeTokens) (src : Source R G) {s : SpecLoop D E R G}
    (h : Coherent S torch params T Td sid ctx s) :
    ∃ r s', propose S torch src sid params s = (r, s') ∧ Advances s.engine s'.engine sid ∧
      ((∃ msg, r = .error (.OutOfBlocksError msg)) ∧ s'.engine.rounds = s.engine.rounds ∨
        ∃ ts rd, r = .ok (ctx.length, rd) ∧ ts.length = S.numSpeculativeTokens ∧
          rd = ⟨s.out, ts, rowsAlong (nextProbs torch S.vocab params Td) ctx ts,
            rowsAlong (nextProbs torch S.vocab params T) ctx ts,
            nextProbs torch S.vocab params T (ctx ++ ts)⟩ ∧
          Drawn src ts rd.qStack ∧ s'.engine.rounds = s.engine.rounds ++ [rd] ∧ s'.out = s.out ∧
          s'.engine.tgt.Resident T sid (ctx ++ ts) ∧
          s'.engine.drf.Resident Td sid (ctx ++ ts.dropLast)) := by
  obtain ⟨⟨tgt, drf, rounds⟩, out, pNext, qNext, stats, g⟩ := s
  obtain ⟨ht, hd, hp, hq⟩ := h
  dsimp only at ht hd hp hq
  obtain ⟨r₁, drf₁, g₁, heq₁, hs₁, hw₁, ⟨msg, rfl⟩ | ⟨ts, rows, rfl, hts, rfl, hd₁, hdrawn⟩⟩ :=
    draft_spec hdrf hK torch src params hd g
  · refine ⟨_, ⟨⟨tgt, drf₁, rounds⟩, out, pNext, qNext, stats, g₁⟩, ?_,
      ⟨⟨ht.toSound, hs₁⟩, .refl tgt sid, hw₁⟩, Or.inl ⟨⟨msg, rfl⟩, rfl⟩⟩
    rw [propose, hq, heq₁]
    rfl
  obtain ⟨r₂, tgt₂, heq₂, hs₂, hw₂, ⟨msg, rfl⟩ | ⟨rfl, ht₂⟩⟩ :=
    verify_spec htgt hK torch params ht hts
  · refine ⟨_, ⟨⟨tgt₂, drf₁, rounds⟩, out, pNext, qNext, stats, g₁⟩, ?_, ⟨⟨hs₂, hs₁⟩, hw₂, hw₁⟩,
      Or.inl ⟨⟨msg, rfl⟩, rfl⟩⟩
    rw [propose, hp, hq, heq₁]
    simp only [SpecLoop.setDrf, heq₂]
    rfl
  · set rd : SpecRound R := ⟨out, ts, rowsAlong (nextProbs torch S.vocab params Td) ctx ts,
      rowsAlong (nextProbs torch S.vocab params T) ctx ts,
      nextProbs torch S.vocab params T (ctx ++ ts)⟩ with hrd
    refine ⟨_, ⟨⟨tgt₂, drf₁, rounds ++ [rd]⟩, out, pNext, qNext, stats, g₁⟩, ?_,
      ⟨⟨hs₂, hs₁⟩, hw₂, hw₁⟩, Or.inr ⟨ts, rd, rfl, hts, rfl, hdrawn, rfl, rfl, ht₂, hd₁⟩⟩
    rw [propose, hp, hq, heq₁]
    simp only [SpecLoop.setDrf, heq₂]
    rfl

/-- **Step 4** makes both caches coherent again. -/
theorem resync_spec (htgt : S.tgt = T.runner) (hdrf : S.drf = Td.runner)
    (hK : 1 ≤ S.numSpeculativeTokens) (torch : Torch R) (params : SamplingParams R) (last : ℕ)
    {promptLen n : ℕ} {ts : List ℕ} {s : SpecLoop D E R G} (ht : s.engine.tgt.Resident T sid (ctx ++ ts))
    (hd : s.engine.drf.Resident Td sid (ctx ++ ts.dropLast))
    (hts : ts.length = S.numSpeculativeTokens) (hn : n ≤ ts.length)
    (hlen : ctx.length = promptLen + s.out.length) :
    ∃ r s', resync S torch sid params promptLen ctx.length n last ts s = (r, s') ∧
      Advances s.engine s'.engine sid ∧ s'.engine.rounds = s.engine.rounds ∧ s'.out = s.out ∧
      s'.stats = s.stats ∧ s'.g = s.g ∧ ((∃ msg, r = .error (.OutOfBlocksError msg)) ∨
        r = .ok () ∧ Coherent S torch params T Td sid (ctx ++ (ts.take n ++ [last])) s') := by
  obtain ⟨⟨tgt, drf, rounds⟩, out, pNext, qNext, stats, g⟩ := s
  obtain ⟨r₁, tgt₁, heq₁, hs₁, hw₁, ⟨msg, rfl⟩ | ⟨rfl, ht₁⟩⟩ :=
    resyncTgt_spec htgt torch params last ht hn
  · refine ⟨_, ⟨⟨tgt₁, drf, rounds⟩, out, pNext, qNext, stats, g⟩, ?_,
      ⟨⟨hs₁, hd.toSound⟩, hw₁, .refl drf sid⟩, rfl, rfl, rfl, rfl, Or.inl ⟨msg, rfl⟩⟩
    rw [resync, heq₁]
    rfl
  obtain ⟨r₂, drf₂, heq₂, hs₂, hw₂, hcase⟩ := resyncDrf_spec hdrf hK torch params last hd hts hn
  rw [hlen] at heq₂
  rcases hcase with ⟨msg, rfl⟩ | ⟨rfl, hd₂⟩
  · refine ⟨_, ⟨⟨tgt₁, drf₂, rounds⟩, out, nextProbs torch S.vocab params T
      (ctx ++ (ts.take n ++ [last])), qNext, stats, g⟩, ?_, ⟨⟨hs₁, hs₂⟩, hw₁, hw₂⟩, rfl, rfl, rfl, rfl,
      Or.inl ⟨msg, rfl⟩⟩
    rw [resync, heq₁]
    simp only [SpecLoop.setTgt, heq₂]
    rfl
  · refine ⟨_, ⟨⟨tgt₁, drf₂, rounds⟩, out,
      nextProbs torch S.vocab params T (ctx ++ (ts.take n ++ [last])),
      nextProbs torch S.vocab params Td (ctx ++ (ts.take n ++ [last])), stats, g⟩, ?_,
      ⟨⟨hs₁, hs₂⟩, hw₁, hw₂⟩, rfl, rfl, rfl, rfl, Or.inr ⟨rfl, ht₁, hd₂, rfl, rfl⟩⟩
    rw [resync, heq₁]
    simp only [SpecLoop.setTgt, heq₂]
    rfl

/-- **One round of the loop** raises, because blocks run out or because a token was drawn
that is no index of its rows, or emits what `rejection_sample` returns for the rows along
the drafted tokens, and both caches are coherent with the text extended by it. -/
theorem round_spec (htgt : S.tgt = T.runner) (hdrf : S.drf = Td.runner)
    (hK : 1 ≤ S.numSpeculativeTokens) (src : Source R G) {promptLen : ℕ} (maxNewTokens : ℕ)
    (eos : Option ℕ) {s : SpecLoop D E R G} (h : Coherent S torch params T Td sid ctx s)
    (hlen : ctx.length = promptLen + s.out.length) :
    let P := nextProbs torch S.vocab params T
    let Q := nextProbs torch S.vocab params Td
    ∃ r s', round S torch src sid params promptLen maxNewTokens eos s = (r, s') ∧
      Advances s.engine s'.engine sid ∧
      (∃ new, s'.engine.rounds = s.engine.rounds ++ new ∧
        ∀ rd ∈ new, rd.out = s.out ∧ rd.Conditioned P Q S.numSpeculativeTokens ctx) ∧
      ((∃ msg, r = .error (.OutOfBlocksError msg)) ∨
        ∃ ts, ts.length = S.numSpeculativeTokens ∧ Drawn src ts (rowsAlong Q ctx ts) ∧
          (¬ InRows ts (rowsAlong Q ctx ts) (rowsAlong P ctx ts) ∧ r = .error .IndexError ∨
            ∃ g n t stats, n ≤ ts.length ∧
              ((rejectionSample (P (ctx ++ ts)) ts (rowsAlong Q ctx ts) (rowsAlong P ctx ts)).run
                src g).1 = .ok (ts.take n ++ [t], n) ∧
              Coherent S torch params T Td sid (ctx ++ (ts.take n ++ [t])) s' ∧
              r = .ok (emit maxNewTokens eos (ts.take n ++ [t]) s.out stats).1 ∧
              s'.out = (emit maxNewTokens eos (ts.take n ++ [t]) s.out stats).2.1)) := by
  intro P Q
  obtain ⟨r₁, s₁, heq₁, hadv₁, ⟨⟨msg, rfl⟩, hrd⟩ | ⟨ts, rd, rfl, hts, hrd, hdrawn, hrounds, hout, ht, hd⟩⟩ :=
    propose_spec htgt hdrf hK src h
  · refine ⟨_, s₁, ?_, hadv₁, ⟨[], by simpa using hrd, by simp⟩, Or.inl ⟨msg, rfl⟩⟩
    rw [round, heq₁]
  have hcond : ∀ r ∈ [rd], r.out = s.out ∧ r.Conditioned P Q S.numSpeculativeTokens ctx := by
    intro r hr
    obtain rfl := List.mem_singleton.1 hr
    subst hrd
    exact ⟨rfl, hts, hts ▸ rowsAlong_eq Q ctx ts, hts ▸ rowsAlong_eq P ctx ts, rfl⟩
  subst hrd
  rcases hrej : (rejectionSample (P (ctx ++ ts)) ts (rowsAlong Q ctx ts) (rowsAlong P ctx ts)).run
    src s₁.g with ⟨r₂, g₂⟩
  have hround : round S torch src sid params promptLen maxNewTokens eos s =
      settle S torch src sid params promptLen maxNewTokens eos ctx.length
        ⟨s.out, ts, rowsAlong Q ctx ts, rowsAlong P ctx ts, P (ctx ++ ts)⟩ s₁ := by
    rw [round, heq₁]
  rw [hround, settle, hrej]
  rcases rejectionSample_eq (P (ctx ++ ts)) src ts (rowsAlong Q ctx ts) (rowsAlong P ctx ts) s₁.g with
    ⟨n, t, hn, hok⟩ | ⟨hrows, herr⟩
  swap
  · rw [hrej] at herr
    obtain rfl : r₂ = .error .IndexError := herr
    exact ⟨_, _, rfl, hadv₁, ⟨_, hrounds, hcond⟩, Or.inr ⟨ts, hts, hdrawn, Or.inl ⟨hrows, rfl⟩⟩⟩
  rw [hrej] at hok
  obtain rfl : r₂ = .ok (ts.take n ++ [t], n) := hok
  simp only [List.getLast?_concat]
  set stats : SpecStats := { s₁.stats with
    iters := s₁.stats.iters + 1,
    proposed := s₁.stats.proposed + S.numSpeculativeTokens,
    accepted := s₁.stats.accepted + n } with hstats
  obtain ⟨r₃, s₃, heq₃, hadv₃, hrounds₃, hout₃, hstats₃, -, hcase⟩ :=
    resync_spec (S := S) (s := { s₁ with g := g₂, stats }) htgt hdrf hK torch params t ht hd hts hn
      (hout ▸ hlen)
  rw [heq₃]
  rcases hcase with ⟨msg, rfl⟩ | ⟨rfl, hcoh⟩
  · exact ⟨_, s₃, rfl, hadv₁.trans hadv₃, ⟨_, hrounds₃.trans hrounds, hcond⟩, Or.inl ⟨msg, rfl⟩⟩
  · refine ⟨_, _, rfl, hadv₁.trans hadv₃, ⟨_, hrounds₃.trans hrounds, hcond⟩, Or.inr ⟨ts, hts, hdrawn,
      Or.inr ⟨s₁.g, n, t, s₃.stats, hn, ?_, ⟨hcoh.tgt, hcoh.drf, hcoh.pNext, hcoh.qNext⟩, ?_, ?_⟩⟩⟩
    · rw [hrej]
    · rw [hout₃, hout]
    · rw [hout₃, hout]

/-! ### A call -/

/-- **The prefill** of both models ends at the head of the loop, coherent with the prompt, or
raises. -/
theorem prefill_spec (htgt : S.tgt = T.runner) (hdrf : S.drf = Td.runner) (torch : Torch R)
    (params : SamplingParams R) {e : SpeculativeEngine D E R} (hs : e.Sound) (g : G)
    {promptIds : List ℕ} {t u : BlockTable}
    (ht : e.tgt.cache.manager.tables.lookup sid = some t) (hnum : t.numTokens = promptIds.length)
    (hu : e.drf.cache.manager.tables.lookup sid = some u) (hnum' : u.numTokens = promptIds.length) :
    ∃ r e', prefill S torch e g sid promptIds params = (r, e') ∧ e'.Sound ∧ Touches e e' sid ∧
      ((∃ msg, r = .error (.OutOfBlocksError msg)) ∨ promptIds = [] ∧ r = .error .IndexError ∨
        ∃ s, r = .ok s ∧ s.engine = e' ∧ s.out = [] ∧ s.g = g ∧
          Coherent S torch params T Td sid promptIds s) := by
  have hempty : ∀ {A B : Type} [Zero B] [Add A] (M : Transformer A B R) (c : PagedKVCache B) ids,
      M.Holds c ids noBase (str []) ([] : List ℕ).length := fun M c ids i _ p hp =>
    absurd hp (Nat.not_lt_zero p)
  obtain ⟨r₁, tgt₁, heq₁, hs₁, hw₁, hcase₁⟩ :=
    Side.forward_spec T [] promptIds hs.tgt ht (Nat.zero_le _) (hempty T _ _)
  obtain ⟨r₂, drf₂, heq₂, hs₂, hw₂, hcase₂⟩ :=
    Side.forward_spec Td [] promptIds hs.drf hu (Nat.zero_le _) (hempty Td _ _)
  rw [List.length_nil] at heq₁ heq₂
  unfold prefill
  rw [htgt, hdrf, heq₁]
  rcases hcase₁ with ⟨⟨msg, rfl⟩, -⟩ | ⟨rfl, ht₁, -⟩
  · exact ⟨_, _, rfl, ⟨hs₁, hs.drf⟩, ⟨hw₁, .refl _ _⟩, Or.inl ⟨msg, rfl⟩⟩
  simp only [heq₂]
  rcases hcase₂ with ⟨⟨msg, rfl⟩, -⟩ | ⟨rfl, hd₂, -⟩
  · exact ⟨_, _, rfl, ⟨hs₁, hs₂⟩, ⟨hw₁, hw₂⟩, Or.inl ⟨msg, rfl⟩⟩
  rcases eq_or_ne promptIds [] with rfl | h0
  · exact ⟨_, _, rfl, ⟨hs₁, hs₂⟩, ⟨hw₁, hw₂⟩, Or.inr (Or.inl ⟨rfl, rfl⟩)⟩
  simp only [lastProbs_rowsAfter torch S.vocab params _ _ h0]
  exact ⟨_, _, rfl, ⟨hs₁, hs₂⟩, ⟨hw₁, hw₂⟩, Or.inr (Or.inr ⟨_, rfl, rfl, rfl, rfl,
    ⟨ht₁, hd₂, rfl, rfl⟩⟩)⟩

omit [Zero D] [Add X] [Zero E] [Add Y] [Field R] [LinearOrder R] in
/-- **The two allocations** give the sequence a table in both caches, or raise. -/
theorem allocate_spec {e : SpeculativeEngine D E R} (hs : e.Sound) (sid : ℕ) (promptIds : List ℕ) :
    ∃ r e', e.allocate sid promptIds = (r, e') ∧ e'.Sound ∧ Touches e e' sid ∧
      ((∃ x, r = .error x ∧ (e.tgt.cache.manager.tables.lookup sid = none →
          e.drf.cache.manager.tables.lookup sid = none → ∃ msg, x = .OutOfBlocksError msg)) ∨
        r = .ok () ∧ ∃ t u, e'.tgt.cache.manager.tables.lookup sid = some t ∧
          t.numTokens = promptIds.length ∧ e'.drf.cache.manager.tables.lookup sid = some u ∧
          u.numTokens = promptIds.length) := by
  obtain ⟨r₁, tgt₁, heq₁, hs₁, hw₁, hcase₁⟩ := Side.allocate_spec hs.tgt sid promptIds.length
  obtain ⟨r₂, drf₂, heq₂, hs₂, hw₂, hcase₂⟩ := Side.allocate_spec hs.drf sid promptIds.length
  unfold allocate
  rw [heq₁]
  rcases hcase₁ with ⟨x, rfl, hx⟩ | ⟨t, rfl, hnum, ht⟩
  · exact ⟨_, _, rfl, ⟨hs₁, hs.drf⟩, ⟨hw₁.touches, .refl _ _⟩, Or.inl ⟨x, rfl, fun h _ => hx h⟩⟩
  simp only [heq₂]
  rcases hcase₂ with ⟨x, rfl, hx⟩ | ⟨u, rfl, hnum', hu⟩
  · exact ⟨_, _, rfl, ⟨hs₁, hs₂⟩, ⟨hw₁.touches, hw₂.touches⟩, Or.inl ⟨x, rfl, fun _ h => hx h⟩⟩
  · exact ⟨_, _, rfl, ⟨hs₁, hs₂⟩, ⟨hw₁.touches, hw₂.touches⟩, Or.inr ⟨rfl, t, u, ht, hnum, hu, hnum'⟩⟩

omit [Zero D] [Add X] [Zero E] [Add Y] [Field R] [LinearOrder R] in
/-- **The two calls of `free`** never raise. -/
theorem free_spec {e : SpeculativeEngine D E R} (hs : e.Sound) (sid : ℕ) :
    ∃ e', e.free sid = (.ok (), e') ∧ e'.Sound ∧ Touches e e' sid := by
  obtain ⟨tgt₁, heq₁, hs₁, hw₁, -⟩ := Side.free_spec hs.tgt sid
  obtain ⟨drf₂, heq₂, hs₂, hw₂, -⟩ := Side.free_spec hs.drf sid
  refine ⟨{ e with tgt := tgt₁, drf := drf₂ }, ?_, ⟨hs₁, hs₂⟩, ⟨hw₁.touches, hw₂.touches⟩⟩
  unfold free
  rw [heq₁]
  simp only [heq₂]

/-- **The loop** keeps the accounting of both caches. -/
theorem loop_sound (htgt : S.tgt = T.runner) (hdrf : S.drf = Td.runner)
    (hK : 1 ≤ S.numSpeculativeTokens) (src : Source R G) (promptIds : List ℕ) (maxNewTokens : ℕ)
    (eos : Option ℕ) (fuel : ℕ) {s : SpecLoop D E R G}
    (h : Coherent S torch params T Td sid (promptIds ++ s.out) s) :
    let s' := (loop S torch src sid params promptIds.length maxNewTokens eos fuel s).2
    s'.engine.Sound ∧ Touches s.engine s'.engine sid := by
  induction fuel generalizing s with
  | zero => exact ⟨⟨h.tgt.toSound, h.drf.toSound⟩, .refl _ _⟩
  | succ fuel ih =>
    rw [loop]
    split
    swap
    · exact ⟨⟨h.tgt.toSound, h.drf.toSound⟩, .refl _ _⟩
    obtain ⟨r, s', heq, hadv, -, hcase⟩ := round_spec htgt hdrf hK src maxNewTokens eos h List.length_append
    rw [heq]
    rcases hcase with ⟨msg, rfl⟩ | ⟨ts, -, -, ⟨-, rfl⟩ | ⟨g₁, n, t, stats, -, -, hcoh, rfl, hout⟩⟩
    · exact ⟨hadv.sound, hadv.touches⟩
    · exact ⟨hadv.sound, hadv.touches⟩
    rcases hdone : (emit maxNewTokens eos (ts.take n ++ [t]) s.out stats).1 with - | -
    · rw [emit_false hdone] at hout
      rw [List.append_assoc, ← hout] at hcoh
      obtain ⟨hs, ht⟩ := ih hcoh
      exact ⟨hs, hadv.touches.trans ht⟩
    · exact ⟨hadv.sound, hadv.touches⟩

/-- **A call of `generate`** keeps the accounting of both caches and the other tables. -/
theorem generate_sound (htgt : S.tgt = T.runner) (hdrf : S.drf = Td.runner)
    (hK : 1 ≤ S.numSpeculativeTokens) (torch : Torch R) (src : Source R G)
    {e : SpeculativeEngine D E R} (hs : e.Sound) (g : G) (sid : ℕ) (promptIds : List ℕ)
    (params : SamplingParams R) (maxNewTokens : ℕ) (eos : Option ℕ) :
    let e' := (e.generate S torch src g sid promptIds params maxNewTokens eos).2.1
    e'.Sound ∧ Touches e e' sid := by
  obtain ⟨r₁, e₁, heq₁, hs₁, ht₁, hcase⟩ := allocate_spec hs sid promptIds
  unfold generate
  rw [heq₁]
  rcases hcase with ⟨x, rfl, -⟩ | ⟨rfl, t, u, ht, hnum, hu, hnum'⟩
  · exact ⟨hs₁, ht₁⟩
  have hbody : ∃ r e₂ g₂, e₁.generateBody S torch src g sid promptIds params maxNewTokens eos =
      (r, e₂, g₂) ∧ e₂.Sound ∧ Touches e₁ e₂ sid := by
    obtain ⟨r₂, e₂, heq₂, hs₂, ht₂, hcase⟩ :=
      prefill_spec htgt hdrf torch params hs₁ g ht hnum hu hnum'
    unfold generateBody
    rw [heq₂]
    rcases hcase with ⟨msg, rfl⟩ | ⟨-, rfl⟩ | ⟨s, rfl, rfl, hout, -, hcoh⟩
    · exact ⟨_, e₂, g, rfl, hs₂, ht₂⟩
    · exact ⟨_, e₂, g, rfl, hs₂, ht₂⟩
    · obtain ⟨hs₃, ht₃⟩ := loop_sound htgt hdrf hK src promptIds maxNewTokens eos maxNewTokens
        (by rwa [hout, List.append_nil])
      exact ⟨_, _, _, rfl, hs₃, ht₂.trans ht₃⟩
  obtain ⟨r₂, e₂, g₂, heq₂, hs₂, ht₂⟩ := hbody
  obtain ⟨e₃, heq₃, hs₃, ht₃⟩ := free_spec hs₂ sid
  simp only [heq₂, heq₃]
  exact ⟨hs₃, (ht₁.trans ht₂).trans ht₃⟩

/-- The engines reached by calls of `generate`.  The ids of the calls grow, and those so far
are below the index. -/
inductive Served (S : SpecSetup X D Y E R) (torch : Torch R) (src : Source R G)
    (e₀ : SpeculativeEngine D E R) : ℕ → SpeculativeEngine D E R → Prop
  | start : Served S torch src e₀ 0 e₀
  | call {n : ℕ} {e : SpeculativeEngine D E R} (g : G) (sid : ℕ) (promptIds : List ℕ)
      (params : SamplingParams R) (maxNewTokens : ℕ) (eos : Option ℕ) (hsid : n ≤ sid)
      (h : Served S torch src e₀ n e) :
      Served S torch src e₀ (sid + 1)
        (e.generate S torch src g sid promptIds params maxNewTokens eos).2.1

omit [Add X] [Add Y] [Field R] [LinearOrder R] in
/-- A new engine has no table and nothing in use. -/
theorem init_sound (T : Transformer X D R) (Td : Transformer Y E R) (numBlocks : ℕ) {blockSize : ℕ}
    (hbs : 1 ≤ blockSize) : (init T Td numBlocks blockSize).Sound :=
  ⟨⟨BlockManager.init_accounted numBlocks blockSize, hbs⟩,
    ⟨BlockManager.init_accounted numBlocks blockSize, hbs⟩⟩

/-- After any calls the accounting is sound, and the ids to come have no table. -/
theorem Served.sound (htgt : S.tgt = T.runner) (hdrf : S.drf = Td.runner)
    (hK : 1 ≤ S.numSpeculativeTokens) {src : Source R G} {numBlocks blockSize n : ℕ}
    (hbs : 1 ≤ blockSize) {e : SpeculativeEngine D E R}
    (h : Served S torch src (init T Td numBlocks blockSize) n e) :
    e.Sound ∧ ∀ sid, n ≤ sid → e.tgt.cache.manager.tables.lookup sid = none ∧
      e.drf.cache.manager.tables.lookup sid = none := by
  induction h with
  | start => exact ⟨init_sound T Td numBlocks hbs, fun sid _ => ⟨rfl, rfl⟩⟩
  | @call n e g sid promptIds params maxNewTokens eos hsid _ ih =>
    obtain ⟨hs, hno⟩ := ih
    obtain ⟨hs', ht⟩ := generate_sound htgt hdrf hK torch src hs g sid promptIds params maxNewTokens eos
    refine ⟨hs', fun s hle => ?_⟩
    rw [ht.tgt.others s (by omega), ht.drf.others s (by omega)]
    exact hno s (by omega)

/-- **Every head of the loop is coherent**, by induction on the rounds. -/
theorem Head.coherent (htgt : S.tgt = T.runner) (hdrf : S.drf = Td.runner)
    (hK : 1 ≤ S.numSpeculativeTokens) {src : Source R G} {e : SpeculativeEngine D E R} (hs : e.Sound)
    {g : G} {promptIds : List ℕ} {maxNewTokens : ℕ} {eos : Option ℕ} {s : SpecLoop D E R G}
    (h : Head S torch src e g sid promptIds params maxNewTokens eos s) :
    Coherent S torch params T Td sid (promptIds ++ s.out) s := by
  induction h with
  | @enter s halloc hpre =>
    obtain ⟨r₁, e₁, heq₁, hs₁, -, ⟨x, rfl, -⟩ | ⟨rfl, t, u, ht, hnum, hu, hnum'⟩⟩ :=
      allocate_spec hs sid promptIds
    · rw [heq₁] at halloc
      cases halloc
    rw [heq₁] at hpre
    obtain ⟨r₂, e₂, heq₂, -, -, hcase⟩ := prefill_spec htgt hdrf torch params hs₁ g ht hnum hu hnum'
    rw [heq₂] at hpre
    rcases hcase with ⟨msg, rfl⟩ | ⟨-, rfl⟩ | ⟨s', rfl, -, hout, -, hcoh⟩
    · cases hpre
    · cases hpre
    · obtain rfl := Except.ok.inj hpre
      rwa [hout, List.append_nil]
  | @round s _ hlt hgo ih =>
    obtain ⟨r, s', heq, -, -, hcase⟩ := round_spec htgt hdrf hK src maxNewTokens eos ih List.length_append
    rw [heq] at hgo ⊢
    rcases hcase with ⟨msg, rfl⟩ | ⟨ts, -, -, ⟨-, rfl⟩ | ⟨g₁, n, t, stats, -, -, hcoh, rfl, hout⟩⟩
    · cases hgo
    · cases hgo
    · rw [emit_false (Except.ok.inj hgo)] at hout
      rwa [List.append_assoc, ← hout] at hcoh

end SpeculativeEngine

open SpeculativeEngine

variable {X D Y E R G : Type} [Zero D] [Add X] [Zero E] [Add Y] [Field R] [LinearOrder R]

/-- **The speculative loop keeps both caches coherent.**  After any calls, at the head of
every round of the next one: prompt and text are resident in both caches, and the
distributions carried are those after them; and in the round every call of `_forward`
writes at the end of its table, and every row handed to `rejection_sample` is the
distribution after the drafted tokens before it. -/
theorem speculative_caches_coherent (T : Transformer X D R) (Td : Transformer Y E R) (torch : Torch R)
    (src : Source R G) {K numBlocks blockSize next : ℕ} (hK : 1 ≤ K) (hbs : 1 ≤ blockSize)
    {e : SpeculativeEngine D E R}
    (he : Served (setup T Td K) torch src (init T Td numBlocks blockSize) next e) {g : G} {sid : ℕ}
    {promptIds : List ℕ} {params : SamplingParams R} {maxNewTokens : ℕ} {eos : Option ℕ}
    {s : SpecLoop D E R G}
    (h : Head (setup T Td K) torch src e g sid promptIds params maxNewTokens eos s) :
    Coherent (setup T Td K) torch params T Td sid (promptIds ++ s.out) s ∧
      let s' := (round (setup T Td K) torch src sid params promptIds.length maxNewTokens eos s).2
      Side.WritesAtEnd s.engine.tgt s'.engine.tgt sid ∧
      Side.WritesAtEnd s.engine.drf s'.engine.drf sid ∧
      ∃ new, s'.engine.rounds = s.engine.rounds ++ new ∧ ∀ rd ∈ new, rd.out = s.out ∧
        rd.Conditioned (nextProbs torch (setup T Td K).vocab params T)
          (nextProbs torch (setup T Td K).vocab params Td) K (promptIds ++ s.out) := by
  obtain ⟨hs, -⟩ := he.sound (T := T) (S := setup T Td K) rfl rfl hK hbs
  have hcoh := h.coherent (T := T) (S := setup T Td K) rfl rfl hK hs
  obtain ⟨r, s', heq, hadv, hrounds, -⟩ := round_spec (T := T) (S := setup T Td K) rfl rfl hK src
    maxNewTokens eos hcoh List.length_append
  rw [heq]
  exact ⟨hcoh, hadv.tgt, hadv.drf, hrounds⟩

/-- The hypotheses are satisfiable: a round in which the first of two drafted tokens is
rejected. -/
theorem speculative_caches_coherent_rejected :
    let torch : Torch ℚ := ⟨id, fun _ => []⟩
    let src : Source ℚ Unit := ⟨fun g => (0, g), fun w g => (argmax w, g)⟩
    let draft := { sumModel with norm := fun x => x + 1 }
    let e := init sumModel draft 8 2
    ∃ s, Head (setup sumModel draft 2) torch src e () 0 [0, 1] .default 9 none s ∧ s.out = [1] ∧
      Coherent (setup sumModel draft 2) torch .default sumModel draft 0 ([0, 1] ++ s.out) s := by
  intro torch src draft e
  have hrun : (match (prefill (setup sumModel draft 2) torch (e.allocate 0 [0, 1]).2 () 0 [0, 1]
      .default).1 with
    | .ok s => decide ((round (setup sumModel draft 2) torch src 0 .default 2 9 none s).1 = .ok false ∧
        (round (setup sumModel draft 2) torch src 0 .default 2 9 none s).2.out = [1] ∧ s.out = [])
    | .error _ => false) = true := by decide +kernel
  split at hrun
  · next s hpre =>
    obtain ⟨hgo, hout, hnil⟩ := of_decide_eq_true hrun
    have hhead := Head.round (.enter (by decide +kernel) hpre) (hnil ▸ by decide) hgo
    exact ⟨_, hhead, hout,
      (speculative_caches_coherent sumModel draft torch src (by decide) (by decide) .start hhead).1⟩
  · cases hrun

end DiSpec
