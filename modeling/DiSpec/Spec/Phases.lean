/-
# The steps of a speculative round

What the four steps of a round before emission do to a text `ctx` that is resident in
both caches.  `nextProbs` is what the engine takes for the distribution after a
text.  Drafting leaves the draft's cache at the drafted tokens but the last
(`draft_spec`), verifying the target's at all of them (`verify_spec`); their
distributions are the rows along the drafted tokens.  The two resynchronisations
meet again at the accepted tokens and one more (`resyncTgt_spec`, `resyncDrf_spec`),
wherever the first rejection was.

Every step may raise `OutOfBlocksError` instead.
-/

import DiSpec.Spec.Resident

namespace DiSpec

namespace SpeculativeEngine

variable {X D Y E R G : Type} [Zero D] [Add X] [Zero E] [Add Y] [Field R] [LinearOrder R]

/-- The distribution after `toks`, as the engine computes it. -/
def nextProbs (torch : Torch R) (vocab : ℕ) (params : SamplingParams R) (T : Transformer X D R)
    (toks : List ℕ) : List R := probs torch vocab params (T.nextLogits toks)

/-- Each token was drawn from its row. -/
def Drawn (src : Source R G) : (ts : List ℕ) → (rows : List (List R)) → Prop :=
  List.Forall₂ fun t row => ∃ g, (src.multinomial row g).1 = t

theorem lastProbs_rowsAfter (torch : Torch R) (vocab : ℕ) (params : SamplingParams R)
    (T : Transformer X D R) (toks : List ℕ) {new : List ℕ} (h : new ≠ []) :
    lastProbs torch vocab params (T.rowsAfter toks new) =
      .ok (nextProbs torch vocab params T (toks ++ new)) := by
  rw [lastProbs, Side.getLast?_rowsAfter T toks h]
  rfl

variable {S : SpecSetup X D Y E R} {T : Transformer X D R} {Td : Transformer Y E R} {sid : ℕ}
variable {drf : Side E} {tgt : Side D} {ctx toks ts : List ℕ}

omit [Zero D] [Add X] [Zero E] [Add Y] in
/-- The drafting loop after its first forward. -/
theorem draftRest_succ (torch : Torch R) (src : Source R G) {params : SamplingParams R} (n : ℕ) {tok : ℕ}
    {drf drf₁ : Side E} {dl : List (List R)} {qd : List R} (heq : drf.extend S.drf sid [tok] = (.ok dl, drf₁))
    (hqd : lastProbs torch S.vocab params dl = .ok qd) (g : G) :
    draftRest S torch src sid params (n + 1) tok drf g =
      match draftRest S torch src sid params n (src.multinomial qd g).1 drf₁ (src.multinomial qd g).2 with
      | (.error x, drf, g') => (.error x, drf, g')
      | (.ok (ts, rows), drf, g') => (.ok ((src.multinomial qd g).1 :: ts, qd :: rows), drf, g') := by
  rw [draftRest, heq]
  simp only [hqd]
  rfl

omit [Zero D] [Add X] [Zero E] [Add Y] in
theorem draft_eq (S : SpecSetup X D Y E R) (torch : Torch R) (src : Source R G) (sid : ℕ)
    (params : SamplingParams R) (q : List R) (drf : Side E) (g : G) :
    draft S torch src sid params q drf g =
      match draftRest S torch src sid params (S.numSpeculativeTokens - 1) (src.multinomial q g).1 drf
        (src.multinomial q g).2 with
      | (.error x, drf, g') => (.error x, drf, g')
      | (.ok (ts, rows), drf, g') => (.ok ((src.multinomial q g).1 :: ts, q :: rows), drf, g') := rfl

omit [Zero D] [Add X] in
/-- **The drafting loop** after `tok` forwards every token but the last. -/
theorem draftRest_spec (hdrf : S.drf = Td.runner) (torch : Torch R) (src : Source R G)
    (params : SamplingParams R) (n tok : ℕ) (h : drf.Resident Td sid toks) (g : G) :
    ∃ r drf' g', draftRest S torch src sid params n tok drf g = (r, drf', g') ∧ drf'.Sound ∧
      Side.WritesAtEnd drf drf' sid ∧ ((∃ msg, r = .error (.OutOfBlocksError msg)) ∨
        ∃ ts rows, r = .ok (ts, rows) ∧ ts.length = n ∧
          rows = rowsAlong (nextProbs torch S.vocab params Td) (toks ++ [tok]) ts ∧
          drf'.Resident Td sid (toks ++ (tok :: ts).dropLast) ∧ Drawn src ts rows) := by
  induction n generalizing tok drf toks g with
  | zero =>
    refine ⟨_, drf, g, rfl, h.toSound, .refl drf sid, Or.inr ⟨[], [], rfl, rfl, rfl, ?_, .nil⟩⟩
    rw [List.dropLast_singleton, List.append_nil]
    exact h
  | succ n ih =>
    obtain ⟨r₁, drf₁, heq, hs₁, hw₁, ⟨msg, rfl⟩ | ⟨rfl, h₁⟩⟩ := h.extend [tok]
    · refine ⟨_, drf₁, g, ?_, hs₁, hw₁, Or.inl ⟨msg, rfl⟩⟩
      rw [draftRest, hdrf, heq]
    set qd := nextProbs torch S.vocab params Td (toks ++ [tok]) with hqd
    set t := (src.multinomial qd g).1 with ht
    set g₁ := (src.multinomial qd g).2 with hg₁
    have hstep := draftRest_succ torch src n (S := S) (hdrf ▸ heq)
      (lastProbs_rowsAfter torch S.vocab params Td toks (List.cons_ne_nil tok [])) g
    rw [← hqd, ← ht, ← hg₁] at hstep
    obtain ⟨r₂, drf₂, g₂, heq₂, hs₂, hw₂, ⟨msg, rfl⟩ | ⟨ts, rows, rfl, hlen, hrows, h₂, hdrawn⟩⟩ :=
      ih t h₁ g₁
    · refine ⟨_, drf₂, g₂, ?_, hs₂, hw₁.trans hw₂, Or.inl ⟨msg, rfl⟩⟩
      rw [hstep, heq₂]
    · refine ⟨_, drf₂, g₂, ?_, hs₂, hw₁.trans hw₂, Or.inr ⟨t :: ts, qd :: rows, rfl, ?_, ?_, ?_,
        .cons ⟨g, rfl⟩ hdrawn⟩⟩
      · rw [hstep, heq₂]
      · rw [List.length_cons, hlen]
      · rw [hrows, rowsAlong]
      · rw [List.append_assoc] at h₂
        exact h₂

omit [Zero D] [Add X] in
/-- **Step 1** drafts `K` tokens, each from the distribution after those before it. -/
theorem draft_spec (hdrf : S.drf = Td.runner) (hK : 1 ≤ S.numSpeculativeTokens) (torch : Torch R)
    (src : Source R G) (params : SamplingParams R) (h : drf.Resident Td sid ctx) (g : G) :
    ∃ r drf' g', draft S torch src sid params (nextProbs torch S.vocab params Td ctx) drf g =
        (r, drf', g') ∧ drf'.Sound ∧
      Side.WritesAtEnd drf drf' sid ∧ ((∃ msg, r = .error (.OutOfBlocksError msg)) ∨
        ∃ ts rows, r = .ok (ts, rows) ∧ ts.length = S.numSpeculativeTokens ∧
          rows = rowsAlong (nextProbs torch S.vocab params Td) ctx ts ∧
          drf'.Resident Td sid (ctx ++ ts.dropLast) ∧ Drawn src ts rows) := by
  set q := nextProbs torch S.vocab params Td ctx with hq
  set t := (src.multinomial q g).1 with ht
  set g₁ := (src.multinomial q g).2 with hg₁
  have hstep := draft_eq S torch src sid params q drf g
  rw [← ht, ← hg₁] at hstep
  obtain ⟨r, drf', g', heq, hs, hw, ⟨msg, rfl⟩ | ⟨ts, rows, rfl, hlen, hrows, h', hdrawn⟩⟩ :=
    draftRest_spec hdrf torch src params (S.numSpeculativeTokens - 1) t h g₁
  · refine ⟨_, drf', g', ?_, hs, hw, Or.inl ⟨msg, rfl⟩⟩
    rw [hstep, heq]
  · refine ⟨_, drf', g', ?_, hs, hw, Or.inr ⟨t :: ts, q :: rows, rfl, ?_, ?_, h',
      .cons ⟨g, rfl⟩ hdrawn⟩⟩
    · rw [hstep, heq]
    · rw [List.length_cons, hlen]
      omega
    · rw [hrows, rowsAlong]

omit [Zero E] [Add Y] in
/-- **Step 2** verifies the draft: the rows of the target along the drafted tokens. -/
theorem verify_spec (htgt : S.tgt = T.runner) (hK : 1 ≤ S.numSpeculativeTokens) (torch : Torch R)
    (params : SamplingParams R) (h : tgt.Resident T sid ctx) (hlen : ts.length = S.numSpeculativeTokens) :
    ∃ r tgt', verify S torch sid params (nextProbs torch S.vocab params T ctx) ts tgt = (r, tgt') ∧
      tgt'.Sound ∧ Side.WritesAtEnd tgt tgt' sid ∧ ((∃ msg, r = .error (.OutOfBlocksError msg)) ∨
        r = .ok (ctx.length, rowsAlong (nextProbs torch S.vocab params T) ctx ts,
          nextProbs torch S.vocab params T (ctx ++ ts)) ∧ tgt'.Resident T sid (ctx ++ ts)) := by
  obtain ⟨t, ht, hnum, -⟩ := h.table
  have hget : tgt.cache.manager.blockTable sid = .ok t := by rw [BlockManager.blockTable, ht]
  obtain ⟨r, tgt', heq, hs, hw, ⟨msg, rfl⟩ | ⟨rfl, h'⟩⟩ := h.forward ts
  · refine ⟨_, tgt', ?_, hs, hw, Or.inl ⟨msg, rfl⟩⟩
    rw [verify, hget, htgt]
    simp only [hnum, heq]
  refine ⟨_, tgt', ?_, hs, hw, Or.inr ⟨rfl, h'⟩⟩
  obtain ⟨k, hk⟩ := Nat.exists_eq_add_of_le' hK
  have hts : ts.length = k + 1 := hlen.trans hk
  have hrow : (T.rowsAfter ctx ts)[k]? = some (T.nextLogits (ctx ++ ts)) := by
    rw [Transformer.rowsAfter, List.getElem?_map, List.getElem?_range (by omega), Option.map_some,
      List.take_of_length_le hts.le]
  have hstack : nextProbs torch S.vocab params T ctx ::
      ((T.rowsAfter ctx ts).take k).map (probs torch S.vocab params) =
        rowsAlong (nextProbs torch S.vocab params T) ctx ts := by
    rw [rowsAlong_eq, hts, List.range_succ_eq_map, List.map_cons, List.map_map, List.take_zero,
      List.append_nil, Transformer.rowsAfter, ← List.map_take, List.map_map, List.take_range, hts,
      min_eq_left (Nat.le_succ k)]
    rfl
  rw [verify, hget, htgt]
  simp only [hnum, heq, hk, Nat.add_sub_cancel, hrow]
  rw [← hstack]
  rfl

omit [Zero E] [Add Y] in
/-- **Step 4 for the target**: the accepted tokens and the last emitted one. -/
theorem resyncTgt_spec (htgt : S.tgt = T.runner) (torch : Torch R) (params : SamplingParams R)
    (last : ℕ) (h : tgt.Resident T sid (ctx ++ ts)) {n : ℕ} (hn : n ≤ ts.length) :
    ∃ r tgt', resyncTgt S torch sid params ctx.length n last tgt = (r, tgt') ∧ tgt'.Sound ∧
      Side.WritesAtEnd tgt tgt' sid ∧ ((∃ msg, r = .error (.OutOfBlocksError msg)) ∨
        r = .ok (nextProbs torch S.vocab params T (ctx ++ (ts.take n ++ [last]))) ∧
          tgt'.Resident T sid (ctx ++ (ts.take n ++ [last]))) := by
  obtain ⟨tgt₁, htrunc, hw₁, h₁⟩ := h.truncate (n := ctx.length + n) (by rw [List.length_append]; omega)
  rw [List.take_length_add_append] at h₁
  have hlen : (ctx ++ ts.take n).length = ctx.length + n := by
    rw [List.length_append, List.length_take, min_eq_left hn]
  obtain ⟨r, tgt₂, heq, hs, hw₂, hcase⟩ := h₁.forward [last]
  rw [hlen] at heq
  rcases hcase with ⟨msg, rfl⟩ | ⟨rfl, h₂⟩
  · refine ⟨_, tgt₂, ?_, hs, hw₁.trans hw₂, Or.inl ⟨msg, rfl⟩⟩
    rw [resyncTgt, htrunc, htgt]
    simp only [heq]
  · rw [List.append_assoc] at h₂
    refine ⟨_, tgt₂, ?_, hs, hw₁.trans hw₂, Or.inr ⟨rfl, h₂⟩⟩
    rw [resyncTgt, htrunc, htgt]
    simp only [heq, lastProbs_rowsAfter torch S.vocab params T _ (List.cons_ne_nil last [])]
    rw [List.append_assoc]

/-- **Where the draft is cut**: what is kept and what is forwarded make up the accepted
tokens and the last emitted one. -/
theorem draftCut_spec {K : ℕ} (hlen : ts.length = K) (hK : 1 ≤ K) (ctx : List ℕ) (last : ℕ)
    {n : ℕ} (hn : n ≤ ts.length) :
    ∃ cut toFwd, draftCut K ctx.length n last ts = .ok (cut, toFwd) ∧
      cut ≤ (ctx ++ ts.dropLast).length ∧ toFwd ≠ [] ∧
      (ctx ++ ts.dropLast).take cut ++ toFwd = ctx ++ (ts.take n ++ [last]) := by
  have hdrop : ts.dropLast.length = ts.length - 1 := List.length_dropLast
  rcases Nat.lt_or_ge n K with hlt | hge
  · refine ⟨ctx.length + n, [last], if_pos hlt, ?_, List.cons_ne_nil _ _, ?_⟩
    · rw [List.length_append]
      omega
    · rw [List.take_length_add_append, List.dropLast_eq_take, List.take_take,
        min_eq_left (by omega), List.append_assoc]
  · obtain ⟨k, hk⟩ := Nat.exists_eq_add_of_le' hK
    obtain ⟨l, t, rfl⟩ := (List.eq_nil_or_concat ts).resolve_left (by
      rintro rfl
      simp at hlen
      omega)
    rw [List.concat_eq_append] at hlen hn hdrop ⊢
    have hl : l.length = k := by
      rw [List.length_append, List.length_singleton] at hlen
      omega
    refine ⟨ctx.length + k, [t, last], ?_, ?_, List.cons_ne_nil _ _, ?_⟩
    · rw [draftCut, if_neg (not_lt.2 hge), hk, Nat.add_sub_cancel, ← hl, List.getElem?_concat_length]
      rfl
    · rw [List.dropLast_concat, List.length_append, hl]
    · rw [List.dropLast_concat, List.take_of_length_le (by rw [List.length_append, hl]),
        List.take_of_length_le (by omega), List.append_assoc, List.append_assoc]
      rfl

omit [Zero D] [Add X] in
/-- **Step 4 for the draft** brings it to where the target is. -/
theorem resyncDrf_spec (hdrf : S.drf = Td.runner) (hK : 1 ≤ S.numSpeculativeTokens) (torch : Torch R)
    (params : SamplingParams R) (last : ℕ) (h : drf.Resident Td sid (ctx ++ ts.dropLast))
    (hlen : ts.length = S.numSpeculativeTokens) {n : ℕ} (hn : n ≤ ts.length) :
    ∃ r drf', resyncDrf S torch sid params ctx.length n last ts drf = (r, drf') ∧ drf'.Sound ∧
      Side.WritesAtEnd drf drf' sid ∧ ((∃ msg, r = .error (.OutOfBlocksError msg)) ∨
        r = .ok (nextProbs torch S.vocab params Td (ctx ++ (ts.take n ++ [last]))) ∧
          drf'.Resident Td sid (ctx ++ (ts.take n ++ [last]))) := by
  obtain ⟨cut, toFwd, hcut, hle, hne, hmeet⟩ := draftCut_spec hlen hK ctx last hn
  obtain ⟨drf₁, htrunc, hw₁, h₁⟩ := h.truncate hle
  obtain ⟨r, drf₂, heq, hs, hw₂, ⟨msg, rfl⟩ | ⟨rfl, h₂⟩⟩ := h₁.extend toFwd
  · refine ⟨_, drf₂, ?_, hs, hw₁.trans hw₂, Or.inl ⟨msg, rfl⟩⟩
    rw [resyncDrf, hcut, hdrf]
    simp only [htrunc, heq]
  · rw [hmeet] at h₂
    refine ⟨_, drf₂, ?_, hs, hw₁.trans hw₂, Or.inr ⟨rfl, h₂⟩⟩
    rw [resyncDrf, hcut, hdrf]
    simp only [htrunc, heq, lastProbs_rowsAfter torch S.vocab params Td _ hne, hmeet]

end SpeculativeEngine

end DiSpec
