/-
# The footprint of a speculative call

While a call runs each of its two pools holds one sequence (`Sole`), so what it takes
is decided by the number of tokens alone.  A round over-extends both tables and rolls
them back by as much as the rejection decides.  Each of its steps ends at a number of
tokens known beforehand, on exactly the blocks these need, or raises because the pool
has not so many blocks (`Ends`).  No step of a round goes past the text by more than the
accepted tokens and one more, and the text of a round that starts is short of the limit.

So a pool with room for the prompt, the limit and one draft is never exhausted
(`generate_ends`), and both pools are idle after every call, whichever way it ended
(`Served.idle`).  `Visited` is every state of a table that a call goes through.
-/

import DiSpec.Engine.Pressure
import DiSpec.KV.Sole
import DiSpec.Spec.Coherence

namespace DiSpec

open BlockManager

/-- **How a step ends that aims at `n` tokens**: at `n`, or with an exception and no more than `n`, and it
runs out of blocks only if the whole pool has not enough for `n`. -/
structure BlockManager.Ends {α : Type} (m₀ : BlockManager) (sid n : ℕ) (r : Except Exc α) (m : BlockManager) :
    Prop where
  within : ∃ k ≤ n, Sole m₀ m sid k
  done : ∀ a, r = .ok a → Sole m₀ m sid n
  short : ∀ msg, r = .error (.OutOfBlocksError msg) → m₀.numBlocks < m₀.blocksNeeded n

namespace BlockManager

variable {α β : Type} {m₀ m : BlockManager} {sid n : ℕ}

/-- A step that returned. -/
theorem Sole.ends (h : Sole m₀ m sid n) (a : α) : Ends m₀ sid n (.ok a) m :=
  ⟨⟨n, le_rfl, h⟩, fun _ _ => h, fun _ hr => by cases hr⟩

/-- A step that ran out of blocks. -/
theorem Sole.ends_short (h : Sole m₀ m sid n) {k : ℕ} (hnk : n ≤ k)
    (hshort : m₀.numBlocks < m₀.blocksNeeded k) (msg : String) :
    Ends m₀ sid k (.error (.OutOfBlocksError msg) : Except Exc α) m :=
  ⟨⟨n, hnk, h⟩, fun _ hr => (by cases hr), fun _ _ => hshort⟩

/-- A step that raised something else. -/
theorem Sole.ends_error (h : Sole m₀ m sid n) {k : ℕ} (hnk : n ≤ k) {x : Exc}
    (hx : ∀ msg, x ≠ .OutOfBlocksError msg) : Ends m₀ sid k (.error x : Except Exc α) m :=
  ⟨⟨n, hnk, h⟩, fun _ hr => (by cases hr), fun msg hr => absurd (Except.error.inj hr) (hx msg)⟩

/-- The exception of a step is passed on, towards more tokens. -/
theorem Ends.error (h₀ : Idle m₀) {x : Exc} (h : Ends m₀ sid n (.error x : Except Exc α) m) {k : ℕ}
    (hnk : n ≤ k) : Ends m₀ sid k (.error x : Except Exc β) m := by
  obtain ⟨j, hj, hsole⟩ := h.within
  refine ⟨⟨j, hj.trans hnk, hsole⟩, fun _ hr => (by cases hr), fun msg hr => ?_⟩
  exact (h.short msg (by rw [Except.error.inj hr])).trans_le (m₀.blocksNeeded_mono h₀.blockSize_pos hnk)

/-- Only the returned value changes. -/
theorem Ends.ok {a : α} (h : Ends m₀ sid n (.ok a) m) (b : β) : Ends m₀ sid n (.ok b) m :=
  (h.done a rfl).ends b

end BlockManager

namespace Side

variable {X D R : Type} [Zero D] [Add X] {m₀ : BlockManager} {s : Side D} {sid : ℕ} {toks : List ℕ}

/-- **`_forward` of `new` after `toks`** takes the blocks that the longer string needs. -/
theorem forward_ends (h₀ : Idle m₀) (T : Transformer X D R) {n : ℕ} (h : Sole m₀ s.cache.manager sid n)
    (new : List ℕ) {startPos : ℕ} (hle : n ≤ startPos + new.length) {r : Except Exc (List (List R))}
    {s' : Side D} (hrun : s.forward T.runner sid new startPos = (r, s')) :
    Ends m₀ sid (startPos + new.length) r s'.cache.manager := by
  obtain ⟨ids₀, ht, -⟩ := h.table
  have hget : s.cache.manager.blockTable sid = .ok ⟨ids₀, n⟩ := by rw [BlockManager.blockTable, ht]
  obtain ⟨k, hk⟩ := Nat.exists_eq_add_of_le hle
  have hextra : (startPos : ℤ) + new.length - n = k := by omega
  unfold forward at hrun
  simp only [hget, hextra] at hrun
  rcases h.reserve h₀ k with ⟨hshort, msg, heq⟩ | ⟨-, ids, m, heq, htouch, hacc, ht', hids⟩
  · simp only [heq] at hrun
    obtain ⟨rfl, rfl⟩ := Prod.mk.inj hrun
    rw [hk]
    exact h.ends_short (Nat.le_add_right n k) hshort msg
  have hget' : m.blockTable sid = .ok ⟨ids, n⟩ := by rw [BlockManager.blockTable, ht']
  have hsole := Sole.setTokens h₀ hacc htouch ht' hids
  rw [← hk] at hsole
  have hbs : 0 < m.blockSize := by
    rw [htouch.blockSize]
    exact h₀.blockSize_pos
  have hroom : startPos + new.length ≤ ids.length * m.blockSize := by
    rw [hids, htouch.blockSize, hk]
    exact m₀.blocksNeeded_mul_ge h₀.blockSize_pos (n + k)
  have hin : ∀ p ∈ List.range' startPos new.length, p < ids.length * m.blockSize := fun p hp => by
    have := (List.mem_range'_1.1 hp).2
    omega
  simp only [heq, hget', (s.setManager m).cache.slotsForPositions_spec hbs ids hin] at hrun
  set table : BlockTable := ⟨ids, startPos + new.length⟩
  set c := (s.setManager (m.setTable sid table)).cache
  have hlt : ∀ b ∈ ids, b < m.numBlocks := hacc.block_lt ht'
  have hslots : ∀ sl ∈ (List.range' startPos new.length).map (Paging.slotAt m.blockSize ids),
      sl < c.numSlots := by
    intro sl hsl
    obtain ⟨p, hp, rfl⟩ := List.mem_map.1 hsl
    exact Paging.slotAt_lt hbs hlt (hin p hp)
  obtain ⟨hidden, pool, hfwd, -⟩ := T.forward_total (c := c) hbs
    (show (List.range' startPos new.length).length = new.length from List.length_range')
    (by rw [List.length_map, List.length_range']) hslots hroom hlt
  have hfwd : T.runner.forward new (List.range' startPos new.length)
      ((List.range' startPos new.length).map (Paging.slotAt (s.setManager m).cache.blockSize ids))
      [⟨ids, new.length, startPos + new.length⟩] c = (.ok hidden, { c with pool }) := hfwd
  simp only [hfwd] at hrun
  obtain ⟨rfl, rfl⟩ := Prod.mk.inj hrun
  exact hsole.ends _

theorem extend_ends (h₀ : Idle m₀) (T : Transformer X D R) {n : ℕ} (h : Sole m₀ s.cache.manager sid n)
    (new : List ℕ) {r : Except Exc (List (List R))} {s' : Side D}
    (hrun : s.extend T.runner sid new = (r, s')) :
    Ends m₀ sid (n + new.length) r s'.cache.manager := by
  obtain ⟨ids, ht, -⟩ := h.table
  rw [extend, BlockManager.blockTable, ht] at hrun
  exact forward_ends h₀ T h new (Nat.le_add_right _ _) hrun

omit [Zero D] [Add X] in
theorem truncate_sole (h₀ : Idle m₀) {n k : ℕ} (h : Sole m₀ s.cache.manager sid n) (hk : k ≤ n) :
    ∃ s', s.truncate sid k = (.ok (), s') ∧ Sole m₀ s'.cache.manager sid k := by
  obtain ⟨m, heq, hsole⟩ := h.truncate h₀ hk
  exact ⟨s.setManager m, by rw [Side.truncate, heq], hsole⟩

end Side

namespace SpeculativeEngine

variable {X D Y E R G : Type} [Zero D] [Add X] [Zero E] [Add Y] [Field R] [LinearOrder R]
  {S : SpecSetup X D Y E R} {T : Transformer X D R} {Td : Transformer Y E R} {m₀ : BlockManager}
  {torch : Torch R} {src : Source R G} {params : SamplingParams R} {sid n : ℕ}

/-! ### The steps of a round -/

omit [Zero D] [Add X] [Zero E] [Add Y] in
/-- The last row is there, or an `IndexError` says that it is not. -/
theorem lastProbs_cases (torch : Torch R) (vocab : ℕ) (params : SamplingParams R) (logits : List (List R)) :
    lastProbs torch vocab params logits = .error .IndexError ∨
      ∃ p, lastProbs torch vocab params logits = .ok p := by
  unfold lastProbs
  cases logits.getLast? with
  | none => exact Or.inl rfl
  | some row => exact Or.inr ⟨_, rfl⟩

omit [Zero D] [Add X] in
/-- **The drafting loop** forwards one token in each of its rounds. -/
theorem draftRest_ends (h₀ : Idle m₀) (hdrf : S.drf = Td.runner) (j tok : ℕ) {drf drf' : Side E} {g g' : G}
    (h : Sole m₀ drf.cache.manager sid n) {r : Except Exc (List ℕ × List (List R))}
    (hrun : draftRest S torch src sid params j tok drf g = (r, drf', g')) :
    Ends m₀ sid (n + j) r drf'.cache.manager ∧ ∀ ts qs, r = .ok (ts, qs) → ts.length = j := by
  induction j generalizing n tok drf g r drf' g' with
  | zero =>
    cases hrun
    exact ⟨h.ends _, fun ts qs hr => by rw [← (Prod.mk.inj (Except.ok.inj hr)).1, List.length_nil]⟩
  | succ j ih =>
    rw [draftRest, hdrf] at hrun
    rcases hext : drf.extend Td.runner sid [tok] with ⟨x | dl, drf₁⟩
    · have hends := Side.extend_ends h₀ Td h [tok] hext
      simp only [hext] at hrun
      cases hrun
      exact ⟨hends.error h₀ (by rw [List.length_singleton]; omega), fun ts qs hr => by cases hr⟩
    have hsole : Sole m₀ drf₁.cache.manager sid (n + 1) := (Side.extend_ends h₀ Td h [tok] hext).done dl rfl
    simp only [hext] at hrun
    rcases lastProbs_cases torch S.vocab params dl with herr | ⟨qd, hqd⟩
    · simp only [herr] at hrun
      cases hrun
      exact ⟨hsole.ends_error (by omega) (by simp), fun ts qs hr => by cases hr⟩
    simp only [hqd] at hrun
    rcases hrest : draftRest S torch src sid params j ((sampleFromProbs qd).run src g).1 drf₁
      ((sampleFromProbs qd).run src g).2 with ⟨x | ⟨ts, qs⟩, drf₂, g₂⟩
    all_goals
      simp only [hrest] at hrun
      obtain ⟨hends, hlen⟩ := ih _ hsole hrest
      rw [Nat.add_assoc, Nat.add_comm 1 j] at hends
      cases hrun
    · exact ⟨hends.error h₀ le_rfl, fun ts qs hr => by cases hr⟩
    · refine ⟨hends.ok _, fun ts' qs' hr => ?_⟩
      rw [← (Prod.mk.inj (Except.ok.inj hr)).1, List.length_cons, hlen ts qs rfl]

omit [Zero D] [Add X] in
/-- **Step 1** forwards all drafted tokens but the last. -/
theorem draft_ends (h₀ : Idle m₀) (hdrf : S.drf = Td.runner) (hK : 1 ≤ S.numSpeculativeTokens)
    (qNext : List R) {drf drf' : Side E} {g g' : G} (h : Sole m₀ drf.cache.manager sid n)
    {r : Except Exc (List ℕ × List (List R))}
    (hrun : draft S torch src sid params qNext drf g = (r, drf', g')) :
    Ends m₀ sid (n + (S.numSpeculativeTokens - 1)) r drf'.cache.manager ∧
      ∀ ts qs, r = .ok (ts, qs) → ts.length = S.numSpeculativeTokens := by
  unfold draft at hrun
  rcases hrest : draftRest S torch src sid params (S.numSpeculativeTokens - 1)
    ((sampleFromProbs qNext).run src g).1 drf ((sampleFromProbs qNext).run src g).2 with
    ⟨x | ⟨ts, qs⟩, drf₁, g₁⟩
  all_goals
    simp only [hrest] at hrun
    obtain ⟨hends, hlen⟩ := draftRest_ends h₀ hdrf _ _ h hrest
    cases hrun
  · exact ⟨hends.error h₀ le_rfl, fun ts qs hr => by cases hr⟩
  · refine ⟨hends.ok _, fun ts' qs' hr => ?_⟩
    rw [← (Prod.mk.inj (Except.ok.inj hr)).1, List.length_cons, hlen ts qs rfl]
    omega

omit [Zero E] [Add Y] in
/-- **Step 2** forwards the drafted tokens after the text. -/
theorem verify_ends (h₀ : Idle m₀) (htgt : S.tgt = T.runner) (pNext : List R) (ts : List ℕ)
    {tgt tgt' : Side D} (h : Sole m₀ tgt.cache.manager sid n)
    {r : Except Exc (ℕ × List (List R) × List R)}
    (hrun : verify S torch sid params pNext ts tgt = (r, tgt')) :
    Ends m₀ sid (n + ts.length) r tgt'.cache.manager ∧ ∀ a, r = .ok a → a.1 = n := by
  obtain ⟨ids, ht, -⟩ := h.table
  rw [verify, BlockManager.blockTable, ht, htgt] at hrun
  rcases hfwd : tgt.forward T.runner sid ts n with ⟨x | tl, tgt₁⟩
  all_goals
    have hends := Side.forward_ends h₀ T h ts (Nat.le_add_right _ _) hfwd
    simp only [hfwd] at hrun
  · obtain ⟨rfl, rfl⟩ := Prod.mk.inj hrun
    exact ⟨hends.error h₀ le_rfl, fun a ha => by cases ha⟩
  split at hrun
  · obtain ⟨rfl, rfl⟩ := Prod.mk.inj hrun
    exact ⟨(hends.done tl rfl).ends_error le_rfl (by simp), fun a ha => by cases ha⟩
  · obtain ⟨rfl, rfl⟩ := Prod.mk.inj hrun
    exact ⟨hends.ok _, fun a ha => by rw [← Except.ok.inj ha]⟩

omit [Zero E] [Add Y] in
/-- **Step 4 for the target**, from any longer table. -/
theorem resyncTgt_ends (h₀ : Idle m₀) (htgt : S.tgt = T.runner) {start nAcc : ℕ} (last : ℕ)
    (hle : start + nAcc ≤ n) {tgt tgt' : Side D} (h : Sole m₀ tgt.cache.manager sid n)
    {r : Except Exc (List R)} (hrun : resyncTgt S torch sid params start nAcc last tgt = (r, tgt')) :
    Ends m₀ sid (start + nAcc + 1) r tgt'.cache.manager := by
  obtain ⟨tgt₁, htrunc, hsole⟩ := Side.truncate_sole h₀ h hle
  rw [resyncTgt, htrunc, htgt] at hrun
  rcases hfwd : tgt₁.forward T.runner sid [last] (start + nAcc) with ⟨x | tl, tgt₂⟩
  all_goals
    have hends := Side.forward_ends h₀ T hsole [last] (Nat.le_add_right _ _) hfwd
    simp only [hfwd] at hrun
    obtain ⟨rfl, rfl⟩ := Prod.mk.inj hrun
  · exact hends.error h₀ le_rfl
  rcases lastProbs_cases torch S.vocab params tl with herr | ⟨p, hp⟩
  · rw [herr]
    exact (hends.done tl rfl).ends_error le_rfl (by simp)
  · rw [hp]
    exact hends.ok _

omit [Zero D] [Add X] [Zero E] [Add Y] [Field R] [LinearOrder R] in
/-- **What the draft keeps and forwards** comes to the accepted tokens and one more. -/
theorem draftCut_length {K base nAcc last cut : ℕ} {ts toFwd : List ℕ} (hK : 1 ≤ K) (hn : nAcc ≤ K)
    (h : draftCut K base nAcc last ts = .ok (cut, toFwd)) :
    cut ≤ base + (K - 1) ∧ cut + toFwd.length = base + nAcc + 1 := by
  unfold draftCut at h
  split at h
  · obtain ⟨rfl, rfl⟩ := Prod.mk.inj (Except.ok.inj h)
    constructor
    · omega
    · rfl
  · split at h
    · cases h
    · obtain ⟨rfl, rfl⟩ := Prod.mk.inj (Except.ok.inj h)
      constructor
      · omega
      · show base + K - 1 + 2 = base + nAcc + 1
        omega

omit [Zero D] [Add X] in
/-- **Step 4 for the draft**, from the table that drafting left. -/
theorem resyncDrf_ends (h₀ : Idle m₀) (hdrf : S.drf = Td.runner) (hK : 1 ≤ S.numSpeculativeTokens)
    {base nAcc : ℕ} (last : ℕ) (ts : List ℕ) (hn : nAcc ≤ S.numSpeculativeTokens) {drf drf' : Side E}
    (h : Sole m₀ drf.cache.manager sid (base + (S.numSpeculativeTokens - 1))) {r : Except Exc (List R)}
    (hrun : resyncDrf S torch sid params base nAcc last ts drf = (r, drf')) :
    (∃ k ≤ base + S.numSpeculativeTokens + 1, Sole m₀ drf'.cache.manager sid k) ∧
      (∀ a, r = .ok a → Sole m₀ drf'.cache.manager sid (base + nAcc + 1)) ∧
      ∀ msg, r = .error (.OutOfBlocksError msg) → m₀.numBlocks < m₀.blocksNeeded (base + nAcc + 1) := by
  unfold resyncDrf at hrun
  rcases hcut : draftCut S.numSpeculativeTokens base nAcc last ts with x | ⟨cut, toFwd⟩
  · rw [hcut] at hrun
    obtain ⟨rfl, rfl⟩ := Prod.mk.inj hrun
    refine ⟨⟨_, by omega, h⟩, fun a ha => (by cases ha), fun msg hr => ?_⟩
    obtain rfl := Except.error.inj hr
    unfold draftCut at hcut
    split at hcut
    · cases hcut
    · split at hcut <;> cases hcut
  obtain ⟨hle, hsum⟩ := draftCut_length hK hn hcut
  obtain ⟨drf₁, htrunc, hsole⟩ := Side.truncate_sole h₀ h hle
  simp only [hcut, htrunc, hdrf] at hrun
  have hends : Ends m₀ sid (base + nAcc + 1) r drf'.cache.manager := by
    rw [← hsum]
    rcases hext : drf₁.extend Td.runner sid toFwd with ⟨x | dl, drf₂⟩
    all_goals
      have hends := Side.extend_ends h₀ Td hsole toFwd hext
      simp only [hext] at hrun
      cases hrun
    · exact hends.error h₀ le_rfl
    rcases lastProbs_cases torch S.vocab params dl with herr | ⟨p, hp⟩
    · rw [herr]
      exact (hends.done dl rfl).ends_error le_rfl (by simp)
    · rw [hp]
      exact hends.ok _
  obtain ⟨k, hk, hsole'⟩ := hends.within
  exact ⟨⟨k, by omega, hsole'⟩, hends.done, hends.short⟩

/-! ### A round and a call -/

/-- Both pools hold the sequence alone, with no more than `n` tokens. -/
structure Within (mt md : BlockManager) (sid n : ℕ) (e : SpeculativeEngine D E R) : Prop where
  tgt : ∃ k ≤ n, Sole mt e.tgt.cache.manager sid k
  drf : ∃ k ≤ n, Sole md e.drf.cache.manager sid k

/-- Both pools hold the sequence alone, with `n` tokens. -/
structure Level (mt md : BlockManager) (sid n : ℕ) (e : SpeculativeEngine D E R) : Prop where
  tgt : Sole mt e.tgt.cache.manager sid n
  drf : Sole md e.drf.cache.manager sid n

/-- One of the pools has not the blocks that `n` tokens need. -/
def Short (mt md : BlockManager) (n : ℕ) : Prop :=
  mt.numBlocks < mt.blocksNeeded n ∨ md.numBlocks < md.blocksNeeded n

variable {mt md : BlockManager} {e : SpeculativeEngine D E R}

omit [Zero D] [Add X] [Zero E] [Add Y] [Field R] [LinearOrder R] in
theorem Level.within (h : Level mt md sid n e) {k : ℕ} (hnk : n ≤ k) : Within mt md sid k e :=
  ⟨⟨n, hnk, h.tgt⟩, ⟨n, hnk, h.drf⟩⟩

theorem Short.mono (ht : Idle mt) (hd : Idle md) (h : Short mt md n) {k : ℕ} (hnk : n ≤ k) :
    Short mt md k := by
  rcases h with h | h
  · exact Or.inl (h.trans_le (mt.blocksNeeded_mono ht.blockSize_pos hnk))
  · exact Or.inr (h.trans_le (md.blocksNeeded_mono hd.blockSize_pos hnk))

/-- **Steps 1 and 2**: the draft's table is short of the target's by one token. -/
theorem propose_ends (ht : Idle mt) (hd : Idle md) (htgt : S.tgt = T.runner) (hdrf : S.drf = Td.runner)
    (hK : 1 ≤ S.numSpeculativeTokens) {s s' : SpecLoop D E R G} (h : Level mt md sid n s.engine)
    {r : Except Exc (ℕ × SpecRound R)} (hrun : propose S torch src sid params s = (r, s')) :
    Within mt md sid (n + S.numSpeculativeTokens) s'.engine ∧ s'.out = s.out ∧
      (∀ msg, r = .error (.OutOfBlocksError msg) → Short mt md (n + S.numSpeculativeTokens)) ∧
      ∀ start rd, r = .ok (start, rd) → start = n ∧ rd.draftTokens.length = S.numSpeculativeTokens ∧
        Sole mt s'.engine.tgt.cache.manager sid (n + S.numSpeculativeTokens) ∧
        Sole md s'.engine.drf.cache.manager sid (n + (S.numSpeculativeTokens - 1)) := by
  have hle : n + (S.numSpeculativeTokens - 1) ≤ n + S.numSpeculativeTokens := by omega
  obtain ⟨⟨tgt, drf, rounds⟩, out, pNext, qNext, stats, g⟩ := s
  obtain ⟨htgt₀, hdrf₀⟩ := h
  unfold propose at hrun
  rcases hdraft : draft S torch src sid params qNext drf g with ⟨x | ⟨ts, qs⟩, drf₁, g₁⟩
  all_goals
    obtain ⟨hends, hlen⟩ := draft_ends hd hdrf hK qNext hdrf₀ hdraft
    obtain ⟨k, hk, hsole⟩ := hends.within
    simp only [hdraft] at hrun
  · cases hrun
    refine ⟨⟨⟨n, by omega, htgt₀⟩, ⟨k, hk.trans hle, hsole⟩⟩, rfl, fun msg hr => ?_,
      fun start rd hr => by cases hr⟩
    exact Or.inr ((hends.error hd hle).short msg hr)
  have hsole₁ := hends.done _ rfl
  have hts := hlen ts qs rfl
  simp only [SpecLoop.setDrf] at hrun
  rcases hver : verify S torch sid params pNext ts tgt with ⟨x | ⟨start, ps, pb⟩, tgt₁⟩
  all_goals
    obtain ⟨hends', hstart⟩ := verify_ends ht htgt pNext ts htgt₀ hver
    rw [hts] at hends'
    simp only [hver] at hrun
    cases hrun
  · refine ⟨⟨hends'.within, ⟨_, hle, hsole₁⟩⟩, rfl, fun msg hr => ?_, fun start rd hr => by cases hr⟩
    exact Or.inl ((hends'.error ht le_rfl).short msg hr)
  · have hsole' := hends'.done _ rfl
    refine ⟨⟨hends'.within, ⟨_, hle, hsole₁⟩⟩, rfl, fun msg hr => (by cases hr), fun start' rd hr => ?_⟩
    obtain ⟨rfl, rfl⟩ := Prod.mk.inj (Except.ok.inj hr)
    exact ⟨hstart _ rfl, hts, hsole', hsole₁⟩

/-- **Step 4** makes the tables level again, at the accepted tokens and one more. -/
theorem resync_ends (ht : Idle mt) (hd : Idle md) (htgt : S.tgt = T.runner) (hdrf : S.drf = Td.runner)
    (hK : 1 ≤ S.numSpeculativeTokens) {promptLen nAcc last : ℕ} {ts : List ℕ} {s s' : SpecLoop D E R G}
    (hn : n = promptLen + s.out.length) (hacc : nAcc ≤ S.numSpeculativeTokens)
    (h : Sole mt s.engine.tgt.cache.manager sid (n + S.numSpeculativeTokens))
    (h' : Sole md s.engine.drf.cache.manager sid (n + (S.numSpeculativeTokens - 1))) {r : Except Exc Unit}
    (hrun : resync S torch sid params promptLen n nAcc last ts s = (r, s')) :
    Within mt md sid (n + S.numSpeculativeTokens + 1) s'.engine ∧ s'.out = s.out ∧
      (∀ msg, r = .error (.OutOfBlocksError msg) → Short mt md (n + S.numSpeculativeTokens + 1)) ∧
      (r = .ok () → Level mt md sid (n + nAcc + 1) s'.engine) := by
  have hle : n + nAcc + 1 ≤ n + S.numSpeculativeTokens + 1 := by omega
  obtain ⟨⟨tgt, drf, rounds⟩, out, pNext, qNext, stats, g⟩ := s
  unfold resync at hrun
  rcases htg : resyncTgt S torch sid params n nAcc last tgt with ⟨x | p, tgt₁⟩
  all_goals
    have hends := resyncTgt_ends ht htgt last (by omega) h htg
    obtain ⟨k, hk, hsole⟩ := hends.within
    simp only [htg] at hrun
  · cases hrun
    refine ⟨⟨⟨k, hk.trans hle, hsole⟩, ⟨_, by omega, h'⟩⟩, rfl, fun msg hr => ?_, fun hr => by cases hr⟩
    exact Or.inl ((hends.error ht hle).short msg hr)
  have hsole₁ := hends.done _ rfl
  simp only [SpecLoop.setTgt, ← hn] at hrun
  rcases hdr : resyncDrf S torch sid params n nAcc last ts drf with ⟨x | q, drf₁⟩
  all_goals
    obtain ⟨hwithin, hdone, hshort⟩ := resyncDrf_ends hd hdrf hK last ts hacc h' hdr
    simp only [hdr] at hrun
    cases hrun
  · refine ⟨⟨⟨_, hle, hsole₁⟩, hwithin⟩, rfl, fun msg hr => ?_, fun hr => by cases hr⟩
    exact Short.mono ht hd (Or.inr (hshort msg (by rw [Except.error.inj hr]))) hle
  · exact ⟨⟨⟨_, hle, hsole₁⟩, hwithin⟩, rfl, fun msg hr => (by cases hr),
      fun _ => ⟨hsole₁, hdone _ rfl⟩⟩

omit [Zero D] [Add X] [Zero E] [Add Y] in
/-- **The shape of what was emitted**: the accepted tokens and one more. -/
theorem rejection_shape {pBonus : List R} {ts emitted : List ℕ} {q p : List (List R)} {g g' : G} {nAcc : ℕ}
    (h : (rejectionSample pBonus ts q p).run src g = (.ok (emitted, nAcc), g')) :
    nAcc ≤ ts.length ∧ emitted.length = nAcc + 1 := by
  rcases rejectionSample_eq pBonus src ts q p g with ⟨n, t, hn, hok⟩ | ⟨-, herr⟩
  · rw [h] at hok
    obtain ⟨rfl, rfl⟩ := Prod.mk.inj (Except.ok.inj hok)
    refine ⟨hn, ?_⟩
    rw [List.length_append, List.length_take, min_eq_left hn, List.length_singleton]
  · rw [h] at herr
    cases herr

/-- **One round** goes past the text by the draft and one token at most. -/
theorem round_ends (ht : Idle mt) (hd : Idle md) (htgt : S.tgt = T.runner) (hdrf : S.drf = Td.runner)
    (hK : 1 ≤ S.numSpeculativeTokens) (maxNewTokens : ℕ) (eos : Option ℕ) {promptLen : ℕ}
    {s s' : SpecLoop D E R G} (hn : n = promptLen + s.out.length) (h : Level mt md sid n s.engine)
    {r : Except Exc Bool}
    (hrun : round S torch src sid params promptLen maxNewTokens eos s = (r, s')) :
    Within mt md sid (n + S.numSpeculativeTokens + 1) s'.engine ∧
      (∀ msg, r = .error (.OutOfBlocksError msg) → Short mt md (n + S.numSpeculativeTokens + 1)) ∧
      (r = .ok false → Level mt md sid (promptLen + s'.out.length) s'.engine) := by
  have hle : n + S.numSpeculativeTokens ≤ n + S.numSpeculativeTokens + 1 := by omega
  have hwiden : ∀ {e : SpeculativeEngine D E R}, Within mt md sid (n + S.numSpeculativeTokens) e →
      Within mt md sid (n + S.numSpeculativeTokens + 1) e := fun ⟨⟨k, hk, hs⟩, ⟨j, hj, hs'⟩⟩ =>
    ⟨⟨k, hk.trans hle, hs⟩, ⟨j, hj.trans hle, hs'⟩⟩
  unfold round at hrun
  rcases hprop : propose S torch src sid params s with ⟨x | ⟨start, rd⟩, s₁⟩
  all_goals
    obtain ⟨hwithin, hout, hshort, hok⟩ := propose_ends ht hd htgt hdrf hK h hprop
    simp only [hprop] at hrun
  · cases hrun
    refine ⟨hwiden hwithin, fun msg hr => ?_, fun hr => by cases hr⟩
    exact (hshort msg (by rw [Except.error.inj hr])).mono ht hd hle
  obtain ⟨rfl, hts, hsole, hsole'⟩ := hok start rd rfl
  unfold settle at hrun
  rcases hrej : (rejectionSample rd.pBonus rd.draftTokens rd.qStack rd.pStack).run src s₁.g with
    ⟨x | ⟨emitted, nAcc⟩, g₁⟩
  · simp only [hrej] at hrun
    cases hrun
    refine ⟨hwiden hwithin, fun msg hr => ?_, fun hr => by cases hr⟩
    rcases rejectionSample_eq rd.pBonus src rd.draftTokens rd.qStack rd.pStack s₁.g with
      ⟨j, t, -, hok⟩ | ⟨-, herr⟩
    · rw [hrej] at hok
      cases hok
    · rw [hrej] at herr
      obtain rfl : x = .IndexError := Except.error.inj herr
      cases hr
  obtain ⟨hacc, hemit⟩ := rejection_shape hrej
  rw [hts] at hacc
  simp only [hrej] at hrun
  split at hrun
  next hnone =>
    cases hrun
    exact ⟨hwiden hwithin, fun msg hr => (by cases hr), fun hr => by cases hr⟩
  next last hlast =>
    set stats : SpecStats := { s₁.stats with
      iters := s₁.stats.iters + 1,
      proposed := s₁.stats.proposed + S.numSpeculativeTokens,
      accepted := s₁.stats.accepted + nAcc }
    rcases hres : resync S torch sid params promptLen start nAcc last rd.draftTokens
      { s₁ with g := g₁, stats } with ⟨x | _, s₂⟩
    all_goals
      obtain ⟨hwithin₂, hout₂, hshort₂, hlevel⟩ := resync_ends (s := { s₁ with g := g₁, stats }) ht hd htgt
        hdrf hK (hn.trans (by rw [hout])) hacc hsole hsole' hres
      simp only [hres] at hrun
      cases hrun
    · exact ⟨hwithin₂, fun msg hr => hshort₂ msg (by rw [Except.error.inj hr]), fun hr => by cases hr⟩
    · refine ⟨hwithin₂, fun msg hr => (by cases hr), fun hr => ?_⟩
      have hall := emit_false (Except.ok.inj hr)
      have hlen : promptLen + (emit maxNewTokens eos emitted s₂.out s₂.stats).2.1.length =
          start + nAcc + 1 := by
        rw [hall, List.length_append, hemit, hout₂, hout, hn]
        omega
      have := hlevel rfl
      rw [← hlen] at this
      exact this

/-- **The loop** stays within the prompt, the limit and one draft. -/
theorem loop_ends (ht : Idle mt) (hd : Idle md) (htgt : S.tgt = T.runner) (hdrf : S.drf = Td.runner)
    (hK : 1 ≤ S.numSpeculativeTokens) (promptLen maxNewTokens : ℕ) (eos : Option ℕ) (fuel : ℕ)
    {s s' : SpecLoop D E R G} (h : Level mt md sid (promptLen + s.out.length) s.engine)
    {r : Except Exc (List ℕ × SpecStats)}
    (hrun : loop S torch src sid params promptLen maxNewTokens eos fuel s = (r, s')) :
    (∃ k, Within mt md sid k s'.engine) ∧ ∀ msg, r = .error (.OutOfBlocksError msg) →
      Short mt md (promptLen + maxNewTokens + S.numSpeculativeTokens) := by
  induction fuel generalizing s s' r with
  | zero =>
    cases hrun
    exact ⟨⟨_, h.within le_rfl⟩, fun msg hr => by cases hr⟩
  | succ fuel ih =>
    rw [loop] at hrun
    split at hrun
    swap
    · cases hrun
      exact ⟨⟨_, h.within le_rfl⟩, fun msg hr => by cases hr⟩
    next hlt =>
      rcases hround : round S torch src sid params promptLen maxNewTokens eos s with ⟨x | done, s₁⟩
      all_goals
        obtain ⟨hwithin, hshort, hgo⟩ := round_ends ht hd htgt hdrf hK maxNewTokens eos rfl h hround
        simp only [hround] at hrun
      · cases hrun
        refine ⟨⟨_, hwithin⟩, fun msg hr => ?_⟩
        exact (hshort msg (by rw [Except.error.inj hr])).mono ht hd (by omega)
      cases done with
      | true =>
        cases hrun
        exact ⟨⟨_, hwithin⟩, fun msg hr => by cases hr⟩
      | false => exact ih (hgo rfl) hrun

/-- **The prefill** takes the blocks of the prompt, which `allocate` took already. -/
theorem prefill_ends (ht : Idle mt) (hd : Idle md) (htgt : S.tgt = T.runner) (hdrf : S.drf = Td.runner)
    {e' : SpeculativeEngine D E R} {g : G} {promptIds : List ℕ} (h : Level mt md sid promptIds.length e)
    {r : Except Exc (SpecLoop D E R G)} (hrun : prefill S torch e g sid promptIds params = (r, e')) :
    Within mt md sid promptIds.length e' ∧
      (∀ msg, r = .error (.OutOfBlocksError msg) → Short mt md promptIds.length) ∧
      ∀ s, r = .ok s → s.out = [] ∧ Level mt md sid promptIds.length s.engine := by
  unfold prefill at hrun
  rw [htgt, hdrf] at hrun
  rcases htg : e.tgt.forward T.runner sid promptIds 0 with ⟨x | tl, tgt⟩
  all_goals
    have hends := Side.forward_ends ht T h.tgt promptIds (Nat.le_add_left _ 0) htg
    rw [Nat.zero_add] at hends
    simp only [htg] at hrun
  · cases hrun
    refine ⟨⟨hends.within, ⟨_, le_rfl, h.drf⟩⟩, fun msg hr => ?_, fun s hr => by cases hr⟩
    exact Or.inl ((hends.error ht le_rfl).short msg hr)
  have hsole := hends.done _ rfl
  rcases hdr : e.drf.forward Td.runner sid promptIds 0 with ⟨x | dl, drf⟩
  all_goals
    have hends := Side.forward_ends hd Td h.drf promptIds (Nat.le_add_left _ 0) hdr
    rw [Nat.zero_add] at hends
    simp only [hdr] at hrun
  · cases hrun
    refine ⟨⟨⟨_, le_rfl, hsole⟩, hends.within⟩, fun msg hr => ?_, fun s hr => by cases hr⟩
    exact Or.inr ((hends.error hd le_rfl).short msg hr)
  have hlevel : Level mt md sid promptIds.length ({ e with tgt, drf } : SpeculativeEngine D E R) :=
    ⟨hsole, hends.done _ rfl⟩
  split at hrun
  · cases hrun
    exact ⟨hlevel.within le_rfl, fun msg hr => (by cases hr), fun s hr => by
      obtain rfl := Except.ok.inj hr
      exact ⟨rfl, hlevel⟩⟩
  · cases hrun
    exact ⟨hlevel.within le_rfl, fun msg hr => (by cases hr), fun s hr => by cases hr⟩

/-- Both pools are idle, and of one size. -/
structure Idle (e : SpeculativeEngine D E R) : Prop where
  tgt : e.tgt.cache.manager.Idle
  drf : e.drf.cache.manager.Idle
  numBlocks : e.drf.cache.manager.numBlocks = e.tgt.cache.manager.numBlocks
  blockSize : e.drf.cache.manager.blockSize = e.tgt.cache.manager.blockSize

omit [Zero D] [Add X] [Zero E] [Add Y] [Field R] [LinearOrder R] in
/-- Pools of one size are short of blocks together. -/
theorem Idle.short_iff (h : Idle e) (n : ℕ) :
    Short e.tgt.cache.manager e.drf.cache.manager n ↔
      e.tgt.cache.manager.numBlocks < e.tgt.cache.manager.blocksNeeded n := by
  rw [Short, h.numBlocks, blocksNeeded_congr h.blockSize, or_self]

omit [Zero D] [Add X] [Zero E] [Add Y] [Field R] [LinearOrder R] in
/-- **The two allocations** succeed together. -/
theorem allocate_ends (h : Idle e) (sid : ℕ) (promptIds : List ℕ) :
    let mt := e.tgt.cache.manager
    let md := e.drf.cache.manager
    (Short mt md promptIds.length ∧ ∃ msg, e.allocate sid promptIds = (.error (.OutOfBlocksError msg), e)) ∨
      ∃ e', e.allocate sid promptIds = (.ok (), e') ∧ Level mt md sid promptIds.length e' := by
  intro mt md
  unfold allocate Side.allocate
  rcases h.tgt.allocate sid promptIds.length with ⟨hlt, msg, heq⟩ | ⟨hle, t, m, heq, -, hsole⟩
  · rw [heq]
    exact Or.inl ⟨Or.inl hlt, msg, rfl⟩
  rcases h.drf.allocate sid promptIds.length with ⟨hlt, -⟩ | ⟨-, u, m', heq', -, hsole'⟩
  · rw [blocksNeeded_congr h.blockSize, h.numBlocks] at hlt
    exact absurd hlt (not_lt.2 hle)
  · rw [heq]
    simp only [heq']
    exact Or.inr ⟨_, rfl, hsole, hsole'⟩

omit [Zero D] [Add X] [Zero E] [Add Y] [Field R] [LinearOrder R] in
/-- **The two calls of `free`** leave both pools idle. -/
theorem free_ends (h : Idle e) {e' : SpeculativeEngine D E R} {k : ℕ}
    (hw : Within e.tgt.cache.manager e.drf.cache.manager sid k e') :
    ∃ e'', e'.free sid = (.ok (), e'') ∧ Idle e'' ∧ Touches e e'' sid := by
  obtain ⟨⟨i, -, hs⟩, ⟨j, -, hs'⟩⟩ := hw
  obtain ⟨m, heq, hidle, htouch⟩ := hs.free h.tgt
  obtain ⟨m', heq', hidle', htouch'⟩ := hs'.free h.drf
  refine ⟨⟨e'.tgt.setManager m, e'.drf.setManager m', e'.rounds⟩, ?_, ⟨hidle, hidle', ?_, ?_⟩,
    ⟨htouch, htouch'⟩⟩
  · unfold free Side.free
    rw [heq]
    simp only [heq']
  · exact htouch'.numBlocks.trans (h.numBlocks.trans htouch.numBlocks.symm)
  · exact htouch'.blockSize.trans (h.blockSize.trans htouch.blockSize.symm)

/-- **A call of `generate`** on idle pools leaves them idle, and runs out of blocks only if the pools have
no room for the prompt, the limit and one draft. -/
theorem generate_ends (htgt : S.tgt = T.runner) (hdrf : S.drf = Td.runner) (hK : 1 ≤ S.numSpeculativeTokens)
    (torch : Torch R) (src : Source R G) (h : Idle e) (g : G) (sid : ℕ) (promptIds : List ℕ)
    (params : SamplingParams R) (maxNewTokens : ℕ) (eos : Option ℕ) {r : Except Exc (List ℕ × SpecStats)}
    {e' : SpeculativeEngine D E R} {g' : G}
    (hrun : e.generate S torch src g sid promptIds params maxNewTokens eos = (r, e', g')) :
    Idle e' ∧ Touches e e' sid ∧ ∀ msg, r = .error (.OutOfBlocksError msg) →
      e.tgt.cache.manager.numBlocks < e.tgt.cache.manager.blocksNeeded
        (promptIds.length + maxNewTokens + S.numSpeculativeTokens) := by
  have hshort : ∀ {n}, n ≤ promptIds.length + maxNewTokens + S.numSpeculativeTokens →
      Short e.tgt.cache.manager e.drf.cache.manager n →
      e.tgt.cache.manager.numBlocks < e.tgt.cache.manager.blocksNeeded
        (promptIds.length + maxNewTokens + S.numSpeculativeTokens) := fun hle hs =>
    (h.short_iff _).1 (hs.mono h.tgt h.drf hle)
  unfold generate at hrun
  rcases allocate_ends h sid promptIds with ⟨hs, msg, heq⟩ | ⟨e₁, heq, hlevel⟩
  · simp only [heq] at hrun
    cases hrun
    exact ⟨h, .refl _ _, fun _ _ => hshort (by omega) hs⟩
  have hbody : ∃ k r e₂ g₂, e₁.generateBody S torch src g sid promptIds params maxNewTokens eos =
      (r, e₂, g₂) ∧ Within e.tgt.cache.manager e.drf.cache.manager sid k e₂ ∧
      ∀ msg, r = .error (.OutOfBlocksError msg) → Short e.tgt.cache.manager e.drf.cache.manager
        (promptIds.length + maxNewTokens + S.numSpeculativeTokens) := by
    unfold generateBody
    rcases hpre : prefill S torch e₁ g sid promptIds params with ⟨x | s, e₂⟩
    all_goals obtain ⟨hw, hs, hok⟩ := prefill_ends h.tgt h.drf htgt hdrf hlevel hpre
    · refine ⟨_, _, e₂, g, rfl, hw, fun msg hr => ?_⟩
      exact (hs msg (by rw [Except.error.inj hr])).mono h.tgt h.drf (by omega)
    · obtain ⟨hout, hlevel'⟩ := hok s rfl
      rcases hloop : loop S torch src sid params promptIds.length maxNewTokens eos maxNewTokens s with
        ⟨r₃, s₃⟩
      obtain ⟨⟨k, hw₃⟩, hs₃⟩ := loop_ends h.tgt h.drf htgt hdrf hK promptIds.length maxNewTokens eos
        maxNewTokens (by rwa [hout, List.length_nil, Nat.add_zero]) hloop
      exact ⟨k, r₃, s₃.engine, s₃.g, by simp only [hloop], hw₃, hs₃⟩
  obtain ⟨k, r₂, e₂, g₂, hb, hw, hs⟩ := hbody
  obtain ⟨e₃, hfree, hidle, htouch⟩ := free_ends h hw
  simp only [heq, hb, hfree] at hrun
  cases hrun
  exact ⟨hidle, htouch, fun msg hr => hshort le_rfl (hs msg hr)⟩

omit [Add X] [Add Y] [Field R] [LinearOrder R] in
/-- A new engine. -/
theorem init_idle (T : Transformer X D R) (Td : Transformer Y E R) (numBlocks : ℕ) {blockSize : ℕ}
    (hbs : 1 ≤ blockSize) : Idle (init T Td numBlocks blockSize) :=
  ⟨BlockManager.init_idle numBlocks hbs, BlockManager.init_idle numBlocks hbs, rfl, rfl⟩

/-- **After any calls** both pools are idle. -/
theorem Served.idle (htgt : S.tgt = T.runner) (hdrf : S.drf = Td.runner) (hK : 1 ≤ S.numSpeculativeTokens)
    {numBlocks blockSize next : ℕ} (hbs : 1 ≤ blockSize)
    (h : Served S torch src (init T Td numBlocks blockSize) next e) :
    Idle e ∧ e.tgt.cache.manager.numBlocks = numBlocks ∧ e.tgt.cache.manager.blockSize = blockSize := by
  induction h with
  | start => exact ⟨init_idle T Td numBlocks hbs, rfl, rfl⟩
  | @call next e g sid promptIds params maxNewTokens eos _ _ ih =>
    obtain ⟨hidle, hnb, hbs'⟩ := ih
    rcases hrun : e.generate S torch src g sid promptIds params maxNewTokens eos with ⟨r, e', g'⟩
    obtain ⟨hidle', htouch, -⟩ := generate_ends htgt hdrf hK torch src hidle g sid promptIds params
      maxNewTokens eos hrun
    exact ⟨hidle', htouch.tgt.numBlocks.trans hnb, htouch.tgt.blockSize.trans hbs'⟩

/-! ### Every state on the way -/

section Visited

variable (S : SpecSetup X D Y E R) (torch : Torch R) (src : Source R G) (e : SpeculativeEngine D E R)
  (g : G) (sid : ℕ) (promptIds : List ℕ) (params : SamplingParams R) (maxNewTokens : ℕ) (eos : Option ℕ)

/-- A round of a call has got as far as step 4: from the head `s` it proposed `rd`, and `nAcc` of its
tokens were accepted. -/
structure Decided (s s₁ : SpecLoop D E R G) (start : ℕ) (rd : SpecRound R) (nAcc last : ℕ) : Prop where
  head : Head S torch src e g sid promptIds params maxNewTokens eos s
  more : s.out.length < maxNewTokens
  proposed : propose S torch src sid params s = (.ok (start, rd), s₁)
  rejected : ∃ emitted g', (rejectionSample rd.pBonus rd.draftTokens rd.qStack rd.pStack).run src s₁.g =
    (.ok (emitted, nAcc), g') ∧ emitted.getLast? = some last

/-- The states of a manager after each `_forward` and each `truncate` of a call of `generate`, in the
order of the source. -/
inductive Visited : BlockManager → Prop
  | prefillTgt {e₁ : SpeculativeEngine D E R} (h : e.allocate sid promptIds = (.ok (), e₁)) :
      Visited (e₁.tgt.forward S.tgt sid promptIds 0).2.cache.manager
  | prefillDrf {e₁ : SpeculativeEngine D E R} (h : e.allocate sid promptIds = (.ok (), e₁)) :
      Visited (e₁.drf.forward S.drf sid promptIds 0).2.cache.manager
  | draft {s : SpecLoop D E R G} (h : Head S torch src e g sid promptIds params maxNewTokens eos s)
      (hlt : s.out.length < maxNewTokens) {j : ℕ} (hj : j < S.numSpeculativeTokens) :
      Visited (draftRest S torch src sid params j ((sampleFromProbs s.qNext).run src s.g).1 s.engine.drf
        ((sampleFromProbs s.qNext).run src s.g).2).2.1.cache.manager
  | verify {s : SpecLoop D E R G} (h : Head S torch src e g sid promptIds params maxNewTokens eos s)
      (hlt : s.out.length < maxNewTokens) {ts : List ℕ} {qs : List (List R)} {drf : Side E} {g' : G}
      (hdraft : draft S torch src sid params s.qNext s.engine.drf s.g = (.ok (ts, qs), drf, g')) :
      Visited (verify S torch sid params s.pNext ts s.engine.tgt).2.cache.manager
  | truncateTgt {s s₁ : SpecLoop D E R G} {start nAcc last : ℕ} {rd : SpecRound R}
      (h : Decided S torch src e g sid promptIds params maxNewTokens eos s s₁ start rd nAcc last) :
      Visited (s₁.engine.tgt.truncate sid (start + nAcc)).2.cache.manager
  | resyncTgt {s s₁ : SpecLoop D E R G} {start nAcc last : ℕ} {rd : SpecRound R}
      (h : Decided S torch src e g sid promptIds params maxNewTokens eos s s₁ start rd nAcc last) :
      Visited (resyncTgt S torch sid params start nAcc last s₁.engine.tgt).2.cache.manager
  | truncateDrf {s s₁ : SpecLoop D E R G} {start nAcc last cut : ℕ} {rd : SpecRound R} {toFwd : List ℕ}
      (h : Decided S torch src e g sid promptIds params maxNewTokens eos s s₁ start rd nAcc last)
      (hcut : draftCut S.numSpeculativeTokens (promptIds.length + s₁.out.length) nAcc last rd.draftTokens =
        .ok (cut, toFwd)) :
      Visited (s₁.engine.drf.truncate sid cut).2.cache.manager
  | resyncDrf {s s₁ : SpecLoop D E R G} {start nAcc last : ℕ} {rd : SpecRound R}
      (h : Decided S torch src e g sid promptIds params maxNewTokens eos s s₁ start rd nAcc last) :
      Visited (resyncDrf S torch sid params (promptIds.length + s₁.out.length) nAcc last rd.draftTokens
        s₁.engine.drf).2.cache.manager

end Visited

variable {g : G} {promptIds : List ℕ} {maxNewTokens : ℕ} {eos : Option ℕ}

/-- **At every head of the loop** both tables hold the prompt and the text. -/
theorem Head.level (htgt : S.tgt = T.runner) (hdrf : S.drf = Td.runner) (hK : 1 ≤ S.numSpeculativeTokens)
    (hidle : Idle e) {s : SpecLoop D E R G}
    (h : Head S torch src e g sid promptIds params maxNewTokens eos s) :
    Level e.tgt.cache.manager e.drf.cache.manager sid (promptIds.length + s.out.length) s.engine := by
  induction h with
  | @enter s halloc hpre =>
    rcases allocate_ends hidle sid promptIds with ⟨-, msg, heq⟩ | ⟨e₁, heq, hlevel⟩
    · rw [heq] at halloc
      cases halloc
    rw [heq] at hpre
    rcases hrun : prefill S torch e₁ g sid promptIds params with ⟨r, e₂⟩
    obtain ⟨-, -, hok⟩ := prefill_ends hidle.tgt hidle.drf htgt hdrf hlevel hrun
    rw [hrun] at hpre
    obtain ⟨hout, hlevel'⟩ := hok s hpre
    rwa [hout]
  | @round s _ hlt hgo ih =>
    rcases hrun : SpeculativeEngine.round S torch src sid params promptIds.length maxNewTokens eos s with
      ⟨r, s'⟩
    obtain ⟨-, -, hlevel⟩ := round_ends hidle.tgt hidle.drf htgt hdrf hK maxNewTokens eos rfl ih hrun
    rw [hrun] at hgo
    exact hlevel hgo

/-- The tables at step 4 of a round. -/
theorem Decided.tables (htgt : S.tgt = T.runner) (hdrf : S.drf = Td.runner) (hK : 1 ≤ S.numSpeculativeTokens)
    (hidle : Idle e) {s s₁ : SpecLoop D E R G} {start nAcc last : ℕ} {rd : SpecRound R}
    (h : Decided S torch src e g sid promptIds params maxNewTokens eos s s₁ start rd nAcc last) :
    start = promptIds.length + s₁.out.length ∧ start < promptIds.length + maxNewTokens ∧
      nAcc ≤ S.numSpeculativeTokens ∧
      Sole e.tgt.cache.manager s₁.engine.tgt.cache.manager sid (start + S.numSpeculativeTokens) ∧
      Sole e.drf.cache.manager s₁.engine.drf.cache.manager sid (start + (S.numSpeculativeTokens - 1)) := by
  have hlevel := h.head.level htgt hdrf hK hidle
  obtain ⟨-, hout, -, hok⟩ := propose_ends hidle.tgt hidle.drf htgt hdrf hK hlevel h.proposed
  obtain ⟨hstart, hts, hsole, hsole'⟩ := hok start rd rfl
  obtain ⟨emitted, g', hrej, -⟩ := h.rejected
  obtain ⟨hacc, -⟩ := rejection_shape hrej
  have hmore := h.more
  rw [← hstart] at hsole hsole'
  exact ⟨by rw [hout, hstart], by omega, by omega, hsole, hsole'⟩

/-- **Every visited table is exact**, and not longer than the prompt, the limit and one draft. -/
theorem Visited.exact (htgt : S.tgt = T.runner) (hdrf : S.drf = Td.runner) (hK : 1 ≤ S.numSpeculativeTokens)
    (hidle : Idle e) {m : BlockManager}
    (h : Visited S torch src e g sid promptIds params maxNewTokens eos m) :
    ∃ k ≤ promptIds.length + maxNewTokens + S.numSpeculativeTokens,
      Sole e.tgt.cache.manager m sid k ∨ Sole e.drf.cache.manager m sid k := by
  have hleft : ∀ {n m}, n ≤ promptIds.length + maxNewTokens + S.numSpeculativeTokens →
      (∃ k ≤ n, Sole e.tgt.cache.manager m sid k) → ∃ k ≤ promptIds.length + maxNewTokens +
        S.numSpeculativeTokens, Sole e.tgt.cache.manager m sid k ∨ Sole e.drf.cache.manager m sid k :=
    fun hle ⟨k, hk, hs⟩ => ⟨k, hk.trans hle, Or.inl hs⟩
  have hright : ∀ {n m}, n ≤ promptIds.length + maxNewTokens + S.numSpeculativeTokens →
      (∃ k ≤ n, Sole e.drf.cache.manager m sid k) → ∃ k ≤ promptIds.length + maxNewTokens +
        S.numSpeculativeTokens, Sole e.tgt.cache.manager m sid k ∨ Sole e.drf.cache.manager m sid k :=
    fun hle ⟨k, hk, hs⟩ => ⟨k, hk.trans hle, Or.inr hs⟩
  have hlevel₁ : ∀ {e₁}, e.allocate sid promptIds = (.ok (), e₁) →
      Level e.tgt.cache.manager e.drf.cache.manager sid promptIds.length e₁ := by
    intro e₁ halloc
    rcases allocate_ends hidle sid promptIds with ⟨-, msg, heq⟩ | ⟨e₂, heq, hlevel⟩
    · rw [heq] at halloc
      cases halloc
    · rw [heq] at halloc
      cases halloc
      exact hlevel
  cases h with
  | prefillTgt halloc =>
    rw [htgt]
    exact hleft (by omega)
      (Side.forward_ends hidle.tgt T (hlevel₁ halloc).tgt promptIds (Nat.le_add_left _ 0) rfl).within
  | prefillDrf halloc =>
    rw [hdrf]
    exact hright (by omega)
      (Side.forward_ends hidle.drf Td (hlevel₁ halloc).drf promptIds (Nat.le_add_left _ 0) rfl).within
  | draft hhead hlt hj =>
    exact hright (by omega)
      (draftRest_ends hidle.drf hdrf _ _ (hhead.level htgt hdrf hK hidle).drf rfl).1.within
  | verify hhead hlt hdraft =>
    have hlevel := hhead.level htgt hdrf hK hidle
    have hts := (draft_ends hidle.drf hdrf hK _ hlevel.drf hdraft).2 _ _ rfl
    exact hleft (by omega) (verify_ends hidle.tgt htgt _ _ hlevel.tgt rfl).1.within
  | truncateTgt hdec =>
    obtain ⟨-, hlt, hacc, hsole, -⟩ := hdec.tables htgt hdrf hK hidle
    obtain ⟨s', heq, hs'⟩ := Side.truncate_sole hidle.tgt hsole (Nat.add_le_add_left hacc _)
    rw [heq]
    exact hleft (by omega) ⟨_, le_rfl, hs'⟩
  | resyncTgt hdec =>
    obtain ⟨-, hlt, hacc, hsole, -⟩ := hdec.tables htgt hdrf hK hidle
    exact hleft (by omega)
      (resyncTgt_ends hidle.tgt htgt _ (Nat.add_le_add_left hacc _) hsole rfl).within
  | truncateDrf hdec hcut =>
    obtain ⟨hstart, hlt, hacc, -, hsole⟩ := hdec.tables htgt hdrf hK hidle
    rw [← hstart] at hcut
    obtain ⟨hle, -⟩ := draftCut_length hK hacc hcut
    obtain ⟨s', heq, hs'⟩ := Side.truncate_sole hidle.drf hsole hle
    rw [heq]
    exact hright (by omega) ⟨_, le_rfl, hs'⟩
  | resyncDrf hdec =>
    obtain ⟨hstart, hlt, hacc, -, hsole⟩ := hdec.tables htgt hdrf hK hidle
    rw [← hstart]
    exact hright (by omega) (resyncDrf_ends hidle.drf hdrf hK _ _ hacc hsole rfl).1

end SpeculativeEngine

open SpeculativeEngine

variable {X D Y E R G : Type} [Zero D] [Add X] [Zero E] [Add Y] [Field R] [LinearOrder R]

/-- **A speculative call has a bounded footprint and leaks nothing.**  After any calls every block of both
pools is free, and so it is again after the next call, whichever way that ends.  The next
call does not run out of blocks if the pools have room for its prompt, its limit and one
draft; and after each of its `_forward`s and `truncate`s the table holds exactly the blocks
that its tokens need, which are never more than that. -/
theorem speculative_footprint (T : Transformer X D R) (Td : Transformer Y E R) (torch : Torch R)
    (src : Source R G) {K numBlocks blockSize next : ℕ} (hK : 1 ≤ K) (hbs : 1 ≤ blockSize)
    {e : SpeculativeEngine D E R}
    (he : Served (setup T Td K) torch src (init T Td numBlocks blockSize) next e) (g : G) (sid : ℕ)
    (promptIds : List ℕ) (params : SamplingParams R) (maxNewTokens : ℕ) (eos : Option ℕ) :
    let pool := BlockManager.init numBlocks blockSize
    let limit := promptIds.length + maxNewTokens + K
    let call := e.generate (setup T Td K) torch src g sid promptIds params maxNewTokens eos
    let AllFree (m : BlockManager) := (∀ s, m.tables.lookup s = none) ∧ m.freeList.length = numBlocks
    (AllFree e.tgt.cache.manager ∧ AllFree e.drf.cache.manager) ∧
    (AllFree call.2.1.tgt.cache.manager ∧ AllFree call.2.1.drf.cache.manager) ∧
    (pool.blocksNeeded limit ≤ numBlocks → ∀ msg, call.1 ≠ .error (.OutOfBlocksError msg)) ∧
    ∀ m, Visited (setup T Td K) torch src e g sid promptIds params maxNewTokens eos m →
      ∃ t, m.tables.lookup sid = some t ∧ t.blockIds.length = pool.blocksNeeded t.numTokens ∧
        t.numTokens ≤ limit := by
  intro pool limit call AllFree
  obtain ⟨hidle, hnb, hbs'⟩ := he.idle (T := T) (S := setup T Td K) rfl rfl hK hbs
  obtain ⟨hidle', htouch, hshort⟩ := generate_ends (T := T) (S := setup T Td K) rfl rfl hK torch src hidle g
    sid promptIds params maxNewTokens eos rfl
  have hall : ∀ {e : SpeculativeEngine D E R}, Idle e → e.tgt.cache.manager.numBlocks = numBlocks →
      AllFree e.tgt.cache.manager ∧ AllFree e.drf.cache.manager := fun h hnb =>
    ⟨⟨h.tgt.none, (h.tgt.accounted.free_all h.tgt.none).trans hnb⟩,
      ⟨h.drf.none, (h.drf.accounted.free_all h.drf.none).trans (h.numBlocks.trans hnb)⟩⟩
  have hneed : ∀ k, e.tgt.cache.manager.blocksNeeded k = pool.blocksNeeded k := blocksNeeded_congr hbs'
  have hneed' : ∀ k, e.drf.cache.manager.blocksNeeded k = pool.blocksNeeded k :=
    blocksNeeded_congr (hidle.blockSize.trans hbs')
  refine ⟨hall hidle hnb, hall hidle' (htouch.tgt.numBlocks.trans hnb), fun hfits msg hr => ?_,
    fun m hm => ?_⟩
  · have hlt := hshort msg hr
    rw [hneed, hnb] at hlt
    exact absurd hlt (not_lt.2 hfits)
  · obtain ⟨k, hk, hs | hs⟩ := hm.exact (T := T) (S := setup T Td K) rfl rfl hK hidle
    · obtain ⟨ids, ht, hids⟩ := hs.table
      exact ⟨_, ht, hids.trans (hneed k), hk⟩
    · obtain ⟨ids, ht, hids⟩ := hs.table
      exact ⟨_, ht, hids.trans (hneed' k), hk⟩

/-- The hypotheses are satisfiable: in pools of four blocks a prompt that needs five is refused, and the
next call fits exactly. -/
theorem speculative_footprint_tight :
    let torch : Torch ℚ := ⟨id, fun _ => []⟩
    let src : Source ℚ Unit := ⟨fun g => (0, g), fun w g => (argmax w, g)⟩
    let draft := { sumModel with norm := fun x => x + 1 }
    let S := setup sumModel draft 2
    let call := (init sumModel draft 4 2).generate S torch src () 0 (List.replicate 9 0) .default 1 none
    call.1 = .error (.OutOfBlocksError "need 5 blocks, have 4") ∧
      call.2.1.tgt.cache.manager.freeList.length = 4 ∧
      ∀ msg, (call.2.1.generate S torch src () 1 [0, 1] .default 4 none).1 ≠
        .error (.OutOfBlocksError msg) := by
  intro torch src draft S call
  have hserved : Served S torch src (init sumModel draft 4 2) 1 call.2.1 :=
    .call () 0 (List.replicate 9 0) .default 1 none (le_refl 0) .start
  have h := speculative_footprint sumModel draft torch src (Nat.le_succ 1) (Nat.le_succ 1) hserved () 1 [0, 1]
    .default 4 none
  exact ⟨by decide +kernel, h.1.1.2, h.2.2.1 (by decide)⟩

end DiSpec
