/-
# Phases 3 to 5 of `step`

One forward writes the KV of the new tokens (`forward_spec` of the model applies,
`Inv.fits`), after which every slice of the batch is stored (`Inv.forwarded`).  One call
of `sample` draws a token for each sampled slice; `appendOutputs` puts the tokens to
their requests (`appendOutputs_spec`), and `retire` frees those that are done
(`retire_spec`); together they are phase 5 (`deliver_spec`).
-/

import DiSpec.Sched.Lifecycle

namespace DiSpec
namespace ContinuousBatchingEngine

open Transformer Segment

variable {X D R G : Type} [Zero D] [Add X]
variable {T : Transformer X D R} {base : ℕ → BaseKV D} {e : ContinuousBatchingEngine D R G}
  {sl : List Slice} {fin : List ℕ} {r : ℕ}

/-! ### The slots of a batch -/

/-- The table of a request in the batch counts the tokens of its slice. -/
theorem Inv.slice_table (h : Inv T base e sl fin) {s : Slice} (hs : s ∈ sl) :
    e.cache.manager.tables.lookup s.req = some ⟨s.blockIds, s.start + s.len⟩ :=
  ((h.each s.req).slice s hs rfl).2.2.1

theorem Inv.slice_room (h : Inv T base e sl fin) {s : Slice} (hs : s ∈ sl) :
    s.start + s.len ≤ s.blockIds.length * e.cache.blockSize :=
  h.accounted.capacity _ _ (h.slice_table hs)

/-- **Slots of different requests are different.** -/
theorem Inv.slot_ne (h : Inv T base e sl fin) {r' p q : ℕ} {t t' : BlockTable} (hne : r ≠ r')
    (ht : e.cache.manager.tables.lookup r = some t) (ht' : e.cache.manager.tables.lookup r' = some t')
    (hp : p < t.numTokens) (hq : q < t'.numTokens) :
    Paging.slotAt e.cache.blockSize t.blockIds p ≠ Paging.slotAt e.cache.blockSize t'.blockIds q :=
  Paging.slotAt_ne h.blockSize_pos (h.disjoint r r' t t' hne ht ht')
    (hp.trans_le (h.accounted.capacity r t ht)) (hq.trans_le (h.accounted.capacity r' t' ht'))

omit [Zero D] [Add X] in
/-- A slot of the batch is the slot of a new position of one of its slices. -/
theorem mem_batch_slots {bs slot : ℕ} {tok : ℕ → ℕ → ℕ} :
    slot ∈ slots bs (sl.map (Slice.segment base tok)) ↔
      ∃ s ∈ sl, ∃ p, s.start ≤ p ∧ p < s.start + s.len ∧ Paging.slotAt bs s.blockIds p = slot := by
  constructor
  · intro hm
    obtain ⟨⟨seg, p⟩, he, rfl⟩ := List.mem_map.1 hm
    obtain ⟨hseg, hlo, hhi⟩ := mem_entries.1 he
    obtain ⟨s, hs, rfl⟩ := List.mem_map.1 hseg
    exact ⟨s, hs, p, hlo, hhi, rfl⟩
  · rintro ⟨s, hs, p, hlo, hhi, rfl⟩
    exact mem_slots (List.mem_map_of_mem (f := Slice.segment base tok) hs) hlo hhi

/-- **The slots of a batch are pairwise distinct.** -/
theorem Inv.slots_nodup (h : Inv T base e sl fin) (tok : ℕ → ℕ → ℕ) :
    (slots e.cache.blockSize (sl.map (Slice.segment base tok))).Nodup := by
  have hflat : slots e.cache.blockSize (sl.map (Slice.segment base tok)) = sl.flatMap fun s =>
      (List.range' s.start s.len).map (Paging.slotAt e.cache.blockSize s.blockIds) := by
    rw [slots, entries, List.map_flatMap, List.flatMap_map]
    refine List.flatMap_congr fun s _ => ?_
    rw [List.map_map]
    rfl
  have hreqs : sl.Pairwise fun s s' => s.req ≠ s'.req := List.pairwise_map.1 h.slices_nodup
  rw [hflat, List.nodup_flatMap]
  constructor
  · intro s hs
    refine List.Nodup.map_on (fun p hp q hq => ?_) List.nodup_range'
    exact Paging.slotAt_inj h.blockSize_pos (h.accounted.table_nodup _ _ (h.slice_table hs))
      ((List.mem_range'_1.1 hp).2.trans_le (h.slice_room hs))
      ((List.mem_range'_1.1 hq).2.trans_le (h.slice_room hs))
  · refine hreqs.imp_of_mem fun {s s'} hs hs' hne => ?_
    intro slot hslot hslot'
    obtain ⟨p, hp, rfl⟩ := List.mem_map.1 hslot
    obtain ⟨q, hq, heq⟩ := List.mem_map.1 hslot'
    exact h.slot_ne hne (h.slice_table hs) (h.slice_table hs') (List.mem_range'_1.1 hp).2
      (List.mem_range'_1.1 hq).2 heq.symm

/-- **No slot of a batch is the slot of a position stored before**, of a request in the batch
or not. -/
theorem Inv.slot_notMem (h : Inv T base e sl fin) (tok : ℕ → ℕ → ℕ) {t : BlockTable}
    (ht : e.cache.manager.tables.lookup r = some t) {p : ℕ} (hp : p < t.numTokens)
    (hold : ∀ s ∈ sl, s.req = r → p < s.start) :
    Paging.slotAt e.cache.blockSize t.blockIds p ∉
      slots e.cache.blockSize (sl.map (Slice.segment base tok)) := by
  intro hm
  obtain ⟨s, hs, q, hlo, hhi, heq⟩ := mem_batch_slots.1 hm
  rcases eq_or_ne s.req r with rfl | hne
  · have htab := h.slice_table hs
    obtain rfl := Option.some.inj (ht.symm.trans htab)
    have hlt := hold s hs rfl
    have := Paging.slotAt_inj h.blockSize_pos (h.accounted.table_nodup _ _ ht)
      (hhi.trans_le (h.slice_room hs)) (hp.trans_le (h.slice_room hs)) heq
    omega
  · exact h.slot_ne hne (h.slice_table hs) ht hhi hp heq

/-- **The batch fits the forward.** -/
theorem Inv.fits (h : Inv T base e sl fin) (tok : ℕ → ℕ → ℕ) :
    Fits e.cache (sl.map (Slice.segment base tok)) := by
  refine ⟨h.blockSize_pos, ?_, ?_, h.slots_nodup tok, ?_, ?_⟩
  · rintro seg hseg
    obtain ⟨s, hs, rfl⟩ := List.mem_map.1 hseg
    exact h.slice_room hs
  · rintro seg hseg
    obtain ⟨s, hs, rfl⟩ := List.mem_map.1 hseg
    exact h.accounted.block_lt (h.slice_table hs)
  · rintro seg hseg p hp
    obtain ⟨s, hs, rfl⟩ := List.mem_map.1 hseg
    have hp : p < s.start := hp
    refine h.slot_notMem tok (h.slice_table hs) (Nat.lt_add_right _ hp) fun s' hs' hreq => ?_
    obtain rfl := List.inj_on_of_nodup_map h.slices_nodup hs' hs hreq
    exact hp
  · rintro seg hseg
    obtain ⟨s, hs, rfl⟩ := List.mem_map.1 hseg
    exact ((h.each s.req).slice s hs rfl).2.2.2.computed

/-! ### Phase 3: the forward -/

/-- The sampled slices once their tokens are stored. -/
def awaiting (sl : List Slice) : List Slice :=
  (sl.filter fun s => s.sampled).map fun s => ⟨s.req, s.blockIds, s.start + s.len, 0, true⟩

omit [Zero D] [Add X] in
theorem mem_awaiting {s' : Slice} : s' ∈ awaiting sl ↔
    ∃ s ∈ sl, s.sampled = true ∧ s' = ⟨s.req, s.blockIds, s.start + s.len, 0, true⟩ := by
  rw [awaiting, List.mem_map]
  constructor
  · rintro ⟨s, hs, rfl⟩
    exact ⟨s, (List.mem_filter.1 hs).1, (List.mem_filter.1 hs).2, rfl⟩
  · rintro ⟨s, hs, hsam, rfl⟩
    exact ⟨s, List.mem_filter.2 ⟨hs, hsam⟩, rfl⟩

omit [Zero D] [Add X] in
theorem awaiting_reqs (sl : List Slice) :
    (awaiting sl).map Slice.req = (sl.filter fun s => s.sampled).map Slice.req := by
  rw [awaiting, List.map_map]
  rfl

/-- **After the forward** the tokens of every slice are stored, and only the sampled ones
still wait for something. -/
theorem Inv.forwarded (h : Inv T base e sl []) {pool : ℕ → ℕ → KV D}
    (hnew : ∀ s ∈ sl, T.Holds { e.cache with pool } s.blockIds (base s.req) (e.tokensOf s.req)
      (s.start + s.len))
    (hkeep : ∀ i slot, slot ∉ slots e.cache.blockSize (sl.map (Slice.segment base e.tokensOf)) →
      pool i slot = e.cache.pool i slot) :
    Inv T base { e with cache := { e.cache with pool }, numSteps := e.numSteps + 1 } (awaiting sl) [] := by
  have hbs := h.blockSize_pos
  set e₁ : ContinuousBatchingEngine D R G :=
    { e with cache := { e.cache with pool }, numSteps := e.numSteps + 1 } with he₁
  have hstored : ∀ s ∈ sl, Stored T base e₁ s.req s.blockIds (s.start + s.len) := fun s hs =>
    ⟨hnew s hs, fun i p hp => ((h.each s.req).slice s hs rfl).2.2.2.computed i p (by omega)⟩
  have hnodup : ((awaiting sl).map Slice.req).Nodup := by
    rw [awaiting_reqs]
    exact h.slices_nodup.sublist (List.filter_sublist.map _)
  refine ⟨hbs, h.numLayers, h.chunk, h.accounted, h.disjoint, h.lists, h.created, hnodup, fun r => ?_⟩
  have hr := h.each r
  have hrun : r ∈ e.running → (Sliced (awaiting sl) r ↔ Sliced sl r) := by
    intro hm
    constructor
    · rintro ⟨s', hs', rfl⟩
      obtain ⟨s, hs, -, rfl⟩ := mem_awaiting.1 hs'
      exact ⟨s, hs, rfl⟩
    · rintro ⟨s, hs, rfl⟩
      exact ⟨_, mem_awaiting.2 ⟨s, hs, (hr.slice s hs rfl).2.1.2 hm, rfl⟩, rfl⟩
  refine ⟨hr.noTable, fun hm => (hr.waiting hm).congr rfl, hr.prefilling, fun hm => ?_, hr.finished, fun s' hs' hreq => ?_,
    fun t ht hns => ?_⟩
  · obtain ⟨h₁, h₂, -, t, ht, h₃, h₄, h₅⟩ := hr.running hm
    rw [hrun hm]
    exact ⟨h₁, h₂, fun ho => absurd ho List.not_mem_nil, t, ht, h₃, h₄, h₅⟩
  · obtain ⟨s, hs, hsam, rfl⟩ := mem_awaiting.1 hs'
    obtain ⟨h₁, h₂, h₃, -⟩ := hr.slice s hs hreq
    obtain rfl := hreq
    exact ⟨h₁, iff_of_true rfl (h₂.1 hsam), h₃, hstored s hs⟩
  · by_cases hsl : Sliced sl r
    · obtain ⟨s, hs, rfl⟩ := hsl
      obtain rfl := Option.some.inj (ht.symm.trans (h.slice_table hs))
      exact hstored s hs
    · refine (hr.stored t ht hsl).congr hbs (h.accounted.capacity r t ht) rfl rfl fun i slot hslot => ?_
      refine hkeep i slot fun hm => ?_
      obtain ⟨s, hs, p, -, hhi, rfl⟩ := mem_batch_slots.1 hm
      have hne : s.req ≠ r := fun heq => hsl ⟨s, hs, heq⟩
      exact h.disjoint _ _ _ _ hne (h.slice_table hs) ht _
        (Paging.slotAt_div_mem hbs (hhi.trans_le (h.slice_room hs))) hslot

/-- The hidden row of the last token of a slice. -/
def lastHidden (T : Transformer X D R) (base : ℕ → BaseKV D) (tok : ℕ → ℕ → ℕ) (s : Slice) : X :=
  T.norm (T.hiddenAt (base s.req) (tok s.req) T.numLayers (s.start + s.len - 1))

/-- **The forward of a batch** succeeds, and `last_idx` picks the last rows of the sampled
slices out of what it returns. -/
theorem forward_batch (h : Inv T base e sl []) {b : Batch}
    (hd : Describes base e.tokensOf e.cache.blockSize b sl) (hlen : ∀ s ∈ sl, 1 ≤ s.len) :
    ∃ hidden pool, T.forward b.tokenIds b.positions b.writeSlots b.seqMeta e.cache =
        (.ok hidden, { e.cache with pool }) ∧
      indexRows hidden b.lastIdx =
        .ok ((sl.filter fun s => s.sampled).map (lastHidden T base e.tokensOf)) ∧
      Inv T base { e with cache := { e.cache with pool }, numSteps := e.numSteps + 1 }
        (awaiting sl) [] := by
  obtain ⟨pool, hrun, hnew, hkeep⟩ := T.forward_spec (h.fits e.tokensOf) fun seg hseg => by
    obtain ⟨s, hs, rfl⟩ := List.mem_map.1 hseg
    exact ((h.each s.req).slice s hs rfl).2.2.2.holds
  refine ⟨(entries (sl.map (Slice.segment base e.tokensOf))).map fun en =>
      T.norm (T.hiddenAt en.1.base en.1.tok T.numLayers en.2), pool, ?_, ?_,
    h.forwarded (fun s hs => hnew _ (List.mem_map_of_mem hs)) hkeep⟩
  · rw [hd.tokenIds, hd.positions, hd.writeSlots, hd.seqMeta]
    exact hrun
  · rw [hd.lastIdx]
    exact indexRows_lastIdxs base e.tokensOf
      (fun en => T.norm (T.hiddenAt en.1.base en.1.tok T.numLayers en.2)) hlen

/-! ### Phase 5: outputs -/

/-- The tokens drawn for request `r`. -/
def drawnFor (drawn : List (ℕ × ℕ)) (r : ℕ) : List ℕ := (drawn.filter fun d => d.1 = r).map Prod.snd

omit [Zero D] [Add X] in
theorem drawnFor_cons (d : ℕ × ℕ) (drawn : List (ℕ × ℕ)) (r : ℕ) :
    drawnFor (d :: drawn) r = (if d.1 = r then [d.2] else []) ++ drawnFor drawn r := by
  unfold drawnFor
  rw [List.filter_cons]
  split
  next h => rw [if_pos (of_decide_eq_true h)]; rfl
  next h => rw [if_neg fun hm => h (decide_eq_true hm)]; rfl

/-- **One token appended** to a request of the batch whose tokens are stored: it leaves the
batch, and is over iff it is done. -/
theorem Inv.append {s : Slice} {q' : Request D R} {tid : ℕ} {fin' : List ℕ}
    (h : Inv T base e (s :: sl) fin) (hr : s.req ∈ e.running) (hlen : s.len = 0)
    (htext : SameText ((e.req s.req).emit [tid]) q')
    (hcase : q'.done = true ∧ q'.state = .FINISHED ∧ fin' = fin ++ [s.req] ∨
      q'.done = false ∧ q'.state = .RUNNING ∧ fin' = fin ∧ s.req ∉ fin) :
    Inv T base (e.setReq s.req q') sl fin' := by
  have hnodup := h.slices_nodup
  rw [List.map_cons, List.nodup_cons] at hnodup
  have hns : ¬Sliced sl s.req := by
    rintro ⟨s', hs', heq⟩
    exact hnodup.1 (heq ▸ List.mem_map_of_mem hs')
  refine ⟨h.blockSize_pos, h.numLayers, h.chunk, h.accounted, h.disjoint, h.lists, h.created, hnodup.2,
    fun r' => ?_⟩
  rcases eq_or_ne r' s.req with rfl | hne
  · have hs := h.each s.req
    obtain ⟨hw, hp, hf⟩ := h.only_running hr
    have hreq : (e.setReq s.req q').req s.req = q' := Function.update_self _ _ _
    obtain ⟨hprompt, -, -, t, ht, hexact, hcount, -⟩ := hs.running hr
    obtain ⟨-, -, htab, hstored⟩ := hs.slice s List.mem_cons_self rfl
    obtain rfl := Option.some.inj (ht.symm.trans htab)
    have hnum : s.start + s.len = (e.req s.req).tokens.length := hcount ⟨s, List.mem_cons_self, rfl⟩
    have htokens : q'.tokens = (e.req s.req).tokens ++ [tid] := by
      rw [htext.tokens, Request.tokens_emit]
    have hout : q'.outputIds ≠ [] := by
      rw [htext.outputIds]
      exact List.append_ne_nil_of_right_ne_nil _ (List.cons_ne_nil _ _)
    refine ⟨fun _ hm => absurd hr hm, fun hm => absurd hm hw, fun hm => absurd hm hp, fun _ => ?_,
      fun hm => absurd hm hf, fun s' hs' heq => absurd ⟨s', hs', heq⟩ hns, fun t ht _ => ?_⟩
    · rw [hreq]
      refine ⟨?_, fun hlive => ?_, fun hover => ?_, _, ht, hexact, fun hm => absurd hm hns,
        fun _ => ⟨hout, ?_⟩⟩
      · rw [htext.promptIds]
        exact hprompt
      · rcases hcase with ⟨-, -, rfl⟩ | ⟨hdone, hstate, -, -⟩
        · exact absurd (by simp) hlive
        · exact ⟨hstate, Or.inr hdone⟩
      · rcases hcase with ⟨hdone, hstate, rfl⟩ | ⟨-, -, rfl, hlive⟩
        · exact ⟨hstate, hdone, hns⟩
        · exact absurd hover hlive
      · rw [htokens, List.length_append, ← hnum]
        rfl
    · obtain rfl := Option.some.inj (htab.symm.trans ht)
      refine ⟨?_, fun i p hp => hstored.computed i p (by have hp : s.start + s.len ≤ p := hp; omega)⟩
      rw [hreq, htokens]
      refine Transformer.Holds.append ?_ hnum.le [tid]
      rw [hlen]
      exact hstored.holds
  · refine (h.each r').congr h.accounted h.blockSize_pos (Function.update_of_ne hne _ _) Iff.rfl Iff.rfl
      Iff.rfl Iff.rfl rfl rfl rfl (fun _ _ _ _ _ => rfl) (fun s' hs' => ?_) ?_
    · rw [List.mem_cons]
      refine ⟨Or.inr, fun hm => hm.resolve_left ?_⟩
      rintro rfl
      exact hne hs'.symm
    · rcases hcase with ⟨-, -, rfl⟩ | ⟨-, -, rfl, -⟩
      · simp [hne]
      · exact Iff.rfl

/-- **The loop over the drawn tokens** appends each to its request and lists the requests
that are done. -/
theorem appendOutputs_spec (drawn : List (ℕ × ℕ)) {e : ContinuousBatchingEngine D R G} {sl : List Slice}
    {fin : List ℕ} (h : Inv T base e sl fin) (hdrawn : drawn.map Prod.fst = sl.map Slice.req)
    (hsl : ∀ s ∈ sl, s.len = 0 ∧ s.req ∈ e.running ∧ s.req ∉ fin) :
    ∃ done e', e.appendOutputs drawn = (.ok done, e') ∧ Inv T base e' [] (fin ++ done) ∧
      done.Sublist (sl.map Slice.req) ∧ e' = { e with req := e'.req } ∧
      ∀ r, SameText ((e.req r).emit (drawnFor drawn r)) (e'.req r) := by
  induction drawn generalizing e sl fin with
  | nil =>
    obtain rfl : sl = [] := List.map_eq_nil_iff.1 hdrawn.symm
    refine ⟨[], e, rfl, by rwa [List.append_nil], List.Sublist.refl _, rfl, fun r => ?_⟩
    rw [show drawnFor [] r = [] from rfl, Request.emit_nil]
    exact .refl _
  | cons d drawn ih =>
    obtain ⟨r, tid⟩ := d
    cases sl with
    | nil => exact absurd hdrawn (by simp)
    | cons s sl =>
    obtain ⟨rfl, hrest⟩ := List.cons.inj hdrawn
    obtain ⟨hlen, hr, hlive⟩ := hsl s List.mem_cons_self
    have hnodup := h.slices_nodup
    rw [List.map_cons, List.nodup_cons] at hnodup
    have htable : e.cache.manager.blockTable s.req = .ok ⟨s.blockIds, s.start + s.len⟩ := by
      unfold BlockManager.blockTable
      rw [h.slice_table List.mem_cons_self]
    obtain ⟨hstate, -⟩ := ((h.each s.req).running hr).live hlive
    set q : Request D R := { e.req s.req with
      outputIds := (e.req s.req).outputIds ++ [tid], curLen := s.start + s.len } with hq
    -- what the rest of the loop does after `s.req` became `q'`
    have hcont : ∀ (q' : Request D R) (fin' : List ℕ), Inv T base (e.setReq s.req q') sl fin' →
        SameText ((e.req s.req).emit [tid]) q' → (∀ s' ∈ sl, s'.req ∉ fin') →
        ∃ done e', (e.setReq s.req q').appendOutputs drawn = (.ok done, e') ∧
          Inv T base e' [] (fin' ++ done) ∧ done.Sublist (sl.map Slice.req) ∧
          e' = { e with req := e'.req } ∧
          ∀ r, SameText ((e.req r).emit (drawnFor ((s.req, tid) :: drawn) r)) (e'.req r) := by
      intro q' fin' hinv htext hfin'
      obtain ⟨done, e', heq, hinv', hsub, hframe, htext'⟩ := ih hinv hrest fun s' hs' =>
        ⟨(hsl s' (List.mem_cons_of_mem _ hs')).1, (hsl s' (List.mem_cons_of_mem _ hs')).2.1, hfin' s' hs'⟩
      refine ⟨done, e', heq, hinv', hsub, hframe, fun r => ?_⟩
      have := htext' r
      rw [drawnFor_cons, ← Request.emit_emit]
      rcases eq_or_ne r s.req with rfl | hne
      · rw [show (e.setReq s.req q').req s.req = q' from Function.update_self _ _ _] at this
        rw [if_pos rfl]
        exact (htext.emit _).trans this
      · rw [show (e.setReq s.req q').req r = e.req r from Function.update_of_ne hne _ _] at this
        rw [if_neg (Ne.symm hne), Request.emit_nil]
        exact this
    have hother : ∀ s' ∈ sl, s'.req ≠ s.req := fun s' hs' heq =>
      hnodup.1 (heq ▸ List.mem_map_of_mem hs')
    cases hdone : q.done with
    | true =>
      have htext : SameText ((e.req s.req).emit [tid]) { q with state := .FINISHED } :=
        ⟨rfl, rfl, rfl, rfl, rfl, rfl, rfl⟩
      obtain ⟨done, e', heq, hinv', hsub, hframe, htext'⟩ := hcont { q with state := .FINISHED }
        (fin ++ [s.req]) (h.append hr hlen htext (Or.inl ⟨hdone, rfl, rfl⟩)) htext fun s' hs' hm => by
          rcases List.mem_append.1 hm with hm | hm
          · exact (hsl s' (List.mem_cons_of_mem _ hs')).2.2 hm
          · exact hother s' hs' (List.mem_singleton.1 hm)
      refine ⟨s.req :: done, e', ?_, ?_, hsub.cons_cons _, hframe, htext'⟩
      · rw [appendOutputs]
        simp only [htable, ← hq, hdone, if_true]
        rw [heq]
      · rwa [List.append_assoc] at hinv'
    | false =>
      have htext : SameText ((e.req s.req).emit [tid]) q := ⟨rfl, rfl, rfl, rfl, rfl, rfl, rfl⟩
      obtain ⟨done, e', heq, hinv', hsub, hframe, htext'⟩ := hcont q fin
        (h.append hr hlen htext (Or.inr ⟨hdone, hstate, rfl, hlive⟩)) htext
        fun s' hs' => (hsl s' (List.mem_cons_of_mem _ hs')).2.2
      refine ⟨done, e', ?_, hinv', hsub.cons _, hframe, htext'⟩
      rw [appendOutputs]
      simp only [htable, ← hq, hdone, heq]
      rfl

/-- **The loop over the finished requests** retires each of them and frees its table. -/
theorem retire_spec (fin : List ℕ) {e : ContinuousBatchingEngine D R G} (h : Inv T base e [] fin)
    (hn : fin.Nodup) (hfin : ∀ r ∈ fin, r ∈ e.running) :
    ∃ e' m, e.retire fin = (.ok (), e') ∧ Inv T base e' [] [] ∧
      e' = { e.setManager m with running := e'.running, finished := e.finished ++ fin } ∧
      m.numBlocks = e.cache.manager.numBlocks ∧ m.blockSize = e.cache.manager.blockSize ∧
      (∀ r ∈ fin, m.tables.lookup r = none) ∧
      ∀ r, r ∉ fin → m.tables.lookup r = e.cache.manager.tables.lookup r := by
  induction fin generalizing e with
  | nil =>
    refine ⟨e, e.cache.manager, rfl, h, ?_, rfl, rfl, by simp, fun _ _ => rfl⟩
    rw [List.append_nil]
    rfl
  | cons r rs ih =>
    rw [List.nodup_cons] at hn
    have hr := hfin r List.mem_cons_self
    obtain ⟨hw, hp, hf⟩ := h.only_running hr
    obtain ⟨m, hfree, htouch, -, hgone, hacc⟩ := BlockManager.free_spec h.accounted r
    have hnd : e.running.Nodup := by
      have := h.lists
      simp only [List.nodup_append] at this
      exact this.1.2.1
    set e₁ : ContinuousBatchingEngine D R G := { e.setManager m with
      running := e.running.erase r, finished := e.finished ++ [r] } with he₁
    have hdisj : m.TablesDisjoint := h.disjoint.touches htouch fun t' ht' => by
      rw [hgone] at ht'
      cases ht'
    have hperm : (e₁.waiting ++ e₁.prefilling ++ e₁.running ++ e₁.finished).Perm
        (e.waiting ++ e.prefilling ++ e.running ++ e.finished) := by
      rw [List.append_assoc, List.append_assoc _ e.running]
      refine List.Perm.append_left _ ?_
      show (e.running.erase r ++ (e.finished ++ [r])).Perm (e.running ++ e.finished)
      rw [← List.append_assoc]
      exact (List.perm_append_singleton r _).trans ((List.perm_cons_erase hr).symm.append_right _)
    have hinv : Inv T base e₁ [] rs := by
      refine ⟨h.blockSize_pos.trans_eq htouch.blockSize.symm, h.numLayers, h.chunk, hacc, hdisj,
        hperm.nodup_iff.2 h.lists, fun r' => hperm.mem_iff.trans (h.created r'), h.slices_nodup,
        fun r' => ?_⟩
      rcases eq_or_ne r' r with rfl | hne
      · obtain ⟨-, -, hover, t, -, -, -, hcount⟩ := (h.each r').running hr
        obtain ⟨hstate, hdone, hns⟩ := hover List.mem_cons_self
        have hrun : r' ∉ e₁.running := hnd.not_mem_erase
        exact ⟨fun _ _ => hgone, fun hm => absurd hm hw, fun hm => absurd hm hp,
          fun hm => absurd hm hrun, fun _ => ⟨hstate, hdone, (hcount hns).1⟩,
          fun s hs => absurd hs List.not_mem_nil,
          fun t ht => absurd (hgone.symm.trans ht) (by simp)⟩
      · refine (h.each r').congr h.accounted h.blockSize_pos rfl Iff.rfl Iff.rfl
          (List.mem_erase_of_ne hne) ?_ (htouch.others r' hne) htouch.blockSize rfl (fun _ _ _ _ _ => rfl)
          (fun _ _ => Iff.rfl) ?_
        · show r' ∈ e.finished ++ [r] ↔ _
          simp [hne]
        · simp [hne]
    have hnext : ∀ r' ∈ rs, r' ∈ e₁.running := fun r' hr' => by
      refine (List.mem_erase_of_ne ?_).2 (hfin r' (List.mem_cons_of_mem _ hr'))
      rintro rfl
      exact hn.1 hr'
    obtain ⟨e', m', heq, hinv', hframe, hnb, hbs, hnone, hsame⟩ := ih hinv hn.2 hnext
    refine ⟨e', m', ?_, hinv', ?_, hnb.trans htouch.numBlocks, hbs.trans htouch.blockSize,
      fun r' hr' => ?_, fun r' hr' => ?_⟩
    · have hremove : remove e.running r = .ok (e.running.erase r) := if_pos hr
      rw [retire, hremove]
      simp only [hfree]
      exact heq
    · rw [hframe]
      simp only [he₁, setManager, List.append_assoc, List.singleton_append]
    · rcases List.mem_cons.1 hr' with rfl | hr'
      · exact (hsame r' hn.1).trans hgone
      · exact hnone r' hr'
    · rw [List.mem_cons, not_or] at hr'
      exact (hsame r' hr'.2).trans (htouch.others r' hr'.1)

/-- What phases 3 to 5 do to the engine, having drawn `drawn`. -/
structure Executed (e e' : ContinuousBatchingEngine D R G) (drawn : List (ℕ × ℕ)) : Prop where
  text : ∀ r, SameText ((e.req r).emit (drawnFor drawn r)) (e'.req r)
  waiting : e'.waiting = e.waiting
  prefilling : e'.prefilling = e.prefilling
  nextId : e'.nextId = e.nextId
  maxBatchTokens : e'.maxBatchTokens = e.maxBatchTokens
  chunkSize : e'.chunkSize = e.chunkSize
  numBlocks : e'.cache.manager.numBlocks = e.cache.manager.numBlocks
  blockSize : e'.cache.manager.blockSize = e.cache.manager.blockSize
  tables : ∀ r t, e'.cache.manager.tables.lookup r = some t → e.cache.manager.tables.lookup r = some t
  finished : ∃ done, e'.finished = e.finished ++ done ∧ ∀ r ∈ done, r ∈ drawn.map Prod.fst

/-- **Phase 5**: the tokens drawn for the slices that wait for one are appended, and the
requests then done are retired. -/
theorem deliver_spec (drawn : List (ℕ × ℕ)) (h : Inv T base e sl [])
    (hdrawn : drawn.map Prod.fst = sl.map Slice.req) (hsl : ∀ s ∈ sl, s.len = 0 ∧ s.req ∈ e.running) :
    ∃ done e₁ e', e.appendOutputs drawn = (.ok done, e₁) ∧ e₁.retire done = (.ok (), e') ∧
      Inv T base e' [] [] ∧ Executed e e' drawn ∧ e'.rng = e.rng := by
  obtain ⟨done, e₁, happ, hinv₁, hsub, hframe₁, htext⟩ := appendOutputs_spec drawn h hdrawn fun s hs =>
    ⟨(hsl s hs).1, (hsl s hs).2, List.not_mem_nil⟩
  rw [List.nil_append] at hinv₁
  have hdone : ∀ r ∈ done, r ∈ e₁.running := fun r hr => by
    obtain ⟨s, hs, rfl⟩ := List.mem_map.1 (hsub.subset hr)
    rw [hframe₁]
    exact (hsl s hs).2
  obtain ⟨e', m, hret, hinv, hframe, hnb, hbs, hgone, hsame⟩ :=
    retire_spec done hinv₁ (h.slices_nodup.sublist hsub) hdone
  have hall : e' = { e.setManager m with
      req := e₁.req, running := e'.running, finished := e.finished ++ done } := by
    rw [hframe, hframe₁]
    rfl
  rw [hframe₁] at hnb hbs
  refine ⟨done, e₁, e', happ, hret, hinv, ⟨fun r => ?_, by rw [hall]; rfl, by rw [hall]; rfl,
    by rw [hall]; rfl, by rw [hall]; rfl, by rw [hall]; rfl, by rw [hall]; exact hnb, by rw [hall]; exact hbs,
    fun r t ht => ?_, done, by rw [hall], fun r hr => ?_⟩, by rw [hall]; rfl⟩
  · rw [hall]
    exact htext r
  · rw [hall] at ht
    have ht : m.tables.lookup r = some t := ht
    by_cases hr : r ∈ done
    · rw [hgone r hr] at ht
      cases ht
    · rw [hsame r hr, hframe₁] at ht
      exact ht
  · rw [hdrawn]
    exact hsub.subset hr

/-! ### Phases 3 to 5 -/

/-- The logits of the next token of request `r`. -/
def ownLogits (T : Transformer X D R) (base : ℕ → BaseKV D) (e : ContinuousBatchingEngine D R G) (r : ℕ) :
    List R := T.logitsAfter (base r) (e.req r).tokens

/-- What a sampled request is: it runs, is not done, and the pool has room for its tokens. -/
theorem Inv.sampled (h : Inv T base e sl []) {s : Slice} (hs : s ∈ sl) (hsam : s.sampled = true) :
    s.req ∈ e.running ∧ ((e.req s.req).outputIds = [] ∨ (e.req s.req).done = false) ∧
      s.start + s.len = (e.req s.req).tokens.length ∧
      e.cache.manager.blocksNeeded (e.req s.req).tokens.length ≤ e.cache.manager.numBlocks := by
  have hr := ((h.each s.req).slice s hs rfl).2.1.1 hsam
  obtain ⟨-, hlive, -, t, ht, hexact, hcount, -⟩ := (h.each s.req).running hr
  obtain rfl := Option.some.inj (ht.symm.trans (h.slice_table hs))
  have hnum := hcount ⟨s, hs, rfl⟩
  refine ⟨hr, (hlive List.not_mem_nil).2, hnum, ?_⟩
  rw [← hnum]
  exact hexact ▸ h.accounted.length_le ht

variable [Field R] [LinearOrder R]

/-- The parameters `sample` is called with for the requests `rs`. -/
def paramsOf (e : ContinuousBatchingEngine D R G) : List ℕ → SamplingParams R
  | [] => .default
  | r :: _ => (e.req r).params

/-- What `sample` draws for the requests `rs`. -/
def drawRows (torch : Torch R) (src : Source R G) (T : Transformer X D R) (base : ℕ → BaseKV D)
    (e : ContinuousBatchingEngine D R G) (rs : List ℕ) : List ℕ × G :=
  (sample torch (e.paramsOf rs) (rs.map (ownLogits T base e))).run src e.rng

theorem length_drawRows (torch : Torch R) (src : Source R G) (T : Transformer X D R) (base : ℕ → BaseKV D)
    (e : ContinuousBatchingEngine D R G) (rs : List ℕ) :
    (drawRows torch src T base e rs).1.length = rs.length := by
  rw [drawRows, sample_eq, RandM.length_run_sequence, List.length_map, List.length_map]

/-- Nothing is drawn for no request. -/
theorem drawRows_nil (torch : Torch R) (src : Source R G) (T : Transformer X D R) (base : ℕ → BaseKV D)
    (e : ContinuousBatchingEngine D R G) : drawRows torch src T base e [] = ([], e.rng) := by
  rw [drawRows, sample_eq]
  rfl

omit [Zero D] [Field R] [LinearOrder R] in
/-- `Executed` says nothing of the pool, the number of steps and the generator. -/
theorem Executed.of_pool {pool : ℕ → ℕ → KV D} {n : ℕ} {rng : G} {drawn : List (ℕ × ℕ)}
    {e' : ContinuousBatchingEngine D R G}
    (h : Executed { e with cache := { e.cache with pool }, numSteps := n, rng := rng } e' drawn) :
    Executed e e' drawn :=
  ⟨h.text, h.waiting, h.prefilling, h.nextId, h.maxBatchTokens, h.chunkSize, h.numBlocks, h.blockSize,
    h.tables, h.finished⟩

omit [Zero D] [Field R] [LinearOrder R] in
/-- Nothing drawn. -/
theorem Executed.none (e : ContinuousBatchingEngine D R G) (pool : ℕ → ℕ → KV D) (n : ℕ) :
    Executed e { e with cache := { e.cache with pool }, numSteps := n } [] :=
  ⟨fun r => by rw [show drawnFor [] r = [] from rfl, Request.emit_nil]; exact .refl _,
    rfl, rfl, rfl, rfl, rfl, rfl, rfl, fun _ _ h => h, [], (List.append_nil _).symm, by simp⟩

/-- **Phases 3 to 5** never raise.  They append to each sampled request what one call of
`sample` draws for it from its own logits. -/
theorem execute_spec (torch : Torch R) (src : Source R G) (h : Inv T base e sl []) {b : Batch}
    (hd : Describes base e.tokensOf e.cache.blockSize b sl) (hsam : b.sampled = sl.map Slice.sampled)
    (hlen : ∀ s ∈ sl, 1 ≤ s.len) {rs : List ℕ}
    (hrs : (sl.filter fun s => s.sampled).map Slice.req = rs) :
    ∃ e', e.execute torch src T.runner b = (.ok (), e') ∧ Inv T base e' [] [] ∧
      Executed e e' (rs.zip (drawRows torch src T base e rs).1) ∧
      e'.rng = (drawRows torch src T base e rs).2 := by
  obtain ⟨hidden, pool, hfwd, hrows, hinv⟩ := forward_batch h hd hlen
  set e₁ : ContinuousBatchingEngine D R G :=
    { e with cache := { e.cache with pool }, numSteps := e.numSteps + 1 } with he₁
  have hbatch : sampleBatch b = rs := by rw [sampleBatch_eq hd.batch hsam, hrs]
  unfold execute
  rw [show T.runner.forward b.tokenIds b.positions b.writeSlots b.seqMeta e.cache =
    (.ok hidden, { e.cache with pool }) from hfwd]
  simp only [← he₁]
  cases hrs' : rs with
  | nil =>
    -- only chunks in the middle of a prompt
    have hnil : sl.filter (fun s => s.sampled) = [] := List.map_eq_nil_iff.1 (hrs.trans hrs')
    have hlast : b.lastIdx = [] := hd.lastIdx.trans ((lastIdxs_eq_nil 0 sl).2 hnil)
    refine ⟨e₁, ?_, ?_, ?_, ?_⟩
    · rw [if_pos hlast]
    · rw [awaiting, hnil] at hinv
      exact hinv
    · rw [List.zip_nil_left]
      exact .none e pool _
    · rw [drawRows_nil]
  | cons first rest =>
    have hne : b.lastIdx ≠ [] := fun hlast => by
      rw [(lastIdxs_eq_nil 0 sl).1 (hd.lastIdx.symm.trans hlast), List.map_nil] at hrs
      exact absurd (hrs.trans hrs') (by simp)
    have hlogits : T.runner.logits ((sl.filter fun s => s.sampled).map (lastHidden T base e.tokensOf)) =
        rs.map (ownLogits T base e) := by
      rw [← hrs, List.map_map]
      show ((sl.filter fun s => s.sampled).map _).map T.lmHead = _
      rw [List.map_map]
      refine List.map_congr_left fun s hs => ?_
      obtain ⟨hs, hsam⟩ := List.mem_filter.1 hs
      show T.lmHead (T.norm (T.hiddenAt _ _ _ (s.start + s.len - 1))) = _
      rw [(h.sampled hs hsam).2.2.1]
      rfl
    set drawn := drawRows torch src T base e rs with hdrawn
    have hdraw : (sample torch (e₁.req first).params (T.runner.logits
        ((sl.filter fun s => s.sampled).map (lastHidden T base e.tokensOf)))).run src e₁.rng = drawn := by
      rw [hlogits, hdrawn, drawRows, hrs']
      rfl
    have hfst : (rs.zip drawn.1).map Prod.fst = (awaiting sl).map Slice.req := by
      rw [awaiting_reqs, hrs]
      exact List.map_fst_zip (length_drawRows torch src T base e rs).ge
    have hinv₂ : Inv T base { e₁ with rng := drawn.2 } (awaiting sl) [] :=
      hinv.congr rfl rfl (.refl _) rfl rfl rfl rfl rfl rfl
    obtain ⟨done, e₂, e₃, happ, hret, hinv₃, hex, hrng⟩ := deliver_spec (rs.zip drawn.1) hinv₂ hfst
      fun s' hs' => by
        obtain ⟨s, hs, hsam, rfl⟩ := mem_awaiting.1 hs'
        exact ⟨rfl, (h.sampled hs hsam).1⟩
    rw [← hrs']
    refine ⟨e₃, ?_, hinv₃, hex.of_pool, hrng⟩
    rw [if_neg hne]
    simp only [hrows, hbatch, hrs']
    rw [hdraw, ← hrs', happ]
    exact hret

end ContinuousBatchingEngine
end DiSpec
