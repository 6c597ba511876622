/-
# Who holds the blocks, whatever was submitted

`Custody` asks for prompts that are not empty and fit the pool.  `Tenure`, a part of it, needs nothing of
the kind: the prefilling and the running requests hold the blocks, and nobody else, in every state
that calls lead to, raising or not, whatever they submit (`Tenure.leaves`).  So an admission fails for one
reason only, too few free blocks (`Tenure.admit`); and a step that raises has raised before
anything was drawn, so a request that got a token runs on iff it is not done (`Tenure.step`).
-/

import DiSpec.Sched.Progress

namespace DiSpec

namespace ContinuousBatchingEngine

variable {X D R G : Type} {e e' : ContinuousBatchingEngine D R G} {r n : ℕ}

/-! ### Phases 1 and 2 -/

/-- Phase 1 keeps tenure, raising or not. -/
theorem Tenure.decodeLoop (rs : List ℕ) {e : ContinuousBatchingEngine D R G} (h : Tenure n e)
    (hrs : ∀ r ∈ rs, r ∈ e.running) (b : Batch) : Tenure n (e.decodeLoop b rs).2.1 := by
  induction rs generalizing e b with
  | nil => exact h
  | cons r rs ih =>
    rw [ContinuousBatchingEngine.decodeLoop]
    split
    · exact h
    · obtain ⟨t, ht⟩ := (h.table r).2 (Or.inr (hrs r List.mem_cons_self))
      have happ := (h.appendToken (hrs r List.mem_cons_self) ht).1
      split
      · exact h
      · dsimp only
        split
        next heq =>
          rw [heq] at happ
          exact happ
        next heq =>
          rw [heq] at happ
          split
          · apply ih
            · exact happ.congr rfl rfl rfl (fun _ hr => hr) rfl rfl
            · exact fun r' hr' => hrs r' (List.mem_cons_of_mem _ hr')
          · exact happ
          · exact happ

/-- **An admission** fails for want of blocks and changes nothing, or succeeds. -/
theorem Tenure.admit (h : Tenure n e) (hq : Queues e) (hw : r ∈ e.waiting) (b : Batch) :
    (e.cache.manager.freeList.length < e.cache.manager.blocksNeeded (e.req r).promptIds.length ∧
      e.admitRequest b r = (.ok false, e, b)) ∨
    e.cache.manager.blocksNeeded (e.req r).promptIds.length ≤ e.cache.manager.freeList.length ∧
      ∃ c b', e.admitRequest b r = (.ok true, e.admitted r c, b') ∧ Tenure n (e.admitted r c) := by
  obtain ⟨hstate, -, hpos, hcover⟩ := hq.waiting r hw
  obtain ⟨hnp, hnr, -⟩ := not_mem_of_waiting hq.nodup hw
  rw [admitRequest, if_neg (by rw [hstate]; decide)]
  rcases e.cache.manager.allocate_spec h.accounted h.blockSize_pos r (e.req r).promptIds.length List.nodup_nil
      (by simp) (Nat.zero_le _) with
    ⟨hhas, -⟩ | ⟨-, hfew, msg, halloc⟩ | ⟨-, ids, m, halloc, hext, hlen, -⟩
  · -- a waiting request holds no table
    have hnone : e.cache.manager.tables.lookup r = none := by
      by_contra hsome
      obtain ⟨t, ht⟩ := Option.ne_none_iff_exists'.1 hsome
      exact ((h.table r).1 ⟨t, ht⟩).elim hnp hnr
    rw [BlockManager.hasTable, hnone] at hhas
    cases hhas
  · refine Or.inl ⟨hfew, ?_⟩
    simp only [halloc, Exc.isOutOfBlocks]
    rfl
  · rw [List.nil_append] at halloc
    set e₁ : ContinuousBatchingEngine D R G := e.setManager (m.setTable r ⟨ids, 0⟩) with he₁
    have htouch₁ : BlockManager.Touches e.cache.manager e₁.cache.manager r :=
      hext.toTouches.trans BlockManager.touches_setTable
    have hle : prefixLen (e.req r).prefixKv ≤ (e.req r).promptIds.length :=
      hcover.elim (fun h0 => h0.trans_le (Nat.zero_le _)) fun hlt => hlt.le
    have hfits : e.cache.manager.blocksNeeded (e.req r).promptIds.length ≤
        e.cache.manager.freeList.length := by
      rcases e.cache.manager.allocate_cases r (e.req r).promptIds.length with
        ⟨msg, herr⟩ | ⟨-, msg, herr⟩ | ⟨ids', m', -, -, hfree⟩
      · cases halloc.symm.trans herr
      · cases halloc.symm.trans herr
      · omega
    obtain ⟨e', b', k, himp, hacc, hlook, hroom⟩ := h.importPrefix b hw hle halloc
    rcases importPrefix_any e₁ b ⟨ids, 0⟩ (AList.lookup_insert _) hpos with
      ⟨x, c, himp', -⟩ | ⟨c, l, himp', hcm, hdims, -, -⟩
    · cases himp'.symm.trans himp
    · obtain ⟨-, h₁⟩ := Prod.mk.inj (himp'.symm.trans himp)
      obtain ⟨rfl, -⟩ := Prod.mk.inj h₁
      have hremove : remove e.waiting r = .ok (e.waiting.erase r) := if_pos hw
      refine Or.inr ⟨hfits, c, { b with imports := b.imports ++ l }, ?_,
        h.admitted (htouch₁.trans hcm) hdims hacc hlook hroom⟩
      simp only [halloc]
      rw [show (e.setManager (m.setTable r ⟨ids, 0⟩)).importPrefix b r ⟨ids, 0⟩ = _ from himp']
      simp only [setReq, Function.update_self, Function.update_idem]
      rw [show remove e₁.waiting r = .ok (e.waiting.erase r) from hremove]
      rfl

/-- The turn of a request of the queue: it prefills already, or waits to be admitted. -/
theorem Tenure.admitRequest (h : Tenure n e) (hq : Queues e) (hr : r ∈ e.prefilling ∨ r ∈ e.waiting)
    (b : Batch) : Tenure n (e.admitRequest b r).2.1 := by
  rcases hr with hp | hw
  · rw [ContinuousBatchingEngine.admitRequest, if_pos (by rw [(hq.prefilling r hp).1]; decide)]
    exact h
  · rcases h.admit hq hw b with ⟨-, heq⟩ | ⟨-, c, b', heq, h'⟩
    · rw [heq]
      exact h
    · rw [heq]
      exact h'

/-- The next chunk of a prompt, raising or not. -/
theorem Tenure.prefillChunk (h : Tenure n e) (hq : Queues e) (b : Batch) (hr : r ∈ e.prefilling) :
    Tenure n (e.prefillChunk b r).2.1 := by
  obtain ⟨t, ht⟩ := (h.table r).2 (Or.inl hr)
  set k := min (min ((e.req r).promptIds.length - (e.req r).prefillPos) e.chunkSize) b.budget with hk
  have hend : (e.req r).prefillPos + k ≤ (e.req r).promptIds.length := by
    have := (hq.prefilling r hr).2.2
    omega
  have hremove : remove e.prefilling r = .ok (e.prefilling.erase r) := if_pos hr
  rw [ContinuousBatchingEngine.prefillChunk, BlockManager.blockTable, ht]
  simp only [← hk]
  cases e.cache.slotsForList t.blockIds (List.range' (e.req r).prefillPos k) with
  | error x => exact h
  | ok slots =>
    by_cases hfin : (e.req r).promptIds.length ≤ (e.req r).prefillPos + k
    · simp only [if_pos hfin, setReq, setManager, hremove]
      exact h.promptEnded hq hr ht hend
    · simp only [if_neg hfin]
      exact h.promptAdvanced hr ht hend

/-- Phase 2 keeps tenure. -/
theorem Tenure.prefillLoop (rs : List ℕ) {e : ContinuousBatchingEngine D R G} (h : Tenure n e)
    (hq : Queues e) (b : Batch) (hn : rs.Nodup) (hrs : ∀ r ∈ rs, r ∈ e.prefilling ∨ r ∈ e.waiting) :
    Tenure n (e.prefillLoop b rs).2.1 := by
  induction rs generalizing e b with
  | nil => exact h
  | cons r rs ih =>
    rw [ContinuousBatchingEngine.prefillLoop]
    split
    · exact h
    next hb =>
      have hr := hrs r List.mem_cons_self
      have h₁ := h.admitRequest hq hr b
      obtain ⟨res, e₁, l, hadm, hturn, -, -, hq₁, -, hgo⟩ := admitRequest_any hq b hr
      rw [hadm] at h₁ ⊢
      cases res with
      | error x => exact h₁
      | ok go =>
        cases go with
        | false => exact h₁
        | true =>
          obtain ⟨hp, -, -⟩ := hgo rfl
          have h₂ := h₁.prefillChunk hq₁ { b with imports := b.imports ++ l } hp
          rcases prefillChunk_any hq₁ { b with imports := b.imports ++ l } hp with
            ⟨x, herr⟩ | ⟨e₂, b₂, s, heq, hturn₂, hq₂, -⟩
          · simp only [herr]
            exact h₁
          · rw [heq] at h₂
            simp only [heq]
            have hturn₂ := hturn.trans hturn₂
            rw [List.nodup_cons] at hn
            refine ih h₂ hq₂ b₂ hn.2 fun r' hr' => ?_
            obtain ⟨-, hw', hp'⟩ := hturn₂.others r' fun heq => hn.1 (heq ▸ hr')
            rw [hw', hp']
            exact hrs r' (List.mem_cons_of_mem _ hr')

/-- Phases 1 and 2 keep tenure. -/
theorem Tenure.schedule (h : Tenure n e) (hq : Queues e) : Tenure n e.schedule.2.1 := by
  have h₁ := h.decodeLoop e.running (fun _ hr => hr) e.emptyBatch
  obtain ⟨res, e₁, b₁, dec, heq, hdec⟩ := decodeLoop_any e.running e e.emptyBatch
  rw [heq] at h₁
  rw [ContinuousBatchingEngine.schedule, heq]
  cases res with
  | error x => exact h₁
  | ok =>
    have hbt := hdec.between hq
    apply Tenure.prefillLoop
    · exact h₁.congr rfl rfl rfl (fun r hr => (List.mem_insertionSort _).1 hr) rfl rfl
    · exact hbt.queues
    · exact hbt.turns
    · exact fun r hr => List.mem_append.1 hr

/-! ### A step, and runs -/

section

variable [Zero D] [Add X] [Field R] [LinearOrder R]

/-- **A step keeps tenure**, raising or not; a request that got a token in it runs on iff it is not
done. -/
theorem Tenure.step (h : Tenure n e) (hq : Queues e) (torch : Torch R) (src : Source R G)
    (T : Transformer X D R) : ∃ res e', e.step torch src T.runner = (res, e') ∧ Tenure n e' ∧
      ∀ r, (e'.req r).outputIds ≠ (e.req r).outputIds → (r ∈ e'.running ↔ (e'.req r).done = false) := by
  have h₁ := h.schedule hq
  obtain ⟨res, e₁, b, dec, new, heq, hs⟩ := schedule_any hq
  rw [heq] at h₁
  have hout : ∀ r, (e₁.req r).outputIds = (e.req r).outputIds := fun r => (hs.moves.text r).outputIds
  rw [ContinuousBatchingEngine.step, heq]
  cases res with
  | error x => exact ⟨_, e₁, rfl, h₁, fun r hr => absurd (hout r) hr⟩
  | ok =>
    by_cases hb : b.batch = []
    · exact ⟨_, e₁, if_pos hb, h₁, fun r hr => absurd (hout r) hr⟩
    · obtain ⟨hnodup, hrun⟩ := hs.toSample_running
      obtain ⟨res, e', hexec, h', -, hgot, -⟩ := execute_tenure torch src T h₁ hs.queues
        (hs.sampleBatch ▸ hnodup) (fun r hr => hrun r (hs.sampleBatch ▸ hr)) hs.length_lastIdx
      refine ⟨res, e', (if_neg hb).trans hexec, h', fun r hr => hgot r ?_⟩
      rwa [hout r]

/-- **Who holds the blocks in every state that calls lead to**, raising or not. -/
theorem Tenure.leaves (h : Tenure n e) (hq : Queues e) (torch : Torch R) (src : Source R G)
    (T : Transformer X D R) (cs : List (Call D R)) : Tenure n (leaves torch src T.runner e cs) := by
  induction cs generalizing e with
  | nil => exact h
  | cons c cs ih =>
    refine ih ?_ (hq.leave torch src T.runner c)
    cases c with
    | addRequest s => exact h.submit hq s
    | step =>
      obtain ⟨res, e', heq, h', -⟩ := h.step hq torch src T
      rw [leave, heq]
      exact h'

end

end ContinuousBatchingEngine
end DiSpec
