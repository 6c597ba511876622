/-
# Admission in any state

A request of the queue takes its turn in phase 2: it is admitted if it waits, and then given
the next chunk of its prompt.  `Turn` says what such a turn may change however it ends, and
`admitRequest_any` that an admission is one.  An admission that raises has taken its blocks
already, and `Custody` says whose they are.
-/

import DiSpec.Sched.Queues

namespace DiSpec
namespace ContinuousBatchingEngine

variable {X D R G : Type} {e : ContinuousBatchingEngine D R G} {b : Batch} {r : ℕ}

/-- **The import of a supplied prefix in any state** writes the pool, and the table and the
fields of its own request. -/
theorem importPrefix_any (e : ContinuousBatchingEngine D R G) (b : Batch) (t : BlockTable)
    (ht : e.cache.manager.tables.lookup r = some t) (hpos : (e.req r).prefillPos = 0) :
    (∃ x c, e.importPrefix b r t = (.error x, { e with cache := c }, b) ∧ c.manager = e.cache.manager) ∨
    ∃ c l, e.importPrefix b r t = (.ok (),
        { e with
          cache := c
          req := Function.update e.req r
            { e.req r with prefillPos := prefixLen (e.req r).prefixKv, prefixKv := none } },
        { b with imports := b.imports ++ l }) ∧
      BlockManager.Touches e.cache.manager c.manager r ∧ c.dims = e.cache.dims ∧
      c.manager.freeList = e.cache.manager.freeList ∧ ∃ t', c.manager.tables.lookup r = some t' := by
  unfold importPrefix
  cases hkv : (e.req r).prefixKv with
  | none =>
    refine Or.inr ⟨e.cache, [], ?_, .refl _ _, rfl, rfl, t, ht⟩
    have hself : ({ e.req r with prefillPos := prefixLen (D := D) none, prefixKv := none } :
        Request D R) = e.req r := by
      rw [← hkv, show prefixLen (e.req r).prefixKv = (e.req r).prefillPos by rw [hkv, hpos]; rfl]
    simp only [hself, Function.update_eq_self, List.append_nil]
  | some kv =>
    obtain ⟨k, v⟩ := kv
    simp only
    have hm := e.cache.importContiguous_manager t.blockIds k v
    have hdims := e.cache.importContiguous_dims t.blockIds k v
    rcases himp : e.cache.importContiguous t.blockIds k v with ⟨x | ⟨⟩, c⟩
    · rw [himp] at hm
      exact Or.inl ⟨x, c, rfl, hm⟩
    · rw [himp] at hm hdims
      have hm : c.manager = e.cache.manager := hm
      refine Or.inr ⟨_, _, rfl, ?_, hdims, ?_, _, AList.lookup_insert _⟩
      · rw [← hm]
        exact BlockManager.touches_setTable
      · show c.manager.freeList = e.cache.manager.freeList
        rw [hm]

/-- With the blocks accounted for, and a prefix of the shape of the pool and room for it, the import
does not raise. -/
theorem importPrefix_ok (e : ContinuousBatchingEngine D R G) (b : Batch) (t : BlockTable)
    (hbs : 0 < e.cache.manager.blockSize) (hacc : e.cache.manager.Accounted 0)
    (ht : e.cache.manager.tables.lookup r = some t) (hfits : PrefixFits e.cache (e.req r))
    (hroom : prefixLen (e.req r).prefixKv ≤ t.blockIds.length * e.cache.manager.blockSize) :
    ∃ e' b' n, e.importPrefix b r t = (.ok (), e', b') ∧ e'.cache.manager.Accounted 0 ∧
      e'.cache.manager.tables.lookup r = some ⟨t.blockIds, n⟩ := by
  unfold importPrefix
  cases hkv : (e.req r).prefixKv with
  | none => exact ⟨e, b, t.numTokens, rfl, hacc, ht⟩
  | some kv =>
    obtain ⟨k, v⟩ := kv
    rw [hkv] at hroom
    obtain ⟨hk, hv, -⟩ := hfits k v hkv
    obtain ⟨pool, himp, -, -⟩ := e.cache.importContiguous_spec hbs (hacc.table_nodup r t ht)
      (hacc.block_lt ht) hk hv hroom
    simp only [himp]
    exact ⟨_, _, k.tokens, rfl, hacc.setTokens ht hroom, AList.lookup_insert _⟩

/-- What the turn of request `r` of the queue may change, in any state. -/
structure Turn (e e' : ContinuousBatchingEngine D R G) (r : ℕ) : Prop extends Moves e e' where
  others : ∀ r', r' ≠ r → e'.req r' = e.req r' ∧ (r' ∈ e'.waiting ↔ r' ∈ e.waiting) ∧
    (r' ∈ e'.prefilling ↔ r' ∈ e.prefilling)
  numDecodeTokens : e'.numDecodeTokens = e.numDecodeTokens
  custody {n : ℕ} : Custody n e → Custody n e'

theorem Turn.refl (e : ContinuousBatchingEngine D R G) (r : ℕ) : Turn e e r :=
  ⟨.refl e, fun _ _ => ⟨rfl, Iff.rfl, Iff.rfl⟩, rfl, fun h => h⟩

theorem Turn.trans {e₁ e₂ e₃ : ContinuousBatchingEngine D R G} (h : Turn e₁ e₂ r) (h' : Turn e₂ e₃ r) :
    Turn e₁ e₃ r := by
  refine ⟨h.toMoves.trans h'.toMoves, fun r' hne => ?_, h'.numDecodeTokens.trans h.numDecodeTokens,
    fun hc => h'.custody (h.custody hc)⟩
  obtain ⟨h₁, h₂, h₃⟩ := h.others r' hne
  obtain ⟨g₁, g₂, g₃⟩ := h'.others r' hne
  exact ⟨g₁.trans h₁, g₂.trans h₂, g₃.trans h₃⟩

/-- A turn that writes the fields of `r` and the cache, and leaves the queues. -/
theorem Turn.of_update {e' : ContinuousBatchingEngine D R G} {q : Request D R}
    (hreq : e'.req = Function.update e.req r q) (htext : SameText (e.req r) q)
    (hpos : (e.req r).prefillPos ≤ q.prefillPos) (hids : e'.ids.Perm e.ids)
    (hqueues : ∀ r', r' ≠ r → (r' ∈ e'.waiting ↔ r' ∈ e.waiting) ∧
      (r' ∈ e'.prefilling ↔ r' ∈ e.prefilling)) (hrun : ∀ r ∈ e.running, r ∈ e'.running)
    (hfixed : e'.finished = e.finished ∧ e'.nextId = e.nextId ∧ e'.maxBatchTokens = e.maxBatchTokens ∧
      e'.chunkSize = e.chunkSize ∧ e'.cache.manager.blockSize = e.cache.manager.blockSize ∧
      e'.numDecodeTokens = e.numDecodeTokens)
    (hcustody : ∀ {n}, Custody n e → Custody n e') : Turn e e' r := by
  obtain ⟨hf, hn, hm, hc, hs, hd⟩ := hfixed
  have hother : ∀ r', r' ≠ r → e'.req r' = e.req r' := fun r' hne => by
    rw [hreq, Function.update_of_ne hne]
  refine ⟨⟨fun r' => ?_, fun r' => ?_, hids, hrun, hf, hn, hm, hc, hs⟩,
    fun r' hne => ⟨hother r' hne, hqueues r' hne⟩, hd, hcustody⟩
  · rcases eq_or_ne r' r with rfl | hne
    · rw [hreq, Function.update_self]
      exact htext
    · rw [hother r' hne]
      exact .refl _
  · rcases eq_or_ne r' r with rfl | hne
    · rw [hreq, Function.update_self]
      exact hpos
    · rw [hother r' hne]

/-- **`Queues` after the turn of `r`**, if `r` is as it should be. -/
theorem Queues.turn {e' : ContinuousBatchingEngine D R G} (h : Queues e) (ht : Turn e e' r)
    (hw : r ∈ e'.waiting → (e'.req r).state = .WAITING ∧ (e'.req r).outputIds = [] ∧
      (e'.req r).prefillPos = 0 ∧
      (prefixLen (e'.req r).prefixKv = 0 ∨ prefixLen (e'.req r).prefixKv < (e'.req r).promptIds.length))
    (hp : r ∈ e'.prefilling → (e'.req r).state = .PREFILLING ∧ (e'.req r).outputIds = [] ∧
      ((e'.req r).prefillPos = 0 ∨ (e'.req r).prefillPos < (e'.req r).promptIds.length)) : Queues e' := by
  refine ⟨ht.ids.nodup_iff.2 h.nodup, fun r' hr' => ?_, fun r' => ?_, fun r' hr' => ?_, fun r' hr' => ?_, ?_⟩
  · rw [ht.nextId]
    exact h.bound r' (ht.ids.mem_iff.1 hr')
  · rw [(ht.text r').id]
    exact h.id r'
  · rcases eq_or_ne r' r with rfl | hne
    · exact hw hr'
    · obtain ⟨hreq, hwait, -⟩ := ht.others r' hne
      rw [hreq]
      exact h.waiting r' (hwait.1 hr')
  · rcases eq_or_ne r' r with rfl | hne
    · exact hp hr'
    · obtain ⟨hreq, -, hpre⟩ := ht.others r' hne
      rw [hreq]
      exact h.prefilling r' (hpre.1 hr')
  · rw [ht.chunkSize, ht.maxBatchTokens]
    exact h.chunk

/-- The engine after the admission of `r`, whose cache is then `c`. -/
def admitted (e : ContinuousBatchingEngine D R G) (r : ℕ) (c : PagedKVCache D) :
    ContinuousBatchingEngine D R G :=
  let q := e.req r
  { e with
    cache := c
    req := Function.update e.req r
      { q with prefillPos := prefixLen q.prefixKv, prefixKv := none, state := .PREFILLING }
    waiting := e.waiting.erase r
    prefilling := e.prefilling ++ [r] }

/-- With tenure, the import into the blocks just allocated does not raise. -/
theorem Tenure.importPrefix {n : ℕ} (hc : Tenure n e) (b : Batch) (hw : r ∈ e.waiting)
    (hcover : prefixLen (e.req r).prefixKv ≤ (e.req r).promptIds.length) {ids : List ℕ} {k : ℕ}
    {m : BlockManager}
    (halloc : e.cache.manager.allocate r (e.req r).promptIds.length [] = (.ok ⟨ids, k⟩, m)) :
    ∃ e' b' n, (e.setManager (m.setTable r ⟨ids, 0⟩)).importPrefix b r ⟨ids, 0⟩ = (.ok (), e', b') ∧
      e'.cache.manager.Accounted 0 ∧ e'.cache.manager.tables.lookup r = some ⟨ids, n⟩ ∧
      (e.req r).promptIds.length ≤ ids.length * e.cache.manager.blockSize := by
  rcases e.cache.manager.allocate_spec hc.accounted hc.blockSize_pos r (e.req r).promptIds.length
      List.nodup_nil (by simp) (Nat.zero_le _) with
    ⟨-, msg, herr⟩ | ⟨-, -, msg, herr⟩ | ⟨-, new, m', hok, hext, hnew, hacc⟩
  · cases halloc.symm.trans herr
  · cases halloc.symm.trans herr
  obtain ⟨hids, rfl⟩ := Prod.mk.inj (halloc.symm.trans hok)
  obtain rfl : ids = new := congrArg BlockTable.blockIds (Except.ok.inj hids)
  have hroom : (e.req r).promptIds.length ≤ ids.length * e.cache.manager.blockSize := by
    rw [hnew]
    exact e.cache.manager.blocksNeeded_mul_ge hc.blockSize_pos _
  have hsize : (m.setTable r ⟨ids, 0⟩).blockSize = e.cache.manager.blockSize := hext.blockSize
  obtain ⟨e', b', n, himp, hacc', hlook⟩ := importPrefix_ok (e.setManager (m.setTable r ⟨ids, 0⟩)) b ⟨ids, 0⟩
    (hc.blockSize_pos.trans_eq hsize.symm) (hacc.setTokens hext.table (Nat.zero_le _))
    (AList.lookup_insert _) ((hc.fits r hw).congr rfl) ((hcover.trans hroom).trans_eq (congrArg _ hsize.symm))
  exact ⟨e', b', n, himp, hacc', hlook, hroom⟩

/-- An admission keeps tenure, if the blocks of its request are accounted for. -/
theorem Tenure.admitted {n : ℕ} (h : Tenure n e) {c : PagedKVCache D}
    (htouch : BlockManager.Touches e.cache.manager c.manager r) (hdims : c.dims = e.cache.dims)
    (hacc : c.manager.Accounted 0) {t : BlockTable} (ht : c.manager.tables.lookup r = some t)
    (hroom : (e.req r).promptIds.length ≤ t.blockIds.length * e.cache.manager.blockSize) :
    Tenure n (e.admitted r c) := by
  have hmem : ∀ r', r' ≠ r → (r' ∈ e.prefilling ++ [r] ↔ r' ∈ e.prefilling) := fun r' hne => by simp [hne]
  have hin : r ∈ (e.admitted r c).prefilling := List.mem_append_right _ (List.mem_singleton_self r)
  refine h.act (r := r) (fun r' hne => ⟨Function.update_of_ne hne _ _, hmem r' hne, Iff.rfl⟩)
    (fun r' hr' => List.mem_of_mem_erase hr') (fun _ k v hkv => ?_) htouch hdims hacc
    (iff_of_true ⟨t, ht⟩ (Or.inl hin)) fun _ t' ht' => ?_
  · simp only [ContinuousBatchingEngine.admitted, Function.update_self] at hkv
    cases hkv
  obtain rfl := Option.some.inj (ht.symm.trans ht')
  simp only [ContinuousBatchingEngine.admitted, Function.update_self]
  exact hroom

/-- An admission is a turn of its request, if its cache is in custody. -/
theorem Turn.admitted (h : Queues e) (hw : r ∈ e.waiting) {c : PagedKVCache D}
    (htouch : BlockManager.Touches e.cache.manager c.manager r) (hdims : c.dims = e.cache.dims)
    (hcustody : ∀ {n}, Custody n e → c.manager.Accounted 0 ∧ ∃ t, c.manager.tables.lookup r = some t ∧
      (e.req r).promptIds.length ≤ t.blockIds.length * e.cache.manager.blockSize) :
    Turn e (e.admitted r c) r := by
  have hwn : e.waiting.Nodup := (h.nodup.of_append_left.of_append_left).of_append_left
  have hmem : ∀ r', r' ≠ r → (r' ∈ e.prefilling ++ [r] ↔ r' ∈ e.prefilling) := fun r' hne => by simp [hne]
  refine .of_update rfl ⟨rfl, rfl, rfl, rfl, rfl, rfl, rfl⟩ ?_ ?_
    (fun r' hne => ⟨List.mem_erase_of_ne hne, hmem r' hne⟩) (fun _ h => h)
    ⟨rfl, rfl, rfl, rfl, htouch.blockSize, rfl⟩ fun hc => ?_
  · exact (h.waiting r hw).2.2.1.trans_le (Nat.zero_le _)
  · exact ((perm_admitted hw).append_right _).append_right _
  · obtain ⟨hacc, t, ht, hroom⟩ := hcustody hc
    obtain ⟨-, hnr, -⟩ := not_mem_of_waiting h.nodup hw
    exact hc.of_tenure (r := r) (hc.toTenure.admitted htouch hdims hacc ht hroom) htouch.blockSize
      (fun r' hne => ⟨Function.update_of_ne hne _ _, Or.imp (hmem r' hne).1 List.mem_of_mem_erase,
        fun hr' => hr'⟩)
      (fun hm => absurd hm hnr) (Or.inr hw) (by simp [ContinuousBatchingEngine.admitted])

/-- **Admission in any state.**  The request is prefilling then, or the engine is as it was but
for its cache. -/
theorem admitRequest_any (h : Queues e) (b : Batch) (hr : r ∈ e.prefilling ∨ r ∈ e.waiting) :
    ∃ res e' l, e.admitRequest b r = (res, e', { b with imports := b.imports ++ l }) ∧ Turn e e' r ∧
      e'.numPrefillTokens = e.numPrefillTokens ∧ e'.running = e.running ∧
      Queues e' ∧
      (res = .ok false → e' = e ∧ e.cache.manager.freeList.length < e.blocksToAdmit (e.req r)) ∧
      (res = .ok true → r ∈ e'.prefilling ∧ (e'.req r).prefillPos = resumeAt (e.req r) ∧
        e.cache.manager.freeList.length =
          e'.cache.manager.freeList.length + e.blocksToAdmit (e.req r)) := by
  rcases hr with hp | hw
  · have hstate := (h.prefilling r hp).1
    refine ⟨.ok true, e, [], ?_, .refl e r, rfl, rfl, h, by simp, fun _ => ⟨hp, ?_, ?_⟩⟩
    · rw [admitRequest, if_pos (by rw [hstate]; decide), List.append_nil]
    · rw [resumeAt, if_neg (by rw [hstate]; decide)]
    · rw [blocksToAdmit, if_neg (by rw [hstate]; decide), Nat.add_zero]
  · obtain ⟨hstate, hout, hpos, hcover⟩ := h.waiting r hw
    have hneed : e.blocksToAdmit (e.req r) =
        e.cache.manager.blocksNeeded (e.req r).promptIds.length := if_pos hstate
    rw [admitRequest, if_neg (by rw [hstate]; decide)]
    rcases e.cache.manager.allocate_cases r (e.req r).promptIds.length with
      ⟨msg, halloc⟩ | ⟨hfew, msg, halloc⟩ | ⟨ids, m, halloc, htouch, hfree⟩
    · refine ⟨.error (.ValueError msg), e, [], ?_, .refl e r, rfl, rfl, h, by simp, by simp⟩
      simp only [halloc, Exc.isOutOfBlocks, List.append_nil]
      rfl
    · refine ⟨.ok false, e, [], ?_, .refl e r, rfl, rfl, h, fun _ => ⟨rfl, hneed ▸ hfew⟩, by simp⟩
      simp only [halloc, Exc.isOutOfBlocks, List.append_nil]
      rfl
    · simp only [halloc]
      set e₁ : ContinuousBatchingEngine D R G := e.setManager (m.setTable r ⟨ids, 0⟩) with he₁
      have hlook : e₁.cache.manager.tables.lookup r = some ⟨ids, 0⟩ := AList.lookup_insert _
      have htouch₁ : BlockManager.Touches e.cache.manager e₁.cache.manager r :=
        htouch.trans BlockManager.touches_setTable
      have hle : prefixLen (e.req r).prefixKv ≤ (e.req r).promptIds.length :=
        hcover.elim (fun h0 => h0.trans_le (Nat.zero_le _)) fun hlt => hlt.le
      rcases importPrefix_any e₁ b ⟨ids, 0⟩ hlook hpos with
        ⟨x, c, himp, hc⟩ | ⟨c, l, himp, hcm, hdims, hcf, t', ht'⟩
      · have hbs : c.manager.blockSize = e.cache.manager.blockSize := by
          rw [hc]
          exact htouch₁.blockSize
        refine ⟨.error x, { e₁ with cache := c }, [], ?_, ?_, rfl, rfl, ?_, by simp, by simp⟩
        · simp only [himp, List.append_nil]
        · exact .of_update (Function.update_eq_self r e.req).symm (.refl _) le_rfl (.refl _)
            (fun _ _ => ⟨Iff.rfl, Iff.rfl⟩) (fun _ h => h) ⟨rfl, rfl, rfl, rfl, hbs, rfl⟩ fun hc => by
              obtain ⟨e', b', n, himp', -⟩ := hc.toTenure.importPrefix b hw hle halloc
              cases himp.symm.trans himp'
        · exact h.congr rfl (.refl _) rfl rfl rfl rfl rfl rfl
      · have hturn : Turn e (e.admitted r c) r := .admitted h hw (htouch₁.trans hcm) hdims fun hc => by
          obtain ⟨e', b', n, himp', hacc, hlook', hroom⟩ := hc.toTenure.importPrefix b hw hle halloc
          obtain ⟨-, h₁⟩ := Prod.mk.inj (himp.symm.trans himp')
          obtain ⟨rfl, -⟩ := Prod.mk.inj h₁
          exact ⟨hacc, _, hlook', hroom⟩
        have hreq : (e.admitted r c).req r = { e.req r with
            prefillPos := prefixLen (e.req r).prefixKv, prefixKv := none, state := .PREFILLING } :=
          Function.update_self _ _ _
        have hwn : e.waiting.Nodup := (h.nodup.of_append_left.of_append_left).of_append_left
        have hremove : remove e.waiting r = .ok (e.waiting.erase r) := if_pos hw
        refine ⟨.ok true, e.admitted r c, l, ?_, hturn, rfl, rfl, ?_, by simp, fun _ => ⟨?_, ?_, ?_⟩⟩
        · simp only [himp, setReq, Function.update_self, Function.update_idem]
          rw [show remove e₁.waiting r = .ok (e.waiting.erase r) from hremove]
          rfl
        · refine h.turn hturn (fun hm => absurd hm hwn.not_mem_erase) fun _ => ?_
          rw [hreq]
          exact ⟨rfl, hout, hcover⟩
        · exact List.mem_append_right _ (List.mem_singleton_self r)
        · rw [hreq, resumeAt, if_pos hstate]
        · rw [hneed, hfree]
          refine congrArg (· + _) (congrArg List.length ?_)
          exact hcf.symm

end ContinuousBatchingEngine
end DiSpec
