/-
# A string resident in a cache

`Resident T s sid toks`: the table of the sequence has as many tokens as `toks`, and
each of its positions holds the KV of that token, computed by `T` from the tokens
up to it.  The operations of the speculative engine act on it as on the string:
`_forward` appends (`forward_spec`, `extend_spec`), `truncate` takes leading tokens
(`Resident.truncate`).  What is left of a truncated table is never read: nothing
past the end of the string is spoken of.

`WritesAtEnd` is what is recorded on the way: every call of `_forward` starts at the
end of its table and writes the slots of its positions.
-/

import DiSpec.Engine.Generation
import DiSpec.Spec.Speculative

namespace DiSpec

/-- The call writes from the end of its table on. -/
def SpecCall.AtEnd (blockSize : ℕ) (c : SpecCall) : Prop :=
  c.startPos = c.numTokens ∧
    c.writeSlots = (List.range' c.numTokens c.tokens.length).map (Paging.slotAt blockSize c.blockIds)

/-- The logits after each of the tokens `new` that follow `toks`. -/
def Transformer.rowsAfter {X D R : Type} [Zero D] [Add X] (T : Transformer X D R)
    (toks new : List ℕ) : List (List R) :=
  (List.range new.length).map fun j => T.nextLogits (toks ++ new.take (j + 1))

namespace Side

variable {X D R : Type}

/-- The accounting of a cache. -/
structure Sound (s : Side D) : Prop where
  accounted : s.cache.manager.Accounted 0
  blockSize_pos : 0 < s.cache.blockSize

theorem Sound.setManager {s : Side D} (hs : s.Sound) {m : BlockManager} (h : m.Accounted 0)
    (hbs : m.blockSize = s.cache.manager.blockSize) : (s.setManager m).Sound := by
  refine ⟨h, ?_⟩
  show 0 < m.blockSize
  rw [hbs]
  exact hs.blockSize_pos

/-- From `s` to `s'` no table but that of the sequence changes, and the calls made write at
the end of it. -/
structure WritesAtEnd (s s' : Side D) (sid : ℕ) : Prop where
  touches : BlockManager.Touches s.cache.manager s'.cache.manager sid
  calls : ∃ new, s'.calls = s.calls ++ new ∧ ∀ c ∈ new, c.AtEnd s.cache.blockSize

theorem WritesAtEnd.refl (s : Side D) (sid : ℕ) : WritesAtEnd s s sid :=
  ⟨.refl _ _, [], by simp, by simp⟩

theorem WritesAtEnd.trans {s₁ s₂ s₃ : Side D} {sid : ℕ} (h : WritesAtEnd s₁ s₂ sid)
    (h' : WritesAtEnd s₂ s₃ sid) : WritesAtEnd s₁ s₃ sid := by
  obtain ⟨new, hnew, hall⟩ := h.calls
  obtain ⟨new', hnew', hall'⟩ := h'.calls
  have hbs : s₂.cache.blockSize = s₁.cache.blockSize := h.touches.blockSize
  refine ⟨h.touches.trans h'.touches, new ++ new', ?_, fun c hc => ?_⟩
  · rw [hnew', hnew, List.append_assoc]
  · rcases List.mem_append.1 hc with hc | hc
    · exact hall c hc
    · exact hbs ▸ hall' c hc

/-- Another manager, the calls as they were. -/
theorem writesAtEnd_setManager {s : Side D} {m : BlockManager} {sid : ℕ}
    (h : BlockManager.Touches s.cache.manager m sid) : WritesAtEnd s (s.setManager m) sid :=
  ⟨h, [], (List.append_nil _).symm, by simp⟩

/-- **`allocate`** of an unknown id reserves the blocks of a string, or raises. -/
theorem allocate_spec {s : Side D} (hs : s.Sound) (sid n : ℕ) :
    ∃ r s', s.allocate sid n = (r, s') ∧ s'.Sound ∧ WritesAtEnd s s' sid ∧
      ((∃ x, r = .error x ∧ (s.cache.manager.tables.lookup sid = none →
        ∃ msg, x = .OutOfBlocksError msg)) ∨
        ∃ t, r = .ok t ∧ t.numTokens = n ∧ s'.cache.manager.tables.lookup sid = some t) := by
  have hbs := hs.blockSize_pos
  rcases BlockManager.allocate_spec hs.accounted hbs sid n List.nodup_nil (by simp) (Nat.zero_le _) with
    ⟨hhas, msg, heq⟩ | ⟨hnone, -, msg, heq⟩ | ⟨-, new, m, heq, hext, -, hacc⟩
  · refine ⟨_, s, ?_, hs, .refl s sid, Or.inl ⟨.ValueError msg, rfl, fun hnone => ?_⟩⟩
    · rw [allocate, heq]
      rfl
    · rw [BlockManager.hasTable, hnone] at hhas
      cases hhas
  · refine ⟨_, s, ?_, hs, .refl s sid, Or.inl ⟨.OutOfBlocksError msg, rfl, fun _ => ⟨msg, rfl⟩⟩⟩
    rw [allocate, heq]
    rfl
  · refine ⟨_, s.setManager m, ?_, hs.setManager hacc hext.blockSize,
      writesAtEnd_setManager hext.toTouches, Or.inr ⟨⟨[] ++ new, n⟩, rfl, rfl, hext.table⟩⟩
    rw [allocate, heq]

/-- **`free`** drops the table. -/
theorem free_spec {s : Side D} (hs : s.Sound) (sid : ℕ) :
    ∃ s', s.free sid = (.ok (), s') ∧ s'.Sound ∧ WritesAtEnd s s' sid ∧
      s'.cache.manager.tables.lookup sid = none := by
  obtain ⟨m, heq, htouch, -, hnone, hacc⟩ := BlockManager.free_spec hs.accounted sid
  refine ⟨s.setManager m, ?_, hs.setManager hacc htouch.blockSize,
    writesAtEnd_setManager htouch, hnone⟩
  rw [free, heq]

variable [Zero D] [Add X]

/-- The cache holds exactly `toks` for the sequence. -/
structure Resident (T : Transformer X D R) (s : Side D) (sid : ℕ) (toks : List ℕ) : Prop
    extends Sound s where
  table : ∃ t, s.cache.manager.tables.lookup sid = some t ∧ t.numTokens = toks.length ∧
    T.Holds s.cache t.blockIds noBase (str toks) toks.length

variable {T : Transformer X D R} {s : Side D} {sid : ℕ} {toks : List ℕ}

/-- The logits of a token depend on the tokens up to it. -/
theorem logits_eq_rowsAfter (T : Transformer X D R) (toks new : List ℕ) :
    ((List.range' toks.length new.length).map fun p =>
      T.lmHead (T.norm (T.hiddenAt noBase (str (toks ++ new)) T.numLayers p))) =
        T.rowsAfter toks new := by
  refine List.ext_getElem (by simp [Transformer.rowsAfter]) fun j h₁ h₂ => ?_
  simp only [List.length_map, List.length_range'] at h₁
  simp only [Transformer.rowsAfter, List.getElem_map, List.getElem_range', List.getElem_range,
    Nat.one_mul]
  have hlen : (toks ++ new.take (j + 1)).length - 1 = toks.length + j := by
    rw [List.length_append, List.length_take, min_eq_left h₁]
    omega
  rw [Transformer.nextLogits, Transformer.logitsAfter, hlen]
  refine congrArg _ (congrArg _ (T.hiddenAt_congr noBase _ fun i hi => ?_))
  conv_lhs => rw [← List.take_append_drop (j + 1) new, ← List.append_assoc]
  refine str_append_of_lt _ ?_
  rw [List.length_append, List.length_take, min_eq_left h₁]
  omega

/-- **`_forward`** of `new` after the string `toks`, whose KV the table holds, the table
being as long as `toks` or longer.  It raises `OutOfBlocksError` and only blocks
changed hands, or the table holds `toks ++ new` and the logits are those of `T`. -/
theorem forward_spec (T : Transformer X D R) (toks new : List ℕ) (hs : s.Sound) {t : BlockTable}
    (ht : s.cache.manager.tables.lookup sid = some t) (hle : toks.length ≤ t.numTokens)
    (hpast : T.Holds s.cache t.blockIds noBase (str toks) toks.length) :
    ∃ r s', s.forward T.runner sid new toks.length = (r, s') ∧ s'.Sound ∧
      BlockManager.Touches s.cache.manager s'.cache.manager sid ∧
      ((∃ msg, r = .error (.OutOfBlocksError msg)) ∧ s'.calls = s.calls ∨
        r = .ok (T.rowsAfter toks new) ∧ s'.Resident T sid (toks ++ new) ∧
          ∃ ids, s'.calls = s.calls ++ [⟨t.numTokens, toks.length, new, ids,
            (List.range' toks.length new.length).map (Paging.slotAt s.cache.blockSize ids)⟩]) := by
  have hbs := hs.blockSize_pos
  have hget : s.cache.manager.blockTable sid = .ok t := by rw [BlockManager.blockTable, ht]
  rcases BlockManager.reserve_spec hs.accounted hbs ht
      ((toks.length : ℤ) + new.length - t.numTokens) with
    ⟨-, msg, heq⟩ | ⟨ids, m, heq, hext, -, hroom, hacc⟩
  · refine ⟨.error (.OutOfBlocksError msg), s, ?_, hs, .refl _ _, Or.inl ⟨⟨msg, rfl⟩, rfl⟩⟩
    unfold forward
    rw [hget]
    simp only [heq]
    rfl
  set table : BlockTable := ⟨t.blockIds ++ ids, t.numTokens⟩ with htable
  set m' := m.setTable sid { table with numTokens := toks.length + new.length } with hm'
  have hmbs : m.blockSize = s.cache.blockSize := hext.blockSize
  have hbs' : 0 < m.blockSize := by rwa [hmbs]
  have hroom : toks.length + new.length ≤ table.blockIds.length * m.blockSize := by
    rw [hext.blockSize]
    have : (toks.length : ℤ) + new.length ≤
        ((t.blockIds ++ ids).length : ℤ) * s.cache.manager.blockSize := by omega
    exact_mod_cast this
  have hacc' : m'.Accounted 0 := hacc.setTokens hext.table hroom
  have ht' : m'.tables.lookup sid = some ⟨table.blockIds, toks.length + new.length⟩ :=
    AList.lookup_insert _
  have hget' : m.blockTable sid = .ok table := by rw [BlockManager.blockTable, hext.table]
  have hin : ∀ p ∈ List.range' toks.length new.length,
      p < table.blockIds.length * (s.setManager m).cache.blockSize :=
    fun p hp => (List.mem_range'_1.1 hp).2.trans_le hroom
  have hslots := (s.setManager m).cache.slotsForPositions_spec hbs' table.blockIds hin
  -- the past is where it was
  have hpast' : T.Holds (s.setManager m').cache table.blockIds noBase (str (toks ++ new))
      toks.length := by
    refine Transformer.Holds.append (fun i hi p hp => ?_) le_rfl new
    have hin := hs.accounted.capacity sid t ht
    show s.cache.pool i (Paging.slotAt m.blockSize (t.blockIds ++ ids) p) = _
    rw [hmbs, Paging.slotAt_append hbs ids (hp.trans_le (hle.trans hin))]
    exact hpast i hi p hp
  obtain ⟨pool, hrun, hnow, -⟩ := T.forward_one (c := (s.setManager m').cache) toks.length new.length
    (str (toks ++ new)) (fun _ _ _ => rfl) hbs' hroom (fun b hb => hacc'.block_lt ht' b hb)
    (hacc'.table_nodup sid ⟨table.blockIds, toks.length + new.length⟩ ht') hpast'
  have hnew : new = (List.range' toks.length new.length).map (str (toks ++ new)) := by
    rw [← take_drop_eq_map_str (toks ++ new) (by simp), List.drop_left, List.take_length]
  refine ⟨.ok (T.rowsAfter toks new), ⟨{ (s.setManager m').cache with pool }, _⟩, ?_,
    ⟨hacc', hbs'⟩, hext.toTouches.trans BlockManager.touches_setTable, Or.inr ⟨rfl, ⟨⟨hacc', hbs'⟩,
      ⟨table.blockIds, toks.length + new.length⟩, ht', by simp, ?_⟩, table.blockIds, rfl⟩⟩
  · unfold forward
    rw [hget]
    simp only [heq, hget', hslots, Transformer.runner]
    rw [← hnew, show (s.setManager m').cache.blockSize = (s.setManager m).cache.blockSize from rfl]
      at hrun
    rw [hrun, ← logits_eq_rowsAfter,
      show (s.setManager m).cache.blockSize = s.cache.blockSize from hmbs]
    simp only [Transformer.logits, List.map_map]
    rfl
  · rw [List.length_append]
    exact hnow

/-- The last of the logits, which is all that is used of most calls. -/
theorem getLast?_rowsAfter (T : Transformer X D R) (toks : List ℕ) {new : List ℕ} (h : new ≠ []) :
    (T.rowsAfter toks new).getLast? = some (T.nextLogits (toks ++ new)) := by
  obtain ⟨n, hn⟩ := Nat.exists_eq_succ_of_ne_zero (mt List.length_eq_zero_iff.1 h)
  rw [Transformer.rowsAfter, hn, List.range_succ, List.map_append, List.map_singleton,
    List.getLast?_concat, List.take_of_length_le hn.le]

/-- **`_forward` at the end of a resident string** raises `OutOfBlocksError`, or the string
gets longer. -/
theorem Resident.forward (new : List ℕ) (h : s.Resident T sid toks) :
    ∃ r s', s.forward T.runner sid new toks.length = (r, s') ∧ s'.Sound ∧ WritesAtEnd s s' sid ∧
      ((∃ msg, r = .error (.OutOfBlocksError msg)) ∨
        r = .ok (T.rowsAfter toks new) ∧ s'.Resident T sid (toks ++ new)) := by
  obtain ⟨t, ht, hlen, hholds⟩ := h.table
  obtain ⟨r, s', heq, hs', htouch, hcase⟩ := forward_spec T toks new h.toSound ht hlen.ge hholds
  refine ⟨r, s', heq, hs', ?_⟩
  rcases hcase with ⟨herr, hcalls⟩ | ⟨hok, hres, ids, hcalls⟩
  · exact ⟨⟨htouch, [], by simpa using hcalls, by simp⟩, Or.inl herr⟩
  · refine ⟨⟨htouch, _, hcalls, fun c hc => ?_⟩, Or.inr ⟨hok, hres⟩⟩
    obtain rfl := List.mem_singleton.1 hc
    rw [SpecCall.AtEnd, hlen]
    exact ⟨rfl, rfl⟩

theorem Resident.extend (new : List ℕ) (h : s.Resident T sid toks) :
    ∃ r s', s.extend T.runner sid new = (r, s') ∧ s'.Sound ∧ WritesAtEnd s s' sid ∧
      ((∃ msg, r = .error (.OutOfBlocksError msg)) ∨
        r = .ok (T.rowsAfter toks new) ∧ s'.Resident T sid (toks ++ new)) := by
  obtain ⟨t, ht, hlen, -⟩ := h.table
  obtain ⟨r, s', heq, hrest⟩ := h.forward new
  refine ⟨r, s', ?_, hrest⟩
  rw [Side.extend, BlockManager.blockTable, ht]
  simp only [hlen, heq]

/-- **`truncate`** leaves the leading tokens resident. -/
theorem Resident.truncate {n : ℕ} (h : s.Resident T sid toks) (hn : n ≤ toks.length) :
    ∃ s', s.truncate sid n = (.ok (), s') ∧ WritesAtEnd s s' sid ∧ s'.Resident T sid (toks.take n) := by
  have hbs := h.blockSize_pos
  obtain ⟨t, ht, hlen, hholds⟩ := h.table
  obtain ⟨m, heq, htouch, -, ht', hacc⟩ :=
    BlockManager.truncate_spec h.accounted hbs ht (hlen.symm ▸ hn)
  have hmbs : m.blockSize = s.cache.blockSize := htouch.blockSize
  have hlen' : (toks.take n).length = n := by rw [List.length_take, min_eq_left hn]
  refine ⟨s.setManager m, ?_, writesAtEnd_setManager htouch,
    ⟨h.toSound.setManager hacc htouch.blockSize, _, ht', hlen'.symm, fun i hi p hp => ?_⟩⟩
  · rw [Side.truncate, heq]
  · rw [hlen'] at hp
    have hroom := s.cache.manager.blocksNeeded_mul_ge hbs n
    show s.cache.pool i (Paging.slotAt m.blockSize _ p) = _
    rw [hmbs, Paging.slotAt_take hbs (hp.trans_le hroom), hholds i hi p (hp.trans_le hn)]
    refine T.kvAt_congr noBase i fun j hj => ?_
    conv_lhs => rw [← List.take_append_drop n toks]
    exact str_append_of_lt _ (by rw [hlen']; omega)

end Side

end DiSpec
