/-
# One sequence in a pool of its own

A pool that is `Idle` has every block free.  A call that serves one sequence at a time
starts from such a pool, and while it runs the pool holds that sequence and no other
(`Sole`): a table of `n` tokens on exactly the blocks those need.  Every operation
keeps this, whichever way the table grows or shrinks, so none raises `OutOfBlocksError`
before the tokens need more blocks than the whole pool has.
-/

import DiSpec.KV.Accounting

namespace DiSpec

namespace BlockManager

/-- Nothing is stored and nothing is pinned. -/
structure Idle (m : BlockManager) : Prop where
  accounted : m.Accounted 0
  blockSize_pos : 0 < m.blockSize
  none : ∀ s, m.tables.lookup s = none

/-- A new pool. -/
theorem init_idle (numBlocks : ℕ) {blockSize : ℕ} (hbs : 1 ≤ blockSize) : (init numBlocks blockSize).Idle :=
  ⟨init_accounted numBlocks blockSize, hbs, fun _ => rfl⟩

/-- The idle pool `m₀` with one sequence: `n` tokens on the blocks they need. -/
structure Sole (m₀ m : BlockManager) (seq n : ℕ) : Prop where
  accounted : m.Accounted 0
  touches : Touches m₀ m seq
  table : ∃ ids, m.tables.lookup seq = some ⟨ids, n⟩ ∧ ids.length = m₀.blocksNeeded n

variable {m₀ m : BlockManager} {seq n : ℕ}

theorem Sole.blocksNeeded (h : Sole m₀ m seq n) (k : ℕ) : m.blocksNeeded k = m₀.blocksNeeded k :=
  blocksNeeded_congr h.touches.blockSize k

theorem Sole.blockSize_pos (h₀ : Idle m₀) (h : Sole m₀ m seq n) : 0 < m.blockSize := by
  rw [h.touches.blockSize]
  exact h₀.blockSize_pos

/-- **Every block is free or in the table.** -/
theorem Sole.free_add (h₀ : Idle m₀) (h : Sole m₀ m seq n) :
    m.freeList.length + m₀.blocksNeeded n = m₀.numBlocks := by
  obtain ⟨ids, ht, hids⟩ := h.table
  rw [← hids, ← h.touches.numBlocks]
  have hle := h.accounted.free_add_le ht
  have hsub : List.range m.numBlocks ⊆ m.freeList ++ ids := by
    intro b hb
    by_cases hfree : b ∈ m.freeList
    · exact List.mem_append_left _ hfree
    · have hin : ∃ s t, m.tables.lookup s = some t ∧ b ∈ t.blockIds := by
        by_contra hno
        exact hfree (h.accounted.mem_free_iff.2 ⟨List.mem_range.1 hb, fun s t hs hb => hno ⟨s, t, hs, hb⟩⟩)
      obtain ⟨s, t, hs, hbt⟩ := hin
      rcases eq_or_ne s seq with rfl | hne
      · rw [ht] at hs
        obtain rfl := Option.some.inj hs
        exact List.mem_append_right _ hbt
      · rw [h.touches.others s hne, h₀.none] at hs
        cases hs
  have hge := (List.subperm_of_subset List.nodup_range hsub).length_le
  rw [List.length_range, List.length_append] at hge
  exact Nat.le_antisymm hle hge

/-- More tokens by whole blocks. -/
theorem blocksNeeded_add_mul (m : BlockManager) (hbs : 0 < m.blockSize) (a c : ℕ) :
    m.blocksNeeded (a + c * m.blockSize) = m.blocksNeeded a + c := by
  unfold BlockManager.blocksNeeded
  rw [← Nat.add_mul_div_right _ _ hbs]
  congr 1
  omega

/-- **`reserve` takes what is missing**: together with an exact table it makes an exact table. -/
theorem reserveExtra_exact (hbs : 0 < m.blockSize) {ids : List ℕ} (hids : ids.length = m.blocksNeeded n)
    (k : ℕ) : m.blocksNeeded n + m.reserveExtra ⟨ids, n⟩ k = m.blocksNeeded (n + k) := by
  have hge := m.blocksNeeded_mul_ge hbs n
  unfold reserveExtra
  simp only [hids, ← Int.natCast_mul]
  split
  next hlt =>
    have hnat : ((k : ℤ) - ((m.blocksNeeded n * m.blockSize : ℕ) - n)).toNat =
        n + k - m.blocksNeeded n * m.blockSize := by
      omega
    have hsum : n + k = (n + k - m.blocksNeeded n * m.blockSize) + m.blocksNeeded n * m.blockSize := by
      omega
    rw [hnat]
    conv_rhs => rw [hsum, m.blocksNeeded_add_mul hbs]
    exact Nat.add_comm _ _
  next hlt =>
    have hle := (m.blocksNeeded_le_iff hbs (n + k) (m.blocksNeeded n)).2 (by omega)
    have hmono := m.blocksNeeded_mono hbs (Nat.le_add_right n k)
    omega

/-! ### The operations -/

/-- **`allocate`** in an idle pool raises exactly when the pool is too small. -/
theorem Idle.allocate (h₀ : Idle m₀) (seq n : ℕ) :
    (m₀.numBlocks < m₀.blocksNeeded n ∧ ∃ msg, m₀.allocate seq n [] = (.error (.OutOfBlocksError msg), m₀)) ∨
    (m₀.blocksNeeded n ≤ m₀.numBlocks ∧
      ∃ t m, m₀.allocate seq n [] = (.ok t, m) ∧ m.tables.lookup seq = some t ∧ Sole m₀ m seq n) := by
  have hall := h₀.accounted.free_all h₀.none
  rcases allocate_spec h₀.accounted h₀.blockSize_pos seq n List.nodup_nil (by simp) (Nat.zero_le _) with
    ⟨hhas, -⟩ | ⟨-, hfew, msg, heq⟩ | ⟨-, new, m, heq, hext, hnew, hacc⟩
  · rw [hasTable, h₀.none] at hhas
    cases hhas
  · refine Or.inl ⟨?_, msg, heq⟩
    rw [List.length_nil] at hfew
    omega
  · rw [List.length_nil, Nat.sub_zero] at hnew
    have hlen := congrArg List.length hext.freeList
    rw [List.length_append, List.length_reverse] at hlen
    refine Or.inr ⟨by omega, _, m, heq, hext.table, hacc, hext.toTouches, [] ++ new, hext.table, ?_⟩
    rwa [List.nil_append]

/-- **`reserve`** raises exactly when the whole pool is too small. -/
theorem Sole.reserve (h₀ : Idle m₀) (h : Sole m₀ m seq n) (k : ℕ) :
    (m₀.numBlocks < m₀.blocksNeeded (n + k) ∧ ∃ msg, m.reserve seq k = (.error (.OutOfBlocksError msg), m)) ∨
    (m₀.blocksNeeded (n + k) ≤ m₀.numBlocks ∧ ∃ ids m', m.reserve seq k = (.ok (), m') ∧
      Touches m₀ m' seq ∧ m'.Accounted 0 ∧ m'.tables.lookup seq = some ⟨ids, n⟩ ∧
      ids.length = m₀.blocksNeeded (n + k)) := by
  have hbs := h.blockSize_pos h₀
  obtain ⟨ids, ht, hids⟩ := h.table
  have hfree := h.free_add h₀
  rw [← h.blocksNeeded] at hids hfree
  have hextra := reserveExtra_exact hbs hids k
  rw [h.blocksNeeded (n + k)] at hextra
  rcases reserve_spec h.accounted hbs ht k with ⟨hfew, msg, heq⟩ | ⟨new, m', heq, hext, hnew, -, hacc⟩
  · exact Or.inl ⟨by omega, msg, heq⟩
  · have hlen := congrArg List.length hext.freeList
    rw [List.length_append, List.length_reverse] at hlen
    refine Or.inr ⟨by omega, ids ++ new, m', heq, h.touches.trans hext.toTouches, hacc, hext.table, ?_⟩
    rw [List.length_append]
    omega

/-- Assigning `num_tokens` once the blocks are there. -/
theorem Sole.setTokens (h₀ : Idle m₀) (hacc : m.Accounted 0) (htouch : Touches m₀ m seq) {ids : List ℕ}
    (ht : m.tables.lookup seq = some ⟨ids, n⟩) {k : ℕ} (hids : ids.length = m₀.blocksNeeded k) :
    Sole m₀ (m.setTable seq ⟨ids, k⟩) seq k := by
  have hcap : k ≤ ids.length * m.blockSize := by
    rw [hids, htouch.blockSize]
    exact m₀.blocksNeeded_mul_ge h₀.blockSize_pos k
  exact ⟨hacc.setTokens ht hcap, htouch.trans touches_setTable, ids, AList.lookup_insert _, hids⟩

/-- **`truncate`** gives back every block the tokens left do not need. -/
theorem Sole.truncate (h₀ : Idle m₀) (h : Sole m₀ m seq n) {k : ℕ} (hk : k ≤ n) :
    ∃ m', m.truncate seq k = (.ok (), m') ∧ Sole m₀ m' seq k := by
  have hbs := h.blockSize_pos h₀
  obtain ⟨ids, ht, hids⟩ := h.table
  obtain ⟨m', heq, htouch, -, ht', hacc⟩ := truncate_spec h.accounted hbs ht hk
  refine ⟨m', heq, hacc, h.touches.trans htouch, _, ht', ?_⟩
  rw [List.length_take, hids, h.blocksNeeded]
  exact min_eq_left (m₀.blocksNeeded_mono h₀.blockSize_pos hk)

/-- **`free`** leaves the pool idle again. -/
theorem Sole.free (h₀ : Idle m₀) (h : Sole m₀ m seq n) :
    ∃ m', m.free seq = (.ok (), m') ∧ m'.Idle ∧ Touches m₀ m' seq := by
  obtain ⟨m', heq, htouch, -, hnone, hacc⟩ := free_spec h.accounted seq
  have hall := h.touches.trans htouch
  refine ⟨m', heq, ⟨hacc, hall.blockSize ▸ h₀.blockSize_pos, fun s => ?_⟩, hall⟩
  rcases eq_or_ne s seq with rfl | hne
  · exact hnone
  · exact (hall.others s hne).trans (h₀.none s)

end BlockManager

end DiSpec
