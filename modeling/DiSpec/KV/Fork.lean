/-
# Forked sequences that grow

`BlockManager.fork` shares the parent's blocks with a child and calls itself
copy-on-write, but nothing ever copies a block: `append_token` hands out the
slot after the last stored token in whatever block that slot lies in, shared or
not.  After a fork in the middle of a block the two sequences are handed the
same slot.

`append_exclusive_iff` says exactly when a handed-out slot is the sequence's
own.  A slot is safe if the token opens a fresh block, or if no other live
sequence that lists the block has filled it up to the token's offset.
-/

import DiSpec.KV.History

namespace DiSpec

namespace BlockManager

/-- Slot `s` holds a stored token of the live sequence `seq`. -/
def StoresAt (m : BlockManager) (seq : ℕ) (s : ℕ × ℕ) : Prop :=
  ∃ t pos, m.tables.lookup seq = some t ∧ pos < t.numTokens ∧ t.slot m.blockSize pos = .ok s

/-- The slot that `append_token` hands to `seq`, if it hands one out, is not in use
by another live sequence. -/
def AppendExclusive (m : BlockManager) (seq : ℕ) : Prop :=
  ∀ s m', m.appendToken seq = (.ok s, m') → ∀ other, other ≠ seq → ¬ m'.StoresAt other s

/-- Nothing that shares the block of the next token of `seq` has got that far: on a
block boundary the pool is exhausted, or the token opens a fresh block, or every
other table listing its block, at index `j`, ends at or before its offset there. -/
def MayGrow (m : BlockManager) (seq : ℕ) : Prop :=
  ∀ t, m.tables.lookup seq = some t →
    t.numTokens % m.blockSize = 0 ∧ m.freeList = [] ∨
      t.blockIds.length ≤ t.numTokens / m.blockSize ∨
      ∀ other, other ≠ seq → ∀ t', m.tables.lookup other = some t' →
        ∀ j, j < t'.blockIds.length → t'.blockIds[j]? = t.blockIds[t.numTokens / m.blockSize]? →
          t'.numTokens ≤ j * m.blockSize + t.numTokens % m.blockSize

theorem slot_eq_ok_iff {t : BlockTable} {bs pos : ℕ} {s : ℕ × ℕ} :
    t.slot bs pos = .ok s ↔ t.blockIds[pos / bs]? = some s.1 ∧ pos % bs = s.2 := by
  unfold BlockTable.slot
  split
  next b hb =>
    rw [hb]
    constructor
    · intro h
      obtain rfl := Except.ok.inj h
      exact ⟨rfl, rfl⟩
    · rintro ⟨h₁, h₂⟩
      rw [Option.some.inj h₁, h₂]
  next hb =>
    rw [hb]
    exact ⟨fun h => (by cases h), fun h => absurd h.1 (by simp)⟩

/-- **A handed-out slot is the sequence's own iff the sequence may grow there.** -/
theorem append_exclusive_iff {m : BlockManager} {pins : Multiset ℕ} (h : m.Accounted pins)
    (hbs : 0 < m.blockSize) (seq : ℕ) : m.AppendExclusive seq ↔ m.MayGrow seq := by
  cases ht : m.tables.lookup seq with
  | none =>
    refine ⟨fun _ t ht' => ?_, fun _ s m' heq => ?_⟩
    · rw [ht] at ht'
      cases ht'
    · rw [appendToken, ht] at heq
      cases heq
  | some t =>
    have hmay : m.MayGrow seq ↔ (t.numTokens % m.blockSize = 0 ∧ m.freeList = [] ∨
        t.blockIds.length ≤ t.numTokens / m.blockSize ∨
        ∀ other, other ≠ seq → ∀ t', m.tables.lookup other = some t' →
          ∀ j, j < t'.blockIds.length → t'.blockIds[j]? = t.blockIds[t.numTokens / m.blockSize]? →
            t'.numTokens ≤ j * m.blockSize + t.numTokens % m.blockSize) := by
      refine ⟨fun hg => hg t ht, fun hg t₁ ht₁ => ?_⟩
      obtain rfl := Option.some.inj (ht.symm.trans ht₁)
      exact hg
    rw [hmay]
    rcases appendToken_spec h hbs ht with ⟨h0, hnil, heq⟩ | ⟨new, b, m', heq, hext, hnew, hb, -⟩
    · refine ⟨fun _ => Or.inl ⟨h0, hnil⟩, fun _ s m' heq' => ?_⟩
      rw [heq] at heq'
      cases heq'
    have hstores : ∀ other, other ≠ seq → (m'.StoresAt other (b, t.numTokens % m.blockSize) ↔
        ∃ t' j, m.tables.lookup other = some t' ∧ j < t'.blockIds.length ∧
          t'.blockIds[j]? = some b ∧ j * m.blockSize + t.numTokens % m.blockSize < t'.numTokens) := by
      intro other hne
      rw [StoresAt, hext.blockSize, hext.others other hne]
      constructor
      · rintro ⟨t', pos, ht', hpos, hslot⟩
        obtain ⟨hblk, hoff⟩ := slot_eq_ok_iff.1 hslot
        refine ⟨t', pos / m.blockSize, ht', (List.getElem?_eq_some_iff.1 hblk).1, hblk, ?_⟩
        have := Nat.div_add_mod' pos m.blockSize
        rw [hoff] at this
        omega
      · rintro ⟨t', j, ht', -, hblk, hlt⟩
        refine ⟨t', j * m.blockSize + t.numTokens % m.blockSize, ht', hlt, slot_eq_ok_iff.2 ⟨?_, ?_⟩⟩
        · rw [Nat.mul_comm, Nat.mul_add_div hbs, Nat.div_eq_of_lt (Nat.mod_lt _ hbs)]
          exact hblk
        · rw [Nat.mul_comm, Nat.mul_add_mod, Nat.mod_mod]
    have hexcl : m.AppendExclusive seq ↔ ∀ other, other ≠ seq →
        ¬ m'.StoresAt other (b, t.numTokens % m.blockSize) := by
      refine ⟨fun hx other hne => hx _ _ heq other hne, fun hx s m₁ heq' other hne => ?_⟩
      obtain ⟨hs, rfl⟩ := Prod.mk.inj (heq.symm.trans heq')
      obtain rfl := Except.ok.inj hs
      exact hx other hne
    rw [hexcl]
    by_cases hlen : t.numTokens / m.blockSize < t.blockIds.length
    · -- the token falls into a block the table already lists
      rw [List.getElem?_append_left hlen] at hb
      constructor
      · intro hx
        refine Or.inr (Or.inr fun other hne t' ht' j hj hblk => not_lt.1 fun hlt => ?_)
        exact hx other hne ((hstores other hne).2 ⟨t', j, ht', hj, hblk.trans hb, hlt⟩)
      · rintro (⟨h0, hnil⟩ | hle | hx) other hne hst
        · rw [if_pos h0] at hnew
          have := hext.freeList
          rw [hnil] at this
          have hlen0 := congrArg List.length this
          simp only [List.length_nil, List.length_append, List.length_reverse, hnew] at hlen0
          omega
        · omega
        · obtain ⟨t', j, ht', hj, hblk, hlt⟩ := (hstores other hne).1 hst
          exact absurd hlt (not_lt.2 (hx other hne t' ht' j hj (hblk.trans hb.symm)))
    · -- the token opens a fresh block, which no table lists
      refine ⟨fun _ => Or.inr (Or.inl (not_lt.1 hlen)), fun _ other hne hst => ?_⟩
      obtain ⟨t', j, ht', hj, hblk, -⟩ := (hstores other hne).1 hst
      rw [List.getElem?_append_right (not_lt.1 hlen)] at hb
      obtain ⟨-, hfresh⟩ := h.fresh hext.freeList
      exact (hfresh b (List.mem_of_getElem? hb)).2.1
        (mem_tableBlocks ht' (List.mem_of_getElem? hblk))

end BlockManager

namespace Op

variable {κ : Type} [DecidableEq κ]

/-- The operations that grow, share, cut and drop sequences. -/
def OnFamily : Op → Prop
  | .fork _ _ | .appendToken _ | .truncate _ _ | .free _ => True
  | _ => False

/-- `P` holds of every operation of a run, with the manager it meets. -/
def Along (H : RollingHash κ) (P : BlockManager → Op → Prop) :
    BlockManager → PrefixCache κ → List Op → Prop
  | _, _, [] => True
  | m, c, op :: ops => P m op ∧ Along H P (op.exec H m c).2.1 (op.exec H m c).2.2 ops

/-- Two conditions that agree on every step of an admissible run of a reachable pool
agree on the run. -/
theorem along_congr {H : RollingHash κ} {numBlocks blockSize : ℕ} {P Q : BlockManager → Op → Prop}
    (hPQ : ∀ m c op, Reachable H numBlocks blockSize m c → (P m op ↔ Q m op))
    {m : BlockManager} {c : PrefixCache κ} (h : Reachable H numBlocks blockSize m c) (ops : List Op)
    (hadm : Along H (fun m op => op.Admissible m) m c ops) :
    Along H P m c ops ↔ Along H Q m c ops := by
  induction ops generalizing m c with
  | nil => exact Iff.rfl
  | cons op ops ih => exact and_congr (hPQ m c op h) (ih (h.step op hadm.1) hadm.2)

end Op

/-- Every slot `append_token` hands out in the run is exclusive. -/
def SlotsExclusive {κ : Type} [DecidableEq κ] (H : RollingHash κ) :
    BlockManager → PrefixCache κ → List Op → Prop :=
  Op.Along H fun m op => ∀ seq, op = .appendToken seq → m.AppendExclusive seq

/-- Copy-on-write as promised: from every reachable state, in every run of forks,
appends, truncations and frees, every slot handed out is exclusive. -/
def ForkIsCopyOnWrite : Prop :=
  ∀ (κ : Type) [DecidableEq κ] (H : RollingHash κ) (numBlocks blockSize : ℕ) (m : BlockManager)
    (c : PrefixCache κ), 1 ≤ blockSize → Reachable H numBlocks blockSize m c →
      ∀ ops : List Op, (∀ op ∈ ops, op.OnFamily) →
        Op.Along H (fun m op => op.Admissible m) m c ops → SlotsExclusive H m c ops

/-- **Two forks of half a block are handed the same slot.**  Three tokens in blocks of
two, forked, then one token appended to each. -/
theorem fork_not_copy_on_write : ¬ ForkIsCopyOnWrite := by
  intro h
  have hadm : (Op.allocate 1 3 []).Admissible (.init 4 2) := ⟨by decide, by decide, by decide⟩
  have hx := h (List ℕ) listHash 4 2 _ _ (by decide) (.step _ .init hadm)
    [.fork 1 2, .appendToken 1, .appendToken 2] (by simp [Op.OnFamily])
    ⟨rfl, trivial, trivial, trivial⟩
  refine hx.2.2.1 2 rfl (2, 1) _ rfl 1 (by decide) ⟨⟨[3, 2], 4⟩, 3, rfl, by decide, rfl⟩

/-- **Copy-on-write holds in exactly the runs in which each append meets `MayGrow`.** -/
theorem fork_exclusive_iff_mayGrow {κ : Type} [DecidableEq κ] (H : RollingHash κ)
    {numBlocks blockSize : ℕ} (hbs : 1 ≤ blockSize) {m : BlockManager} {c : PrefixCache κ}
    (h : Reachable H numBlocks blockSize m c) (ops : List Op)
    (hadm : Op.Along H (fun m op => op.Admissible m) m c ops) :
    SlotsExclusive H m c ops ↔
      Op.Along H (fun m op => ∀ seq, op = .appendToken seq → m.MayGrow seq) m c ops := by
  refine Op.along_congr (fun m c op hr => ?_) h ops hadm
  obtain ⟨hacc, -, hbs'⟩ := hr.accounted hbs
  exact forall_congr' fun seq => imp_congr_right fun _ =>
    BlockManager.append_exclusive_iff hacc (hbs' ▸ hbs) seq

/-- The hypotheses are satisfiable, and the condition with them: two forks of one full
block of two tokens both grow. -/
theorem fork_exclusive_full_block :
    SlotsExclusive listHash ((Op.allocate 1 2 []).exec listHash (.init 4 2) (.init 2)).2.1
        ((Op.allocate 1 2 []).exec listHash (.init 4 2) (.init 2)).2.2
        [.fork 1 2, .appendToken 1, .appendToken 2] ↔
      Op.Along listHash (fun m op => ∀ seq, op = .appendToken seq → m.MayGrow seq)
        ((Op.allocate 1 2 []).exec listHash (.init 4 2) (.init 2)).2.1
        ((Op.allocate 1 2 []).exec listHash (.init 4 2) (.init 2)).2.2
        [.fork 1 2, .appendToken 1, .appendToken 2] :=
  have hadm : (Op.allocate 1 2 []).Admissible (.init 4 2) := ⟨by decide, by decide, by decide⟩
  fork_exclusive_iff_mayGrow listHash (by decide) (.step _ .init hadm) _
    ⟨rfl, trivial, trivial, trivial⟩

end DiSpec
