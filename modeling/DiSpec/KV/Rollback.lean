/-
# Rolling a sequence back

A sequence grows by `append_token`, which takes a block whenever its length is a multiple of the
block size, and by `reserve`, which rounds what is missing up to blocks and leaves the length to
its caller (`SpeculativeEngine._forward` assigns `num_tokens` afterwards).  However the two are
mixed, the blocks the sequence had stay in front and everything behind them is fresh (`Grown`), so
`truncate` to the length it started from drops exactly the fresh blocks.

What comes back is the same manager up to the order of the free list and of the entries of the
dictionaries (`SameButOrder`): the counts and the free set are determined by the tables, as long as
the manager accounts for its references (`sameButOrder_of_tables`).
-/

import DiSpec.KV.ForkIds

namespace DiSpec

namespace BlockManager

/-- The same manager up to the order of its free list and of its dictionaries. -/
structure SameButOrder (m m' : BlockManager) : Prop where
  numBlocks : m'.numBlocks = m.numBlocks
  blockSize : m'.blockSize = m.blockSize
  tables : ∀ seq, m'.tables.lookup seq = m.tables.lookup seq
  refCount : ∀ b, m'.refCount.lookup b = m.refCount.lookup b
  freeList : m'.freeList.Perm m.freeList

theorem SameButOrder.refl (m : BlockManager) : SameButOrder m m :=
  ⟨rfl, rfl, fun _ => rfl, fun _ => rfl, List.Perm.refl _⟩

/-- The same tables list the same blocks. -/
theorem tableBlocks_congr {m m' : BlockManager}
    (h : ∀ seq, m'.tables.lookup seq = m.tables.lookup seq) : m'.tableBlocks = m.tableBlocks := by
  have hperm : m'.tables.entries.Perm m.tables.entries :=
    List.lookup_ext m'.tables.nodupKeys m.tables.nodupKeys fun seq t => by
      show t ∈ m'.tables.lookup seq ↔ t ∈ m.tables.lookup seq
      rw [h seq]
  exact (hperm.map _).sum_eq

/-- **The tables determine the rest** where the counts record the same references. -/
theorem sameButOrder_of_tables {m m' : BlockManager} {pins : Multiset ℕ}
    (hc : RefCount.Counted (Finset.range m.numBlocks) m.freeList m.refCount (m.tableBlocks + pins))
    (hc' : RefCount.Counted (Finset.range m'.numBlocks) m'.freeList m'.refCount
      (m'.tableBlocks + pins))
    (hnb : m'.numBlocks = m.numBlocks) (hbs : m'.blockSize = m.blockSize)
    (htab : ∀ seq, m'.tables.lookup seq = m.tables.lookup seq) : SameButOrder m m' := by
  rw [tableBlocks_congr htab, hnb] at hc'
  refine ⟨hnb, hbs, htab, fun b => ?_, ?_⟩
  · rw [hc.lookup, hc'.lookup]
  · refine (List.perm_ext_iff_of_nodup hc'.free_nodup hc.free_nodup).2 fun b => ?_
    rw [hc.free_iff, hc'.free_iff]

/-- **`free`** of the only table that was added gives everything back. -/
theorem free_sameButOrder {m m' : BlockManager} {pins : Multiset ℕ} (hacc : m.Accounted pins)
    (hacc' : m'.Accounted pins) {seq : ℕ} (hfresh : m.tables.lookup seq = none)
    (htouch : Touches m m' seq) : ∃ m'', m'.free seq = (.ok (), m'') ∧ SameButOrder m m'' := by
  obtain ⟨m'', heq, htouch', -, hnone, hacc''⟩ := free_spec hacc' seq
  have hall := htouch.trans htouch'
  refine ⟨m'', heq, sameButOrder_of_tables hacc.counted hacc''.counted hall.numBlocks hall.blockSize
    fun s => ?_⟩
  rcases eq_or_ne s seq with rfl | hne
  · rw [hnone, hfresh]
  · exact hall.others s hne

/-- Truncating twice, to less and less, is truncating once. -/
theorem truncate_truncate {m : BlockManager} {pins : Multiset ℕ} (hbs : 0 < m.blockSize)
    (hc : RefCount.Counted (Finset.range m.numBlocks) m.freeList m.refCount (m.tableBlocks + pins))
    {seq : ℕ} {t : BlockTable} (ht : m.tables.lookup seq = some t) {n₀ n₁ : ℕ} (hn : n₁ ≤ n₀) :
    ∃ m₀ m₁ m₂, m.truncate seq n₀ = (.ok (), m₀) ∧ m₀.truncate seq n₁ = (.ok (), m₁) ∧
      m.truncate seq n₁ = (.ok (), m₂) ∧ SameButOrder m₂ m₁ := by
  obtain ⟨m₀, heq₀, htouch₀, -, htab₀, hc₀⟩ := truncate_counted hc ht n₀
  obtain ⟨m₁, heq₁, htouch₁, -, htab₁, hc₁⟩ := truncate_counted hc₀ htab₀ n₁
  obtain ⟨m₂, heq₂, htouch₂, -, htab₂, hc₂⟩ := truncate_counted hc ht n₁
  have htouch := htouch₀.trans htouch₁
  refine ⟨m₀, m₁, m₂, heq₀, heq₁, heq₂, sameButOrder_of_tables hc₂ hc₁
    (htouch.numBlocks.trans htouch₂.numBlocks.symm) (htouch.blockSize.trans htouch₂.blockSize.symm)
    fun s => ?_⟩
  rcases eq_or_ne s seq with rfl | hne
  · have hle := m.blocksNeeded_mono hbs hn
    rw [htab₁, htab₂, blocksNeeded_congr htouch₀.blockSize, List.take_take, min_eq_left hle]
  · rw [htouch.others s hne, htouch₂.others s hne]

/-- Setting `num_tokens` of the table of `seq`, as `_forward` does after `reserve`. -/
def setNumTokens (m : BlockManager) (seq n : ℕ) : BlockManager :=
  match m.tables.lookup seq with
  | none => m
  | some t => m.setTable seq { t with numTokens := n }

end BlockManager

/-- What makes a sequence grow. -/
inductive Grow
  | appendToken
  | reserve (numNewTokens : ℤ)
  | setNumTokens (n : ℕ)

namespace Grow

open BlockManager

/-- The manager after one call on `seq`, raising or not. -/
def exec (seq : ℕ) (m : BlockManager) : Grow → BlockManager
  | .appendToken => (m.appendToken seq).2
  | .reserve k => (m.reserve seq k).2
  | .setNumTokens n => m.setNumTokens seq n

/-- The manager after a sequence of calls on `seq`. -/
def run (seq : ℕ) (m : BlockManager) (gs : List Grow) : BlockManager := gs.foldl (exec seq) m

/-- `num_tokens` is only advanced, and only within the capacity of the table. -/
def Fits (seq : ℕ) (m : BlockManager) : Grow → Prop
  | .setNumTokens n => ∀ t, m.tables.lookup seq = some t →
      t.numTokens ≤ n ∧ n ≤ t.blockIds.length * m.blockSize
  | _ => True

/-- Every call of the sequence fits the manager it meets. -/
def AllFit (seq : ℕ) : BlockManager → List Grow → Prop
  | _, [] => True
  | m, g :: gs => Fits seq m g ∧ AllFit seq (exec seq m g) gs

/-- `m'` is `m` with fresh blocks behind the blocks `ids` of `seq` and at least `n` tokens. -/
structure Grown (pins : Multiset ℕ) (m m' : BlockManager) (seq : ℕ) (ids : List ℕ) (n : ℕ) : Prop where
  accounted : m'.Accounted pins
  touches : Touches m m' seq
  table : ∃ new n', m'.tables.lookup seq = some ⟨ids ++ new, n'⟩ ∧ n ≤ n'

/-- **One call** grows the sequence, or raises and leaves it. -/
theorem Grown.exec {pins : Multiset ℕ} {m m' : BlockManager} {seq n : ℕ} {ids : List ℕ}
    (h : Grown pins m m' seq ids n) (hbs : 0 < m.blockSize) (g : Grow) (hfit : g.Fits seq m') :
    Grown pins m (g.exec seq m') seq ids n := by
  obtain ⟨hacc, htouch, new, n', ht, hn⟩ := h
  have hbs' : 0 < m'.blockSize := htouch.blockSize.symm ▸ hbs
  cases g with
  | appendToken =>
    rw [Grow.exec]
    rcases appendToken_spec hacc hbs' ht with ⟨-, -, heq⟩ | ⟨more, b, m'', heq, hext, -, -, hacc'⟩
    · rw [heq]
      exact ⟨hacc, htouch, new, n', ht, hn⟩
    · rw [heq]
      refine ⟨hacc', htouch.trans hext.toTouches, new ++ more, n' + 1, ?_, by omega⟩
      rw [← List.append_assoc]
      exact hext.table
  | reserve k =>
    rw [Grow.exec]
    rcases reserve_spec hacc hbs' ht k with ⟨-, msg, heq⟩ | ⟨more, m'', heq, hext, -, -, hacc'⟩
    · rw [heq]
      exact ⟨hacc, htouch, new, n', ht, hn⟩
    · rw [heq]
      refine ⟨hacc', htouch.trans hext.toTouches, new ++ more, n', ?_, hn⟩
      rw [← List.append_assoc]
      exact hext.table
  | setNumTokens k =>
    obtain ⟨hle, hcap⟩ := hfit _ ht
    have heq : m'.setNumTokens seq k = m'.setTable seq ⟨ids ++ new, k⟩ := by
      rw [BlockManager.setNumTokens, ht]
    rw [Grow.exec, heq]
    exact ⟨hacc.setTokens ht hcap, htouch.trans touches_setTable, new, k, AList.lookup_insert _,
      hn.trans hle⟩

/-- **Any sequence of calls.** -/
theorem Grown.run {pins : Multiset ℕ} {m m' : BlockManager} {seq n : ℕ} {ids : List ℕ}
    (h : Grown pins m m' seq ids n) (hbs : 0 < m.blockSize) (gs : List Grow) (hfit : AllFit seq m' gs) :
    Grown pins m (Grow.run seq m' gs) seq ids n := by
  induction gs generalizing m' with
  | nil => exact h
  | cons g gs ih => exact ih (h.exec hbs g hfit.1) hfit.2

/-- **Truncating what has grown** to its first length gives back the manager it grew from, if the
table held exactly the blocks its tokens needed. -/
theorem Grown.truncate {pins : Multiset ℕ} {m m' : BlockManager} {seq : ℕ} {t : BlockTable}
    (hacc : m.Accounted pins) (ht : m.tables.lookup seq = some t)
    (hexact : t.blockIds.length = m.blocksNeeded t.numTokens)
    (h : Grown pins m m' seq t.blockIds t.numTokens) :
    ∃ m'', m'.truncate seq t.numTokens = (.ok (), m'') ∧ SameButOrder m m'' := by
  obtain ⟨hacc', htouch, new, n', ht', -⟩ := h
  obtain ⟨m'', heq, htouch', -, htab, hc⟩ := truncate_counted hacc'.counted ht' t.numTokens
  have hall := htouch.trans htouch'
  refine ⟨m'', heq, sameButOrder_of_tables hacc.counted hc hall.numBlocks hall.blockSize fun s => ?_⟩
  rcases eq_or_ne s seq with rfl | hne
  · rw [htab, ht, blocksNeeded_congr htouch.blockSize, ← hexact, List.take_left']
    rfl
  · exact hall.others s hne

end Grow

/-- **Rolling back is the inverse of growing.**  In every state of a pool with a prefix cache that
any history reaches, whatever the ids of its forks, and for every live sequence that holds exactly
the blocks it needs: after any calls of `append_token` and `reserve`, raising or not, and advances
of `num_tokens` within what is reserved, `truncate` to the first length gives back the table, the
counts, the free set and every other table.  And truncating twice is truncating once. -/
theorem rollback_undoes_growth {κ : Type} [DecidableEq κ] (H : RollingHash κ)
    {numBlocks blockSize : ℕ} (hbs : 1 ≤ blockSize) (ops : List Op)
    (howed : Op.AllOwed H numBlocks blockSize ops) {seq : ℕ} {t : BlockTable}
    (ht : (Op.run H numBlocks blockSize ops).1.tables.lookup seq = some t)
    (hexact : t.blockIds.length = (Op.run H numBlocks blockSize ops).1.blocksNeeded t.numTokens)
    (gs : List Grow) (hfit : Grow.AllFit seq (Op.run H numBlocks blockSize ops).1 gs) :
    (∃ m', (Grow.run seq (Op.run H numBlocks blockSize ops).1 gs).truncate seq t.numTokens =
        (.ok (), m') ∧ (Op.run H numBlocks blockSize ops).1.SameButOrder m') ∧
      ∀ n₀ n₁, n₁ ≤ n₀ → ∃ m₀ m₁ m₂,
        (Grow.run seq (Op.run H numBlocks blockSize ops).1 gs).truncate seq n₀ = (.ok (), m₀) ∧
          m₀.truncate seq n₁ = (.ok (), m₁) ∧
          (Grow.run seq (Op.run H numBlocks blockSize ops).1 gs).truncate seq n₁ = (.ok (), m₂) ∧
          m₂.SameButOrder m₁ := by
  obtain ⟨lost, hacc, hsize, -⟩ := Op.run_lost hbs ops howed
  have hpos : 0 < (Op.run H numBlocks blockSize ops).1.blockSize := by rw [hsize]; exact hbs
  have hgrown := Grow.Grown.run ⟨hacc, BlockManager.Touches.refl _ _, [], t.numTokens,
    by rw [List.append_nil]; exact ht, le_rfl⟩ hpos gs hfit
  refine ⟨hgrown.truncate hacc ht hexact, fun n₀ n₁ hn => ?_⟩
  obtain ⟨hacc', htouch, new, n', ht', -⟩ := hgrown
  exact BlockManager.truncate_truncate (htouch.blockSize.symm ▸ hpos) hacc'.counted ht' hn

/-- The hypotheses are satisfiable: a full block of two tokens, three tokens reserved and two
stored, one appended on the boundary, all rolled back. -/
theorem rollback_undoes_growth_boundary :
    ∃ m', (Grow.run 0 (Op.run listHash 4 2 [.allocate 0 2 []]).1
        [.reserve 3, .setNumTokens 4, .appendToken]).truncate 0 2 = (.ok (), m') ∧
      (Op.run listHash 4 2 [.allocate 0 2 []]).1.SameButOrder m' := by
  have howed : Op.AllOwed listHash 4 2 [.allocate 0 2 []] :=
    Op.allOwed_single fun _ => ⟨by decide, by decide, by decide⟩
  have hfit : Grow.AllFit 0 (Op.run listHash 4 2 [.allocate 0 2 []]).1
      [.reserve 3, .setNumTokens 4, .appendToken] := by
    refine ⟨trivial, fun t ht => ?_, trivial, trivial⟩
    obtain rfl :=
      Option.some.inj ((show _ = some (⟨[3, 2, 1], 2⟩ : BlockTable) by decide +kernel).symm.trans ht)
    exact ⟨by decide, by decide⟩
  exact (rollback_undoes_growth listHash (by decide) _ howed
    (show _ = some (⟨[3], 2⟩ : BlockTable) by decide +kernel) (by decide +kernel) _ hfit).1

end DiSpec
