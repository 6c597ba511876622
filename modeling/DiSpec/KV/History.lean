/-
# Histories of a block pool

One block manager with a prefix cache on it, and any sequence of operations on
the two.  `Op.Admissible` is what the callers owe: adopted blocks are distinct
blocks in use and no more than the sequence needs, a sequence is truncated to at
most its length, forked only to an id without a table, and its blocks are
registered while it is live.  Everything else is open: ids may be unknown or
repeated, the pool may run out.

`Op.exec_keeps` is the step and `Reachable.accounted` the run.
-/

import DiSpec.KV.PrefixPins
import Mathlib.Algebra.Order.Ring.Nat

namespace DiSpec

/-- The operations of `BlockManager` and `PrefixCache` that change state. -/
inductive Op
  | allocate (seq numTokens : ℕ) (reuse : List ℕ)
  | appendToken (seq : ℕ)
  | reserve (seq : ℕ) (numNewTokens : ℤ)
  | truncate (seq numTokens : ℕ)
  | free (seq : ℕ)
  | fork (parent child : ℕ)
  | insert (tokenIds : List ℕ) (seq : ℕ)
  | «match» (tokenIds : List ℕ)
  | evict (numBlocks : ℤ)

namespace Op

open BlockManager

variable {κ : Type}

/-- What one operation keeps: the accounting and the sizes, and the manager itself
if it raised. -/
def Keeps (m : BlockManager) (s : Except Exc Unit × BlockManager × PrefixCache κ) : Prop :=
  s.2.1.Accounted s.2.2.pins ∧ s.2.1.numBlocks = m.numBlocks ∧ s.2.1.blockSize = m.blockSize ∧
    ∀ e, s.1 = .error e → s.2.1 = m

theorem keeps_error {m : BlockManager} {c : PrefixCache κ} (h : m.Accounted c.pins) (e : Exc) :
    Keeps m (.error e, m, c) := ⟨h, rfl, rfl, fun _ _ => rfl⟩

theorem keeps_ok {m m' : BlockManager} {c : PrefixCache κ} (h : m'.Accounted c.pins)
    (hnb : m'.numBlocks = m.numBlocks) (hbs : m'.blockSize = m.blockSize) :
    Keeps m (.ok (), m', c) := ⟨h, hnb, hbs, fun _ he => by cases he⟩

variable [DecidableEq κ]

/-- Run one operation.  `insert` registers the blocks of the table of `seq`. -/
def exec (H : RollingHash κ) (m : BlockManager) (c : PrefixCache κ) :
    Op → Except Exc Unit × BlockManager × PrefixCache κ
  | .allocate seq n reuse =>
    match m.allocate seq n reuse with
    | (r, m) => (r.map fun _ => (), m, c)
  | .appendToken seq =>
    match m.appendToken seq with
    | (r, m) => (r.map fun _ => (), m, c)
  | .reserve seq k =>
    match m.reserve seq k with
    | (r, m) => (r, m, c)
  | .truncate seq n =>
    match m.truncate seq n with
    | (r, m) => (r, m, c)
  | .free seq =>
    match m.free seq with
    | (r, m) => (r, m, c)
  | .fork parent child =>
    match m.fork parent child with
    | (r, m) => (r.map fun _ => (), m, c)
  | .insert toks seq =>
    match m.blockTable seq with
    | .error e => (.error e, m, c)
    | .ok t =>
      match c.insert H m toks t.blockIds with
      | (r, c, m) => (r, m, c)
  | .match toks => (.ok (), m, (c.match H toks).2)
  | .evict k =>
    match c.evict m k with
    | (r, c, m) => (r.map fun _ => (), m, c)

/-- What the callers of an operation owe it. -/
def Admissible (m : BlockManager) : Op → Prop
  | .allocate _ n reuse =>
    reuse.Nodup ∧ (∀ b ∈ reuse, b ∈ m.refCount) ∧ reuse.length ≤ m.blocksNeeded n
  | .truncate seq n => ∀ t, m.tables.lookup seq = some t → n ≤ t.numTokens
  | .fork _ child => m.tables.lookup child = none
  | _ => True

/-- **One operation.**  It keeps the accounting and the sizes, and if it raised, the
manager is the one before it. -/
theorem exec_keeps (H : RollingHash κ) {m : BlockManager} {c : PrefixCache κ} (op : Op)
    (h : m.Accounted c.pins) (hbs : 0 < m.blockSize) (hadm : op.Admissible m) :
    Keeps m (op.exec H m c) := by
  cases op with
  | allocate seq n reuse =>
    obtain ⟨hr, hlive, hlen⟩ := hadm
    rw [exec]
    rcases allocate_spec h hbs seq n hr (fun b hb => (h.counted.mem_iff b).1 (hlive b hb)) hlen with
      ⟨-, msg, heq⟩ | ⟨-, -, msg, heq⟩ | ⟨-, new, m', heq, hext, -, hacc⟩
    · rw [heq]; exact keeps_error h _
    · rw [heq]; exact keeps_error h _
    · rw [heq]; exact keeps_ok hacc hext.numBlocks hext.blockSize
  | appendToken seq =>
    rw [exec]
    cases ht : m.tables.lookup seq with
    | none =>
      rw [show m.appendToken seq = (.error .KeyError, m) by rw [BlockManager.appendToken, ht]]
      exact keeps_error h _
    | some t =>
      rcases appendToken_spec h hbs ht with ⟨-, -, heq⟩ | ⟨new, b, m', heq, hext, -, -, hacc⟩
      · rw [heq]; exact keeps_error h _
      · rw [heq]; exact keeps_ok hacc hext.numBlocks hext.blockSize
  | reserve seq k =>
    rw [exec]
    cases ht : m.tables.lookup seq with
    | none =>
      rw [show m.reserve seq k = (.error .KeyError, m) by rw [BlockManager.reserve, ht]]
      exact keeps_error h _
    | some t =>
      rcases reserve_spec h hbs ht k with ⟨-, msg, heq⟩ | ⟨new, m', heq, hext, -, -, hacc⟩
      · rw [heq]; exact keeps_error h _
      · rw [heq]; exact keeps_ok hacc hext.numBlocks hext.blockSize
  | truncate seq n =>
    rw [exec]
    cases ht : m.tables.lookup seq with
    | none =>
      rw [show m.truncate seq n = (.error .KeyError, m) by rw [BlockManager.truncate, ht]]
      exact keeps_error h _
    | some t =>
      obtain ⟨m', heq, htouch, -, -, hacc⟩ := truncate_spec h hbs ht (hadm t ht)
      rw [heq]
      exact keeps_ok hacc htouch.numBlocks htouch.blockSize
  | free seq =>
    obtain ⟨m', heq, htouch, -, -, hacc⟩ := free_spec h seq
    rw [exec, heq]
    exact keeps_ok hacc htouch.numBlocks htouch.blockSize
  | fork parent child =>
    rw [exec]
    cases hp : m.tables.lookup parent with
    | none =>
      rw [show m.fork parent child = (.error .KeyError, m) by rw [BlockManager.fork, hp]]
      exact keeps_error h _
    | some p =>
      obtain ⟨m', heq, htouch, -, -, hacc⟩ := fork_spec h hp hadm
      rw [heq]
      exact keeps_ok hacc htouch.numBlocks htouch.blockSize
  | insert toks seq =>
    rw [exec]
    cases ht : m.tables.lookup seq with
    | none =>
      rw [show m.blockTable seq = .error .KeyError by rw [blockTable, ht]]
      exact keeps_error h _
    | some t =>
      have hlive : ∀ kb ∈ (PrefixCache.blockHashes H c.bs toks).zip t.blockIds,
          kb.2 ∈ m.tableBlocks + PrefixCache.pins { c with clock := c.clock + 1 } := fun kb hkb =>
        Multiset.mem_add.2 (Or.inl (mem_tableBlocks ht (List.of_mem_zip hkb).2))
      obtain ⟨c', m', heq, hacc, hnb, hbs', -⟩ :=
        PrefixCache.insertLoop_spec { c with clock := c.clock + 1 } m _ h hlive
      rw [show m.blockTable seq = .ok t by rw [blockTable, ht]]
      simp only [PrefixCache.insert, heq]
      exact keeps_ok hacc hnb hbs'
  | «match» toks =>
    have hp : (c.match H toks).2.pins = c.pins :=
      (PrefixCache.matchLoop_spec { c with clock := c.clock + 1 }
        (PrefixCache.blockHashes H c.bs toks)).1
    rw [exec]
    exact keeps_ok (hp ▸ h) rfl rfl
  | evict k =>
    obtain ⟨hv, hn⟩ := c.victims_spec k
    obtain ⟨c', m', heq, hacc, hnb, hbs', -⟩ := c.evictLoop_spec m _ h hv hn
    rw [exec, PrefixCache.evict]
    simp only [heq]
    exact keeps_ok hacc hnb hbs'

end Op

/-- The states of a pool of `numBlocks` blocks reached by admissible operations,
whether they returned or raised. -/
inductive Reachable {κ : Type} [DecidableEq κ] (H : RollingHash κ) (numBlocks blockSize : ℕ) :
    BlockManager → PrefixCache κ → Prop
  | init : Reachable H numBlocks blockSize (.init numBlocks blockSize) (.init blockSize)
  | step {m c} (op : Op) : Reachable H numBlocks blockSize m c → op.Admissible m →
      Reachable H numBlocks blockSize (op.exec H m c).2.1 (op.exec H m c).2.2

/-- **Every history keeps the accounting.** -/
theorem Reachable.accounted {κ : Type} [DecidableEq κ] {H : RollingHash κ} {numBlocks blockSize : ℕ}
    (hbs : 0 < blockSize) {m : BlockManager} {c : PrefixCache κ}
    (h : Reachable H numBlocks blockSize m c) :
    m.Accounted c.pins ∧ m.numBlocks = numBlocks ∧ m.blockSize = blockSize := by
  induction h with
  | init => exact ⟨BlockManager.init_accounted numBlocks blockSize, rfl, rfl⟩
  | step op _ hadm ih =>
    obtain ⟨hacc, hnb, hbs'⟩ := ih
    obtain ⟨hacc', hnb', hbs'', -⟩ := op.exec_keeps H hacc (hbs' ▸ hbs) hadm
    exact ⟨hacc', hnb'.trans hnb, hbs''.trans hbs'⟩

/-- The references to block `b` over all tables and nodes. -/
def references {κ : Type} (m : BlockManager) (c : PrefixCache κ) (b : ℕ) : ℕ :=
  (m.tables.items.map fun e => e.2.blockIds.count b).sum +
    c.nodes.items.countP fun e => e.2.block = b

theorem references_eq_count {κ : Type} (m : BlockManager) (c : PrefixCache κ) (b : ℕ) :
    references m c b = (m.tableBlocks + c.pins).count b := by
  have h₁ : (m.tables.items.map fun e => e.2.blockIds.count b).sum = m.tableBlocks.count b := by
    have h := Dict.map_total (Multiset.countAddMonoidHom b)
      (fun _ t => (t.blockIds : Multiset ℕ)) m.tables
    rw [Multiset.coe_countAddMonoidHom] at h
    rw [BlockManager.tableBlocks, h, Dict.total, Dict.items, List.map_map, List.map_reverse,
      List.sum_reverse]
    simp only [Multiset.coe_count]
    rfl
  have h₂ : c.nodes.items.countP (fun e => e.2.block = b) = c.pins.count b := by
    have h := Dict.map_total (Multiset.countAddMonoidHom b)
      (fun _ n => ({n.block} : Multiset ℕ)) c.nodes
    rw [Multiset.coe_countAddMonoidHom] at h
    rw [PrefixCache.pins, h, Dict.total, Dict.items, List.countP_map, List.countP_reverse]
    induction c.nodes.entries with
    | nil => rfl
    | cons e l ih =>
      rw [List.countP_cons, ih, List.map_cons, List.sum_cons, add_comm, Multiset.count_singleton]
      simp [eq_comm]
  rw [references, h₁, h₂, Multiset.count_add]

/-- **Block accounting is exact over whole runs.**  In every reachable state the
free list repeats no block; a block is free iff it has no count; each count is the
number of occurrences of the block over all tables plus the number of nodes that
hold it; no table lists a block twice; every table has room for its tokens; and
whatever operation comes next, if it raises it leaves the manager as it was. -/
theorem block_accounting_exact {κ : Type} [DecidableEq κ] (H : RollingHash κ)
    {numBlocks blockSize : ℕ} (hbs : 1 ≤ blockSize) {m : BlockManager} {c : PrefixCache κ}
    (h : Reachable H numBlocks blockSize m c) :
    m.freeList.Nodup ∧
      (∀ b < numBlocks, b ∈ m.freeList ↔ b ∉ m.refCount) ∧
      (∀ b k, m.refCount.lookup b = some k → b < numBlocks ∧ 0 < k ∧ k = references m c b) ∧
      (∀ seq t, m.tables.lookup seq = some t →
        t.blockIds.Nodup ∧ t.numTokens ≤ t.blockIds.length * blockSize) ∧
      ∀ (op : Op) (e : Exc), op.Admissible m → (op.exec H m c).1 = .error e →
        (op.exec H m c).2.1 = m := by
  obtain ⟨hacc, hnb, hbs'⟩ := h.accounted hbs
  have hc := hacc.counted
  refine ⟨hc.free_nodup, fun b hb => hc.mem_free_iff ?_, fun b k hk => ?_, fun seq t ht => ?_,
    fun op e hadm he => ?_⟩
  · rw [hnb]
    exact Finset.mem_range.2 hb
  · have hb := (hc.mem_iff b).1 (Dict.mem_of_lookup hk)
    rw [hc.lookup_of_mem hb] at hk
    obtain rfl := Option.some.inj hk
    have hlt := hc.bounded b hb
    rw [hnb, Finset.mem_range] at hlt
    exact ⟨hlt, Multiset.count_pos.2 hb, (references_eq_count m c b).symm⟩
  · rw [← hbs']
    exact ⟨hacc.table_nodup seq t ht, hacc.capacity seq t ht⟩
  · exact (op.exec_keeps H hacc (hbs' ▸ hbs) hadm).2.2.2 e he

/-- A hash without collisions, the tokens themselves. -/
def listHash : RollingHash (List ℕ) := ⟨[], fun h chunk => h ++ chunk⟩

/-- The hypotheses are satisfiable: three tokens in blocks of two, forked. -/
theorem block_accounting_exact_forked :
    let s := (Op.allocate 1 3 []).exec listHash (.init 4 2) (.init 2)
    let s' := (Op.fork 1 2).exec listHash s.2.1 s.2.2
    s'.2.1.freeList.Nodup ∧ 3 < 4 ∧ 0 < 2 ∧ 2 = references s'.2.1 s'.2.2 3 :=
  have h₁ : (Op.allocate 1 3 []).Admissible (.init 4 2) := ⟨by decide, by decide, by decide⟩
  have h₂ : (Op.fork 1 2).Admissible ((Op.allocate 1 3 []).exec listHash (.init 4 2) (.init 2)).2.1 :=
    rfl
  have h := block_accounting_exact listHash (by decide) (.step _ (.step _ .init h₁) h₂)
  ⟨h.1, h.2.2.1 3 2 rfl⟩

end DiSpec
