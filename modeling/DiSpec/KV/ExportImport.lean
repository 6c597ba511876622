/-
# Export and import are inverse

`dispec/kv/paged_cache.py`: `export_contiguous`, `import_contiguous`.
`dispec/kv/block_manager.py`: `BlockTable.slot`.

A sequence's KV leaves its pool as contiguous tensors and enters another pool, or the same one,
under other blocks and another block size.  What counts is what a logical position holds
(`PagedKVCache.rowAt`).  The allocator's accounting says that no table repeats a block, so the
slots of distinct positions are distinct (`Paging.slotAt_inj`): the scatter of an import is well
defined, every position reads back what was put there (`import_rowAt`), and tables without a
common block do not see each other (`import_frame`, `Paging.slotAt_ne`).
-/

import DiSpec.KV.History
import DiSpec.KV.PagedCache

namespace DiSpec

/-- **A valid state of the allocator**: its records are those of its tables and of some pins. -/
def BlockManager.Valid (m : BlockManager) : Prop := 0 < m.blockSize ∧ ∃ pins, m.Accounted pins

/-- Every history of the allocator leaves it valid. -/
theorem Reachable.valid {κ : Type} [DecidableEq κ] {H : RollingHash κ} {numBlocks blockSize : ℕ}
    (hbs : 0 < blockSize) {m : BlockManager} {c : PrefixCache κ}
    (h : Reachable H numBlocks blockSize m c) : m.Valid := by
  obtain ⟨hacc, -, hsize⟩ := h.accounted hbs
  exact ⟨hsize ▸ hbs, c.pins, hacc⟩

variable {D : Type}

/-- Two tensors of one shape with the same rows. -/
structure KVTensor.Agrees (k k' : KVTensor D) : Prop where
  shape : (k'.layers, k'.tokens, k'.heads, k'.headDim) = (k.layers, k.tokens, k.heads, k.headDim)
  rows : ∀ i < k.layers, ∀ p < k.tokens, k'.rows i p = k.rows i p

namespace PagedKVCache

/-- The pools have the same layers, heads and head dimension. -/
def SameShape (c c' : PagedKVCache D) : Prop :=
  (c.numLayers, c.numKvHeads, c.headDim) = (c'.numLayers, c'.numKvHeads, c'.headDim)

/-- The K and V that logical position `p` of a table holds in a layer. -/
def rowAt (c : PagedKVCache D) (t : BlockTable) (layer p : ℕ) : Except Exc (KV D) :=
  (t.slot c.blockSize p).map fun s => c.pool layer (s.1 * c.blockSize + s.2)

variable {c : PagedKVCache D} {t : BlockTable} {n : ℕ}

theorem SameShape.shaped {c' : PagedKVCache D} (h : c.SameShape c') {k : KVTensor D} (hk : k.Shaped c n) :
    k.Shaped c' n := by
  obtain ⟨hlayers, hheads, hdim⟩ : c.numLayers = c'.numLayers ∧ c.numKvHeads = c'.numKvHeads ∧
      c.headDim = c'.headDim := by
    simpa [SameShape] using h
  rw [KVTensor.Shaped, hk, hlayers, hheads, hdim]

/-- The slot of a position within the table. -/
theorem slot_eq (hbs : 0 < c.blockSize) {p : ℕ} (hp : p < t.blockIds.length * c.blockSize) :
    t.slot c.blockSize p =
      .ok (Paging.slotAt c.blockSize t.blockIds p / c.blockSize,
        Paging.slotAt c.blockSize t.blockIds p % c.blockSize) := by
  obtain ⟨b, hb, hslot⟩ := BlockManager.slot_spec hbs hp
  rw [hslot, Paging.slotAt_div hbs, Paging.slotAt_mod, List.getD_eq_getElem?_getD, hb]
  rfl

/-- A position within the table holds the row at its paged slot. -/
theorem rowAt_eq (hbs : 0 < c.blockSize) (layer : ℕ) {p : ℕ} (hp : p < t.blockIds.length * c.blockSize) :
    c.rowAt t layer p = .ok (c.pool layer (Paging.slotAt c.blockSize t.blockIds p)) := by
  rw [rowAt, slot_eq hbs hp]
  show Except.ok (c.pool layer _) = _
  rw [Nat.div_add_mod']

/-- **An import is read back**, position by position, in every layer of the pool. -/
theorem import_rowAt (hvalid : c.manager.Valid) {sid : ℕ} (ht : c.manager.tables.lookup sid = some t)
    {k v : KVTensor D} (hk : k.Shaped c n) (hv : v.Shaped c n) (hroom : n ≤ t.blockIds.length * c.blockSize) :
    ∃ pool, c.importContiguous t.blockIds k v = (.ok (), { c with pool }) ∧
      ∀ i < c.numLayers, ∀ p < n, rowAt { c with pool } t i p = .ok ⟨k.rows i p, v.rows i p⟩ := by
  obtain ⟨hbs, pins, hacc⟩ := hvalid
  obtain rfl : k.tokens = n := congrArg (·.2.1) hk
  obtain ⟨pool, himp, hrows, -⟩ := c.importContiguous_spec hbs (hacc.table_nodup sid t ht)
    (hacc.block_lt ht) hk hv hroom
  refine ⟨pool, himp, fun i hi p hp => ?_⟩
  rw [rowAt_eq (c := { c with pool }) hbs i (hp.trans_le hroom)]
  exact congrArg _ (hrows i hi p hp)

/-- **An export reads the positions** one by one, in every layer. -/
theorem export_rowAt (hvalid : c.manager.Valid) {sid : ℕ} (ht : c.manager.tables.lookup sid = some t)
    (hroom : n ≤ t.blockIds.length * c.blockSize) :
    ∃ k v, c.exportContiguous t.blockIds n = .ok (k, v) ∧ k.Shaped c n ∧ v.Shaped c n ∧
      ∀ i, ∀ p < n, c.rowAt t i p = .ok ⟨k.rows i p, v.rows i p⟩ := by
  obtain ⟨hbs, pins, hacc⟩ := hvalid
  obtain ⟨k, v, hexp, -, hrows⟩ := c.exportContiguous_spec hbs (hacc.block_lt ht) hroom
  obtain ⟨hk, hv⟩ := exportContiguous_shape hexp
  refine ⟨k, v, hexp, hk, hv, fun i p hp => ?_⟩
  rw [rowAt_eq hbs i (hp.trans_le hroom), ← hrows i p hp]

/-- **An import changes the slots of its positions only**, also where it raises. -/
theorem import_frame (hbs : 0 < c.blockSize) (k v : KVTensor D)
    (hroom : k.tokens ≤ t.blockIds.length * c.blockSize) {i sl : ℕ}
    (hchanged : (c.importContiguous t.blockIds k v).2.pool i sl ≠ c.pool i sl) :
    ∃ p < k.tokens, sl = Paging.slotAt c.blockSize t.blockIds p := by
  obtain ⟨slots, hslots, hmem⟩ := (c.importContiguous_frame t.blockIds k v).2 i sl hchanged
  rw [c.contextSlots_spec hbs hroom] at hslots
  obtain rfl := Except.ok.inj hslots
  obtain ⟨p, hp, rfl⟩ := List.mem_map.1 hmem
  exact ⟨p, List.mem_range.1 hp, rfl⟩

/-- **A table without a common block does not see an import.** -/
theorem import_disjoint (hbs : 0 < c.blockSize) (k v : KVTensor D)
    (hroom : k.tokens ≤ t.blockIds.length * c.blockSize) {s : BlockTable}
    (hdisjoint : List.Disjoint s.blockIds t.blockIds) (i : ℕ) {p : ℕ}
    (hp : p < s.blockIds.length * c.blockSize) :
    (c.importContiguous t.blockIds k v).2.rowAt s i p = c.rowAt s i p := by
  have hafter := rowAt_eq (c := { c with pool := (c.importContiguous t.blockIds k v).2.pool }) hbs i hp
  rw [(c.importContiguous_frame t.blockIds k v).1, hafter, rowAt_eq hbs i hp]
  refine congrArg _ (by_contra fun hne => ?_)
  obtain ⟨q, hq, hsame⟩ := import_frame hbs k v hroom hne
  exact Paging.slotAt_ne hbs (fun b hb hb' => hdisjoint hb' hb) (hq.trans_le hroom) hp hsame.symm

end PagedKVCache

/-- **Export and import are inverse and framed.**  Take any caches in valid states, two live sequences
without a common block, in one cache or in two of one shape, and `n` tokens within both tables.
What the first exports, the second imports, and then both hold in every layer and position what
the first held before; what is imported is exported again; and an import changes rows of the
pool only, at slots of the first `n` positions of its sequence. -/
theorem export_import_inverse {ι D : Type} [DecidableEq ι] {caches : ι → PagedKVCache D} {a b : ι}
    (ha : (caches a).manager.Valid) (hb : (caches b).manager.Valid) {sid sid' : ℕ} {s t : BlockTable}
    (hs : (caches a).manager.tables.lookup sid = some s) (ht : (caches b).manager.tables.lookup sid' = some t)
    (hdisjoint : a = b → List.Disjoint s.blockIds t.blockIds)
    (hshape : (caches a).SameShape (caches b)) {n : ℕ}
    (hn : n ≤ s.blockIds.length * (caches a).blockSize)
    (hn' : n ≤ t.blockIds.length * (caches b).blockSize) :
    (∃ k v c', (caches a).exportContiguous s.blockIds n = .ok (k, v) ∧
      k.Shaped (caches b) n ∧ v.Shaped (caches b) n ∧
      (caches b).importContiguous t.blockIds k v = (.ok (), c') ∧
      let after := Function.update caches b c'
      ∀ i < (caches b).numLayers, ∀ p < n, ∃ row, (caches a).rowAt s i p = .ok row ∧
        (after a).rowAt s i p = .ok row ∧ (after b).rowAt t i p = .ok row) ∧
    (∀ k v, k.Shaped (caches b) n → v.Shaped (caches b) n → ∃ c' k' v',
      (caches b).importContiguous t.blockIds k v = (.ok (), c') ∧
      c'.exportContiguous t.blockIds n = .ok (k', v') ∧ k.Agrees k' ∧ v.Agrees v') ∧
    ∀ k v, k.tokens = n →
      let c' := ((caches b).importContiguous t.blockIds k v).2
      c' = { caches b with pool := c'.pool } ∧
      ∀ i sl, c'.pool i sl ≠ (caches b).pool i sl → ∃ p < n,
        t.slot (caches b).blockSize p = .ok (sl / (caches b).blockSize, sl % (caches b).blockSize) := by
  refine ⟨?_, fun k v hk hv => ?_, fun k v hk => ?_⟩
  · obtain ⟨k, v, hexp, hk, hv, hrows⟩ := PagedKVCache.export_rowAt ha hs hn
    have htokens : k.tokens = n := congrArg (·.2.1) hk
    obtain ⟨pool, himp, hback⟩ := PagedKVCache.import_rowAt hb ht (hshape.shaped hk) (hshape.shaped hv) hn'
    refine ⟨k, v, _, hexp, hshape.shaped hk, hshape.shaped hv, himp, ?_⟩
    intro after i hi p hp
    refine ⟨⟨k.rows i p, v.rows i p⟩, hrows i p hp, ?_, ?_⟩
    · rcases eq_or_ne a b with rfl | hne
      · -- in one cache the import goes past the blocks of the first sequence
        rw [show after a = { caches a with pool } from Function.update_self ..]
        have hsame := PagedKVCache.import_disjoint ha.1 k v (htokens ▸ hn') (hdisjoint rfl) i (hp.trans_le hn)
        rw [himp] at hsame
        exact hsame.trans (hrows i p hp)
      · rw [show after a = caches a from Function.update_of_ne hne ..]
        exact hrows i p hp
    · rw [show after b = { caches b with pool } from Function.update_self ..]
      exact hback i hi p hp
  · have htokens : k.tokens = n := congrArg (·.2.1) hk
    obtain ⟨pool, himp, hback⟩ := PagedKVCache.import_rowAt hb ht hk hv hn'
    obtain ⟨k', v', hexp, hk', hv', hrows⟩ := PagedKVCache.export_rowAt
      (c := { caches b with pool }) hb ht hn'
    have hread : ∀ i < (caches b).numLayers, ∀ p < n,
        (⟨k'.rows i p, v'.rows i p⟩ : KV D) = ⟨k.rows i p, v.rows i p⟩ := fun i hi p hp =>
      Except.ok.inj ((hrows i p hp).symm.trans (hback i hi p hp))
    have hlayers : k.layers = (caches b).numLayers := congrArg (·.1) hk
    have hlayers' : v.layers = (caches b).numLayers := congrArg (·.1) hv
    have htokens' : v.tokens = n := congrArg (·.2.1) hv
    refine ⟨_, k', v', himp, hexp, ⟨hk'.trans hk.symm, fun i hi p hp => ?_⟩,
      ⟨hv'.trans hv.symm, fun i hi p hp => ?_⟩⟩
    · exact congrArg KV.key (hread i (hlayers ▸ hi) p (htokens ▸ hp))
    · exact congrArg KV.value (hread i (hlayers' ▸ hi) p (htokens' ▸ hp))
  · intro c'
    refine ⟨((caches b).importContiguous_frame t.blockIds k v).1, fun i sl hne => ?_⟩
    obtain ⟨p, hp, rfl⟩ := PagedKVCache.import_frame hb.1 k v (hk ▸ hn') hne
    exact ⟨p, hk ▸ hp, PagedKVCache.slot_eq hb.1 ((hk ▸ hp : p < n).trans_le hn')⟩

/-- The hypotheses are satisfiable: five tokens go from blocks 4, 5 and 2 of a pool with two tokens a
block to blocks 3 and 0 of a pool with three. -/
theorem export_import_inverse_resized :
    let run numBlocks blockSize (ops : List Op) : BlockManager :=
      (ops.foldl (fun s op => (op.exec listHash s.1 s.2).2) (.init numBlocks blockSize, .init blockSize)).1
    let cache m : PagedKVCache ℤ := ⟨1, 1, 1, fun _ sl => ⟨[sl], [-sl]⟩, m⟩
    let caches := fun
      | false => cache (run 6 2 [.allocate 0 3 [], .allocate 1 2 [], .free 0, .allocate 2 5 []])
      | true => cache (run 4 3 [.allocate 0 2 [], .allocate 1 4 [], .free 0, .allocate 2 6 []])
    ∃ k v c', (caches false).exportContiguous [4, 5, 2] 5 = .ok (k, v) ∧
      (caches true).importContiguous [3, 0] k v = (.ok (), c') ∧
      ∀ p < 5, ∃ row, (caches false).rowAt ⟨[4, 5, 2], 5⟩ 0 p = .ok row ∧
        c'.rowAt ⟨[3, 0], 6⟩ 0 p = .ok row := by
  intro run cache caches
  have hadm : ∀ (m : BlockManager) seq n, (Op.allocate seq n []).Admissible m := fun m seq n =>
    ⟨List.nodup_nil, fun b hb => absurd hb List.not_mem_nil, Nat.zero_le _⟩
  have hvalid : ∀ numBlocks blockSize a b c, 0 < blockSize → (run numBlocks blockSize
      [.allocate 0 a [], .allocate 1 b [], .free 0, .allocate 2 c []]).Valid := by
    intro numBlocks blockSize a b c hbs
    exact @Reachable.valid _ _ listHash numBlocks blockSize hbs _ _ <|
      .step (.allocate 2 c []) (.step (.free 0) (.step (.allocate 1 b []) (.step (.allocate 0 a []) .init
        (hadm ..)) (hadm ..)) trivial) (hadm ..)
  obtain ⟨⟨k, v, c', hexp, -, -, himp, hrows⟩, -⟩ := @export_import_inverse Bool ℤ _ caches false
    true (hvalid 6 2 3 2 5 (by decide)) (hvalid 4 3 2 4 6 (by decide)) 2 2 ⟨[4, 5, 2], 5⟩ ⟨[3, 0], 6⟩
    (by decide +kernel) (by decide +kernel) (fun h => by cases h) rfl 5 (by decide +kernel)
    (by decide +kernel)
  refine ⟨k, v, c', hexp, himp, fun p hp => ?_⟩
  obtain ⟨row, hold, -, hnew⟩ := hrows 0 Nat.one_pos p hp
  exact ⟨row, hold, hnew⟩

end DiSpec
