/-
# Any packing of the chunks is the dense forward

`denseForward` is the model without a cache: one causal forward over one sequence,
layer by layer.  It is what a user of `ModelRunner.forward` means to compute.

`forwards` is what such a user may do: the tokens of several sequences with disjoint
block tables are cut into chunks, and each call of `forward` gets some chunks, those
of one sequence in order.  A call may have several chunks of one sequence; the later
one then attends to rows that this call writes.  `forwards_spec` says that every
packing returns the rows of the dense forwards and leaves their keys and values in
the pool.

`attendGathered` is the loop of `_attention` without its shortcut for fresh
sequences.
-/

import DiSpec.Engine.Causal

namespace DiSpec

namespace Transformer

variable {X D R : Type} [Zero D] [Add X]

/-! ### The dense forward -/

/-- A layer over the rows of one sequence: row `p` attends to the rows up to itself. -/
def denseLayer (T : Transformer X D R) (i : ℕ) (x : List X) : List X :=
  let h := x.map (T.inputLayernorm i)
  let q := h.mapIdx (T.query i)
  let kv := h.mapIdx (T.keyValue i)
  let x := List.zipWith (· + ·) x (q.mapIdx fun p qp => T.oProj i (T.attendRow qp (kv.take (p + 1))))
  List.zipWith (· + ·) x (x.map fun y => T.mlp i (T.postAttentionLayernorm i y))

/-- The input rows of layer `i`. -/
def denseRows (T : Transformer X D R) (toks : List ℕ) : ℕ → List X
  | 0 => toks.map T.embed
  | i + 1 => T.denseLayer i (T.denseRows toks i)

/-- The keys and values of layer `i`. -/
def denseKV (T : Transformer X D R) (toks : List ℕ) (i : ℕ) : List (KV D) :=
  ((T.denseRows toks i).map (T.inputLayernorm i)).mapIdx (T.keyValue i)

/-- **The dense causal forward** over one sequence. -/
def denseForward (T : Transformer X D R) (toks : List ℕ) : List X :=
  (T.denseRows toks T.numLayers).map T.norm

/-- A dense layer, row by row. -/
theorem denseLayer_map (T : Transformer X D R) (i n : ℕ) (f : ℕ → X) :
    T.denseLayer i ((List.range n).map f) = (List.range n).map fun p =>
      T.layerRow i p (f p) ((List.range (p + 1)).map fun j => T.keyValue i j (T.inputLayernorm i (f j))) := by
  refine List.ext_getElem (by simp [denseLayer]) fun p h₁ h₂ => ?_
  rw [List.length_map, List.length_range] at h₂
  have htake : (((List.range n).map f |>.map (T.inputLayernorm i)).mapIdx (T.keyValue i)).take (p + 1) =
      (List.range (p + 1)).map fun j => T.keyValue i j (T.inputLayernorm i (f j)) := by
    refine List.ext_getElem (by simp; omega) fun j h₁ h₂ => ?_
    simp
  simp only [denseLayer, List.getElem_zipWith, List.getElem_map, List.getElem_mapIdx, List.getElem_range,
    htake]
  rfl

/-- **The rows of the dense forward** are those of the model position by position. -/
theorem denseRows_eq (T : Transformer X D R) (toks : List ℕ) (i : ℕ) :
    T.denseRows toks i = (List.range toks.length).map (T.hiddenAt noBase (str toks) i) := by
  induction i with
  | zero =>
    refine List.ext_getElem (by simp [denseRows]) fun p h₁ h₂ => ?_
    rw [List.length_map, List.length_range] at h₂
    simp only [denseRows, List.getElem_map, List.getElem_range, hiddenAt, str,
      List.getD_eq_getElem _ _ h₂]
  | succ i ih =>
    rw [denseRows, ih, denseLayer_map]
    rfl

theorem denseKV_eq (T : Transformer X D R) (toks : List ℕ) (i : ℕ) :
    T.denseKV toks i = (List.range toks.length).map (T.kvAt noBase (str toks) i) := by
  rw [denseKV, denseRows_eq]
  refine List.ext_getElem (by simp) fun p h₁ h₂ => ?_
  simp only [List.getElem_mapIdx, List.getElem_map, List.getElem_range]
  rfl

theorem denseForward_eq (T : Transformer X D R) (toks : List ℕ) :
    T.denseForward toks =
      (List.range toks.length).map fun p => T.norm (T.hiddenAt noBase (str toks) T.numLayers p) := by
  rw [denseForward, denseRows_eq, List.map_map]
  rfl

end Transformer

/-! ### Packing chunks into calls -/

/-- A sequence to forward: its block table and its tokens. -/
structure Sequence where
  blockIds : List ℕ
  tokens : List ℕ

/-- The arguments of a call of `forward`. -/
structure FlatBatch where
  tokenIds : List ℕ
  positions : List ℕ
  writeSlots : List ℕ
  seqMeta : List SeqMeta

/-- The next position of each sequence after the chunks of a call: a chunk `(r, n)` is the next `n`
tokens of sequence `r`. -/
def advance {ι : Type} [DecidableEq ι] (pos : ι → ℕ) (call : List (ι × ℕ)) : ι → ℕ :=
  call.foldl (fun pos ch => Function.update pos ch.1 (pos ch.1 + ch.2)) pos

/-- The flat batch of the chunks of a call. -/
def PagedKVCache.pack {D ι : Type} [DecidableEq ι] (c : PagedKVCache D) (seqs : ι → Sequence) :
    (ι → ℕ) → List (ι × ℕ) → Except Exc FlatBatch
  | _, [] => .ok ⟨[], [], [], []⟩
  | pos, (r, n) :: rest =>
    let positions := List.range' (pos r) n
    match c.slotsForPositions (seqs r).blockIds positions with
    | .error x => .error x
    | .ok slots =>
      match c.pack seqs (Function.update pos r (pos r + n)) rest with
      | .error x => .error x
      | .ok b => .ok ⟨((seqs r).tokens.drop (pos r)).take n ++ b.tokenIds, positions ++ b.positions,
          slots ++ b.writeSlots, ⟨(seqs r).blockIds, n, pos r + n⟩ :: b.seqMeta⟩

namespace Transformer

variable {X D R ι : Type} [Zero D] [Add X] [DecidableEq ι]

/-- Successive calls of `forward` on one cache: the rows each call returns. -/
def forwards (T : Transformer X D R) (seqs : ι → Sequence) :
    (ι → ℕ) → PagedKVCache D → List (List (ι × ℕ)) → Except Exc (List (List X)) × PagedKVCache D
  | _, c, [] => (.ok [], c)
  | pos, c, call :: calls =>
    match c.pack seqs pos call with
    | .error x => (.error x, c)
    | .ok b =>
      match T.forward b.tokenIds b.positions b.writeSlots b.seqMeta c with
      | (.error x, c) => (.error x, c)
      | (.ok hidden, c) =>
        match T.forwards seqs (advance pos call) c calls with
        | (.error x, c) => (.error x, c)
        | (.ok out, c) => (.ok (hidden :: out), c)

/-- The rows of the dense forwards for the chunks of a call. -/
def denseChunks (T : Transformer X D R) (seqs : ι → Sequence) : (ι → ℕ) → List (ι × ℕ) → List X
  | _, [] => []
  | pos, (r, n) :: rest =>
    ((T.denseForward (seqs r).tokens).drop (pos r)).take n ++
      T.denseChunks seqs (Function.update pos r (pos r + n)) rest

/-- The same for successive calls. -/
def denseCalls (T : Transformer X D R) (seqs : ι → Sequence) :
    (ι → ℕ) → List (List (ι × ℕ)) → List (List X)
  | _, [] => []
  | pos, call :: calls => T.denseChunks seqs pos call :: T.denseCalls seqs (advance pos call) calls

/-- The context of a sequence as the pool holds it. -/
def gatheredContext (c : PagedKVCache D) (layer : ℕ) (info : SeqMeta) : Except Exc (List (KV D)) :=
  match c.contextSlots info.blockIds info.ctxLen with
  | .error e => .error e
  | .ok slots => c.gather layer slots

omit [Add X] in
/-- The loop of `_attention` with every context gathered from the pool. -/
def attendGathered (T : Transformer X D R) (c : PagedKVCache D) (layer : ℕ) :
    List SeqMeta → List (List D) → Except Exc (List (List D))
  | [], _ => .ok []
  | info :: rest, q =>
    match gatheredContext c layer info with
    | .error e => .error e
    | .ok ctx =>
      match T.attendGathered c layer rest (q.drop info.qLen) with
      | .error e => .error e
      | .ok out =>
        .ok ((q.take info.qLen).mapIdx (fun i qi =>
          T.attendRow qi (ctx.take (info.ctxLen - info.qLen + i + 1))) ++ out)

end Transformer

/-! ### The chunks as segments -/

section

variable {D ι : Type} [DecidableEq ι] {seqs : ι → Sequence} {pos : ι → ℕ}

/-- The segments of the chunks of a call. -/
def segmentsOf (seqs : ι → Sequence) : (ι → ℕ) → List (ι × ℕ) → List (Segment D)
  | _, [] => []
  | pos, (r, n) :: rest =>
    ⟨(seqs r).blockIds, pos r, n, noBase, str (seqs r).tokens⟩ ::
      segmentsOf seqs (Function.update pos r (pos r + n)) rest

theorem advance_cons (pos : ι → ℕ) (r : ι) (n : ℕ) (rest : List (ι × ℕ)) :
    advance pos ((r, n) :: rest) = advance (Function.update pos r (pos r + n)) rest := rfl

theorem advance_append (pos : ι → ℕ) (call call' : List (ι × ℕ)) :
    advance pos (call ++ call') = advance (advance pos call) call' := List.foldl_append

/-- Positions only grow. -/
theorem le_advance (pos : ι → ℕ) (call : List (ι × ℕ)) (r : ι) : pos r ≤ advance pos call r := by
  induction call generalizing pos with
  | nil => exact le_rfl
  | cons ch rest ih =>
    refine le_trans ?_ (ih _)
    show pos r ≤ Function.update pos ch.1 (pos ch.1 + ch.2) r
    rcases eq_or_ne r ch.1 with rfl | hne
    · rw [Function.update_self]
      exact Nat.le_add_right _ _
    · rw [Function.update_of_ne hne]

/-- The first chunk of a call ends within it. -/
theorem add_le_advance (pos : ι → ℕ) (rest : List (ι × ℕ)) (r : ι) (n : ℕ) :
    pos r + n ≤ advance (Function.update pos r (pos r + n)) rest r := by
  have := le_advance (Function.update pos r (pos r + n)) rest r
  rwa [Function.update_self] at this

/-- A segment of a call is one of a sequence, between its positions before and after the call. -/
theorem mem_segmentsOf {call : List (ι × ℕ)} {s : Segment D} (hs : s ∈ segmentsOf seqs pos call) :
    ∃ r, s.blockIds = (seqs r).blockIds ∧ s.base = noBase ∧ s.tok = str (seqs r).tokens ∧
      pos r ≤ s.start ∧ s.start + s.len ≤ advance pos call r := by
  induction call generalizing pos with
  | nil => exact absurd hs List.not_mem_nil
  | cons ch rest ih =>
    obtain ⟨r, n⟩ := ch
    rcases List.mem_cons.1 hs with rfl | hs
    · exact ⟨r, rfl, rfl, rfl, le_rfl, add_le_advance pos rest r n⟩
    · obtain ⟨r', hids, hbase, htok, hlo, hhi⟩ := ih hs
      refine ⟨r', hids, hbase, htok, le_trans ?_ hlo, hhi⟩
      rcases eq_or_ne r' r with rfl | hne
      · rw [Function.update_self]
        exact Nat.le_add_right _ _
      · rw [Function.update_of_ne hne]

/-- The positions a call moves past are covered by its segments. -/
theorem exists_segmentOf {call : List (ι × ℕ)} {r : ι} {p : ℕ} (hlo : pos r ≤ p)
    (hhi : p < advance pos call r) :
    ∃ s ∈ (segmentsOf seqs pos call : List (Segment D)), s.blockIds = (seqs r).blockIds ∧
      s.base = noBase ∧ s.tok = str (seqs r).tokens ∧ s.start ≤ p ∧ p < s.start + s.len := by
  induction call generalizing pos with
  | nil => exact absurd hhi (not_lt.2 hlo)
  | cons ch rest ih =>
    obtain ⟨r', n⟩ := ch
    by_cases hin : r = r' ∧ p < pos r' + n
    · obtain ⟨rfl, hlt⟩ := hin
      exact ⟨_, List.mem_cons_self, rfl, rfl, rfl, hlo, hlt⟩
    · have hlo' : Function.update pos r' (pos r' + n) r ≤ p := by
        rcases eq_or_ne r r' with rfl | hne
        · rw [Function.update_self]
          exact not_lt.1 fun hlt => hin ⟨rfl, hlt⟩
        · rwa [Function.update_of_ne hne]
      obtain ⟨s, hs, hrest⟩ := ih hlo' hhi
      exact ⟨s, List.mem_cons_of_mem _ hs, hrest⟩

/-- **The sequences of a run of calls**: tables of distinct blocks of the pool, with room for the
tokens, and no block in two of them. -/
structure LaidOut (c : PagedKVCache D) (seqs : ι → Sequence) : Prop where
  blockSize_pos : 0 < c.blockSize
  nodup : ∀ r, (seqs r).blockIds.Nodup
  inPool : ∀ r, ∀ b ∈ (seqs r).blockIds, b < c.manager.numBlocks
  room : ∀ r, (seqs r).tokens.length ≤ (seqs r).blockIds.length * c.blockSize
  disjoint : ∀ r r', r ≠ r' → ∀ b ∈ (seqs r).blockIds, b ∉ (seqs r').blockIds

open Segment Transformer

variable {c : PagedKVCache D}

omit [DecidableEq ι] in
/-- The layout does not depend on what is stored. -/
theorem LaidOut.withPool (h : LaidOut c seqs) (pool : ℕ → ℕ → KV D) : LaidOut { c with pool } seqs :=
  ⟨h.blockSize_pos, h.nodup, h.inPool, h.room, h.disjoint⟩

/-- A position before a call has no slot among those of the call. -/
theorem LaidOut.notMem_slots (h : LaidOut c seqs) {call : List (ι × ℕ)}
    (hcut : ∀ r, advance pos call r ≤ (seqs r).tokens.length) {r : ι} {p : ℕ} (hp : p < pos r) :
    Paging.slotAt c.blockSize (seqs r).blockIds p ∉
      slots c.blockSize (segmentsOf seqs pos call : List (Segment D)) := by
  intro hmem
  obtain ⟨⟨s, q⟩, he, heq⟩ := List.mem_map.1 hmem
  obtain ⟨hs, hlo, hhi⟩ := mem_entries.1 he
  obtain ⟨r', hids, -, -, hlo', hhi'⟩ := mem_segmentsOf hs
  have heq : Paging.slotAt c.blockSize s.blockIds q = Paging.slotAt c.blockSize (seqs r).blockIds p := heq
  have hlo : s.start ≤ q := hlo
  have hhi : q < s.start + s.len := hhi
  have hq : q < (seqs r').blockIds.length * c.blockSize := by
    have := hcut r'
    have := h.room r'
    omega
  have hp' : p < (seqs r).blockIds.length * c.blockSize := by
    have := le_advance pos call r
    have := hcut r
    have := h.room r
    omega
  rw [hids] at heq
  rcases eq_or_ne r' r with rfl | hne
  · have := Paging.slotAt_inj h.blockSize_pos (h.nodup r') hq hp' heq
    omega
  · exact Paging.slotAt_ne h.blockSize_pos (h.disjoint r' r hne) hq hp' heq

/-- **The slots of a call are distinct.** -/
theorem LaidOut.slots_nodup (h : LaidOut c seqs) (call : List (ι × ℕ))
    (hcut : ∀ r, advance pos call r ≤ (seqs r).tokens.length) :
    (slots c.blockSize (segmentsOf seqs pos call : List (Segment D))).Nodup := by
  induction call generalizing pos with
  | nil => exact List.nodup_nil
  | cons ch rest ih =>
    obtain ⟨r, n⟩ := ch
    rw [advance_cons] at hcut
    have hend : pos r + n ≤ (seqs r).blockIds.length * c.blockSize :=
      ((add_le_advance pos rest r n).trans (hcut r)).trans (h.room r)
    rw [slots, segmentsOf, entries_cons, List.map_append, List.map_map, List.nodup_append]
    refine ⟨?_, ih hcut, fun x hx y hy hxy => ?_⟩
    · refine List.Nodup.map_on (fun p hp q hq heq => ?_) List.nodup_range'
      rw [List.mem_range'_1] at hp hq
      exact Paging.slotAt_inj h.blockSize_pos (h.nodup r) (hp.2.trans_le hend) (hq.2.trans_le hend) heq
    · obtain ⟨p, hp, rfl⟩ := List.mem_map.1 hx
      rw [List.mem_range'_1] at hp
      subst hxy
      refine h.notMem_slots hcut (r := r) (p := p) ?_ hy
      rw [Function.update_self]
      exact hp.2

/-- The segments of a call pack. -/
theorem LaidOut.packs (h : LaidOut c seqs) (call : List (ι × ℕ))
    (hcut : ∀ r, advance pos call r ≤ (seqs r).tokens.length) :
    Packs c (segmentsOf seqs pos call) := by
  refine ⟨h.blockSize_pos, fun s hs => ?_, fun s hs => ?_, h.slots_nodup call hcut, fun s hs i p _ => ?_⟩
  · obtain ⟨r, hids, -, -, -, hhi⟩ := mem_segmentsOf hs
    rw [hids]
    exact (hhi.trans (hcut r)).trans (h.room r)
  · obtain ⟨r, hids, -⟩ := mem_segmentsOf hs
    rw [hids]
    exact h.inPool r
  · obtain ⟨r, -, hbase, -⟩ := mem_segmentsOf hs
    rw [hbase]
    rfl

/-- **Packing does not fail**: the lists are those of the segments. -/
theorem LaidOut.pack_eq (h : LaidOut c seqs) (call : List (ι × ℕ))
    (hcut : ∀ r, advance pos call r ≤ (seqs r).tokens.length) :
    c.pack seqs pos call = .ok ⟨tokens (segmentsOf seqs pos call : List (Segment D)),
      positions (segmentsOf seqs pos call : List (Segment D)),
      slots c.blockSize (segmentsOf seqs pos call : List (Segment D)),
      (segmentsOf seqs pos call : List (Segment D)).map info⟩ := by
  induction call generalizing pos with
  | nil => rfl
  | cons ch rest ih =>
    obtain ⟨r, n⟩ := ch
    rw [advance_cons] at hcut
    have hend : pos r + n ≤ (seqs r).tokens.length := (add_le_advance pos rest r n).trans (hcut r)
    have hslots : c.slotsForPositions (seqs r).blockIds (List.range' (pos r) n) =
        .ok ((List.range' (pos r) n).map (Paging.slotAt c.blockSize (seqs r).blockIds)) :=
      c.slotsForPositions_spec h.blockSize_pos _ fun p hp => by
        have := (List.mem_range'_1.1 hp).2
        have := h.room r
        omega
    rw [PagedKVCache.pack]
    simp only [hslots, ih hcut]
    refine congrArg Except.ok ?_
    simp only [segmentsOf, tokens, positions, slots, entries_cons, List.map_append, List.map_map,
      List.map_cons, take_drop_eq_map_str _ hend]
    congr 1
    · exact congrArg (· ++ _) (List.map_id' _).symm

/-- Consecutive rows of a table of rows. -/
theorem take_drop_map_range {α : Type} (g : ℕ → α) {N start len : ℕ} (h : start + len ≤ N) :
    (((List.range N).map g).drop start).take len = (List.range' start len).map g := by
  refine List.ext_getElem ?_ fun i h₁ h₂ => ?_
  · simp only [List.length_take, List.length_drop, List.length_map, List.length_range, List.length_range']
    omega
  · simp

variable {X R : Type} [Zero D] [Add X]

/-- The rows of the model for the segments of a call are those of the dense forwards. -/
theorem denseChunks_eq (T : Transformer X D R) (call : List (ι × ℕ))
    (hcut : ∀ r, advance pos call r ≤ (seqs r).tokens.length) :
    T.denseChunks seqs pos call = (entries (segmentsOf seqs pos call)).map fun e =>
      T.norm (T.hiddenAt e.1.base e.1.tok T.numLayers e.2) := by
  induction call generalizing pos with
  | nil => rfl
  | cons ch rest ih =>
    obtain ⟨r, n⟩ := ch
    rw [advance_cons] at hcut
    have hend : pos r + n ≤ (seqs r).tokens.length := (add_le_advance pos rest r n).trans (hcut r)
    rw [Transformer.denseChunks, segmentsOf, entries_cons, List.map_append, List.map_map, ← ih hcut,
      T.denseForward_eq, take_drop_map_range _ hend]
    rfl

/-- **One call** returns the rows of the dense forwards for its chunks, and leaves their keys and
values in the pool beside those of the calls before. -/
theorem LaidOut.forward_call (h : LaidOut c seqs) (T : Transformer X D R) (call : List (ι × ℕ))
    (hcut : ∀ r, advance pos call r ≤ (seqs r).tokens.length)
    (hheld : ∀ r, T.Holds c (seqs r).blockIds noBase (str (seqs r).tokens) (pos r)) :
    ∃ b pool, c.pack seqs pos call = .ok b ∧
      T.forward b.tokenIds b.positions b.writeSlots b.seqMeta c =
        (.ok (T.denseChunks seqs pos call), { c with pool }) ∧
      ∀ r, T.Holds { c with pool } (seqs r).blockIds noBase (str (seqs r).tokens) (advance pos call r) := by
  obtain ⟨pool, hrun, hnew, hkeep⟩ := T.forward_packed (h.packs call hcut) fun i hi s hs p hp => by
    obtain ⟨r, hids, hbase, htok, -, hhi⟩ := mem_segmentsOf hs
    rw [hids, hbase, htok]
    rcases Nat.lt_or_ge p (pos r) with hlt | hge
    · exact Or.inl ⟨h.notMem_slots hcut hlt, hheld r i hi p hlt⟩
    · exact Or.inr (exists_segmentOf hge (by omega))
  refine ⟨_, pool, h.pack_eq call hcut, ?_, fun r i hi p hp => ?_⟩
  · rw [denseChunks_eq T call hcut]
    exact hrun
  · rcases Nat.lt_or_ge p (pos r) with hlt | hge
    · rw [← hheld r i hi p hlt]
      exact hkeep i _ (h.notMem_slots hcut hlt)
    · obtain ⟨s, hs, hids, hbase, htok, -, hhi⟩ := exists_segmentOf (D := D) hge hp
      have := hnew s hs i hi p hhi
      rwa [hids, hbase, htok] at this

/-- **Successive calls** return the rows of the dense forwards. -/
theorem LaidOut.forwards_spec (h : LaidOut c seqs) (T : Transformer X D R) (calls : List (List (ι × ℕ)))
    (hcut : ∀ r, advance pos calls.flatten r ≤ (seqs r).tokens.length)
    (hheld : ∀ r, T.Holds c (seqs r).blockIds noBase (str (seqs r).tokens) (pos r)) :
    ∃ pool, T.forwards seqs pos c calls = (.ok (T.denseCalls seqs pos calls), { c with pool }) ∧
      ∀ r, T.Holds { c with pool } (seqs r).blockIds noBase (str (seqs r).tokens)
        (advance pos calls.flatten r) := by
  induction calls generalizing pos c with
  | nil => exact ⟨c.pool, rfl, hheld⟩
  | cons call calls ih =>
    rw [List.flatten_cons, advance_append] at hcut ⊢
    obtain ⟨b, pool, hpack, hrun, hheld'⟩ := h.forward_call T call
      (fun r => (le_advance _ calls.flatten r).trans (hcut r)) hheld
    obtain ⟨pool', hrun', hheld''⟩ := ih (h.withPool pool) hcut hheld'
    refine ⟨pool', ?_, hheld''⟩
    rw [Transformer.forwards, hpack]
    simp only [hrun, hrun']
    rfl

/-! ### The shortcut for fresh sequences -/

omit [DecidableEq ι] [Add X] in
/-- **The shortcut and the gather agree**: after the rows of a batch are written to a layer, the
loop over its sequences does the same with and without the shortcut, whatever the rows. -/
theorem attend_eq_gathered (T : Transformer X D R) {segs : List (Segment D)} (h : Packs c segs) (i : ℕ)
    (q : List (List D)) {kv : List (KV D)} {c₁ : PagedKVCache D}
    (hwrite : c.write i (slots c.blockSize segs) kv = (.ok (), c₁)) :
    T.attend c₁ i (segs.map info) q kv = T.attendGathered c₁ i (segs.map info) q := by
  unfold PagedKVCache.write at hwrite
  split at hwrite
  case isFalse => cases hwrite
  case isTrue hok =>
    obtain ⟨hlen, hslots⟩ := hok
    obtain rfl := (Prod.mk.inj hwrite).2
    set c₁ : PagedKVCache D :=
      { c with pool := Function.update c.pool i (scatter (c.pool i) (slots c.blockSize segs) kv) } with hc₁
    have hsize : (slots c.blockSize segs).length = (entries segs).length := List.length_map _
    have hctx : ∀ pre s post, segs = pre ++ s :: post →
        context c₁ i s.info (kv.drop (entries pre).length) = gatheredContext c₁ i s.info := by
      rintro pre s post rfl
      have hs : s ∈ pre ++ s :: post := by simp
      unfold context
      split
      case isFalse => rfl
      case isTrue h0 =>
        have h0 : s.start = 0 := by simp only [info] at h0; omega
        have hcount : (entries pre).length + s.len ≤ kv.length := by
          rw [← hlen, hsize, entries, entries, List.flatMap_append, List.flatMap_cons]
          simp
        have hrow : ∀ p, p < s.start + s.len → c₁.pool i (Paging.slotAt c.blockSize s.blockIds p) =
            (fun p => c₁.pool i (Paging.slotAt c.blockSize s.blockIds p)) p := fun _ _ => rfl
        obtain ⟨sl, hsl, hgather⟩ := gather_context c₁ i h.blockSize_pos (h.room s hs) (h.inPool s hs) hrow
        rw [gatheredContext, show s.info.blockIds = s.blockIds from rfl,
          show s.info.ctxLen = s.start + s.len from rfl, hsl]
        simp only [hgather, h0, Nat.zero_add]
        refine congrArg Except.ok (List.ext_getElem ?_ fun j h₁ h₂ => ?_)
        · simp only [List.length_take, List.length_drop, List.length_map, List.length_range, info]
          omega
        rw [List.length_map, List.length_range] at h₂
        have hj : (entries pre).length + j < (slots c.blockSize (pre ++ s :: post)).length := by omega
        have hat : (slots c.blockSize (pre ++ s :: post))[(entries pre).length + j] =
            Paging.slotAt c.blockSize s.blockIds j := by
          simp only [slots, entries, List.flatMap_append, List.flatMap_cons, List.getElem_map]
          rw [List.getElem_append_right (by omega)]
          simp only [Nat.add_sub_cancel_left]
          rw [List.getElem_append_left (by simpa using h₂)]
          simp [slot, h0]
        simp only [List.getElem_take, List.getElem_drop, List.getElem_map, List.getElem_range]
        rw [← hat, hc₁]
        simp only [Function.update_self]
        exact (scatter_getElem _ h.distinct _ hj (by omega)).symm
    have hloop : ∀ rest pre q, segs = pre ++ rest →
        T.attend c₁ i (rest.map info) q (kv.drop (entries pre).length) =
          T.attendGathered c₁ i (rest.map info) q := by
      intro rest
      induction rest with
      | nil => exact fun _ _ _ => rfl
      | cons s rest ih =>
        intro pre q hsegs
        have hnext := ih (pre ++ [s]) (q.drop s.len) (by rw [hsegs, List.append_assoc]; rfl)
        have hdrop : kv.drop (entries (pre ++ [s])).length = (kv.drop (entries pre).length).drop s.len := by
          rw [List.drop_drop, entries, entries, List.flatMap_append, List.flatMap_singleton]
          simp
        rw [hdrop] at hnext
        rw [List.map_cons, attend, attendGathered, hctx pre s rest hsegs]
        rewrite [show s.info.qLen = s.len from rfl, hnext]
        rfl
    exact hloop segs [] q rfl

end

/-- **Every packing is the dense forward.**  Each call of `forward` returns, for every token, the row
that the dense forward over its sequence alone has for it, and afterwards the pool holds
the keys and values of the dense forwards, in every layer.  In each call, whatever rows
it writes, the loop over the sequences could as well do without its shortcut. -/
theorem paged_forward_is_dense {X D R ι : Type} [Zero D] [Add X] [DecidableEq ι] (T : Transformer X D R)
    {c : PagedKVCache D} {seqs : ι → Sequence} (h : LaidOut c seqs) (calls : List (List (ι × ℕ)))
    (hcut : ∀ r, advance (fun _ => 0) calls.flatten r ≤ (seqs r).tokens.length) :
    (∃ c', T.forwards seqs (fun _ => 0) c calls = (.ok (T.denseCalls seqs (fun _ => 0) calls), c') ∧
      ∀ r, ∀ i < T.numLayers, ∀ p < advance (fun _ => 0) calls.flatten r,
        (T.denseKV (seqs r).tokens i)[p]? =
          some (c'.pool i (Paging.slotAt c.blockSize (seqs r).blockIds p))) ∧
    ∀ before call after, calls = before ++ call :: after →
      ∃ b, c.pack seqs (advance (fun _ => 0) before.flatten) call = .ok b ∧
        ∀ (pool : ℕ → ℕ → KV D) i q kv c₁, { c with pool }.write i b.writeSlots kv = (.ok (), c₁) →
          T.attend c₁ i b.seqMeta q kv = T.attendGathered c₁ i b.seqMeta q := by
  refine ⟨?_, ?_⟩
  · obtain ⟨pool, hrun, hheld⟩ :=
      h.forwards_spec T calls hcut fun r i hi p hp => absurd hp (Nat.not_lt_zero p)
    refine ⟨_, hrun, fun r i hi p hp => ?_⟩
    have hp' : p < (seqs r).tokens.length := hp.trans_le (hcut r)
    rw [T.denseKV_eq, List.getElem?_map, List.getElem?_range hp']
    exact congrArg some (hheld r i hi p hp).symm
  · rintro before call after rfl
    have hcall : ∀ r, advance (advance (fun _ => 0) before.flatten) call r ≤ (seqs r).tokens.length := by
      intro r
      refine le_trans ?_ (hcut r)
      rw [List.flatten_append, List.flatten_cons, advance_append, advance_append]
      exact le_advance _ _ r
    exact ⟨_, h.pack_eq call hcall, fun pool i q kv c₁ hwrite =>
      attend_eq_gathered T ((h.packs call hcall).withPool pool) i q hwrite⟩

/-- The hypotheses are satisfiable: two sequences on three blocks, the first in chunks of 1, 1 and 2
tokens, two of them in the first call with the whole of the second sequence between. -/
theorem paged_forward_is_dense_two :
    let seqs : Bool → Sequence := fun r => if r then ⟨[2, 0], [0, 1, 2, 1]⟩ else ⟨[1], [2, 2]⟩
    let calls := [[(true, 1), (false, 2), (true, 1)], [(true, 2)]]
    (sumModel.forwards seqs (fun _ => 0) (sumModel.newCache 3 2) calls).1 =
      .ok (sumModel.denseCalls seqs (fun _ => 0) calls) ∧
    sumModel.denseCalls seqs (fun _ => 0) calls = [[6, 18, 26, 16], [28, 30]] := by
  intro seqs calls
  have h : LaidOut (sumModel.newCache 3 2) seqs :=
    ⟨by decide, by decide, by decide, by decide, by decide⟩
  obtain ⟨⟨c', hrun, -⟩, -⟩ := paged_forward_is_dense sumModel h calls (by decide)
  exact ⟨by rw [hrun], by decide +kernel⟩

end DiSpec
