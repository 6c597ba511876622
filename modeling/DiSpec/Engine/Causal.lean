/-
# The forward pass is the causal model

The meaning of the model is dense and has no cache: `hiddenAt i p` is the input
of layer `i` at position `p` of a token string, computed from the keys and values
of positions `0`, …, `p`.  The KV of leading positions may be supplied from
outside (`base`), as a prefix computed elsewhere is.  `hiddenAt_congr` is
causality: a position depends on the tokens up to it only.

`forward_packed` connects the paged forward to it.  A batch is a list of segments,
each a run of consecutive positions of one sequence.  If the new slots are distinct
and in the pool, and the KV of every segment's past is in the pool or in the batch
itself (`Known`), then `forward` returns the hidden row of every token, the pool
holds the KV of every segment's past and new tokens, and no other slot changed.
-/

import DiSpec.Engine.ModelRunner
import Mathlib.Data.List.GetD

namespace DiSpec

/-- The token string of a list of tokens. -/
def str (toks : List ℕ) : ℕ → ℕ := fun p => toks.getD p 0

theorem str_append_of_lt {toks : List ℕ} (l : List ℕ) {p : ℕ} (h : p < toks.length) :
    str (toks ++ l) p = str toks p := List.getD_append _ _ _ _ h

/-- Consecutive tokens of a list. -/
theorem take_drop_eq_map_str (toks : List ℕ) {start len : ℕ} (h : start + len ≤ toks.length) :
    (toks.drop start).take len = (List.range' start len).map (str toks) := by
  refine List.ext_getElem ?_ fun i h₁ h₂ => ?_
  · rw [List.length_take, List.length_drop, List.length_map, List.length_range']
    omega
  · rw [List.length_map, List.length_range'] at h₂
    rw [List.getElem_take, List.getElem_drop, List.getElem_map, List.getElem_range', Nat.one_mul]
    exact (List.getD_eq_getElem _ _ (by omega)).symm

/-- The KV of a sequence given from outside, layer by layer, where there is any. -/
abbrev BaseKV (D : Type) := ℕ → ℕ → Option (KV D)

/-- Every KV is computed by the model. -/
def noBase {D : Type} : BaseKV D := fun _ _ => none

namespace Transformer

variable {X D R : Type} [Zero D] [Add X]

/-- One layer at one position, over the context `ctx` up to and including it. -/
def layerRow (T : Transformer X D R) (i p : ℕ) (x : X) (ctx : List (KV D)) : X :=
  let y := x + T.oProj i (T.attendRow (T.query i p (T.inputLayernorm i x)) ctx)
  y + T.mlp i (T.postAttentionLayernorm i y)

/-- The input of layer `i` at position `p` of the token string `tok`. -/
def hiddenAt (T : Transformer X D R) (base : BaseKV D) (tok : ℕ → ℕ) : ℕ → ℕ → X
  | 0, p => T.embed (tok p)
  | i + 1, p => T.layerRow i p (hiddenAt T base tok i p) ((List.range (p + 1)).map fun j =>
      (base i j).getD (T.keyValue i j (T.inputLayernorm i (hiddenAt T base tok i j))))

/-- The KV of layer `i` at position `p`. -/
def kvAt (T : Transformer X D R) (base : BaseKV D) (tok : ℕ → ℕ) (i p : ℕ) : KV D :=
  (base i p).getD (T.keyValue i p (T.inputLayernorm i (T.hiddenAt base tok i p)))

/-- **Causality.**  A position depends only on the tokens up to it. -/
theorem hiddenAt_congr (T : Transformer X D R) (base : BaseKV D) {tok tok' : ℕ → ℕ} (i : ℕ) {p : ℕ}
    (h : ∀ j ≤ p, tok j = tok' j) : T.hiddenAt base tok i p = T.hiddenAt base tok' i p := by
  induction i generalizing p with
  | zero => rw [hiddenAt, hiddenAt, h p le_rfl]
  | succ i ih =>
    rw [hiddenAt, hiddenAt, ih h]
    refine congrArg _ (List.map_congr_left fun j hj => ?_)
    rw [List.mem_range] at hj
    rw [ih fun k hk => h k (by omega)]

theorem kvAt_congr (T : Transformer X D R) (base : BaseKV D) {tok tok' : ℕ → ℕ} (i : ℕ) {p : ℕ}
    (h : ∀ j ≤ p, tok j = tok' j) : T.kvAt base tok i p = T.kvAt base tok' i p := by
  rw [kvAt, kvAt, hiddenAt_congr T base i h]

/-- **KV from outside that is the model's own** changes nothing. -/
theorem hiddenAt_own (T : Transformer X D R) {base : BaseKV D} {tok : ℕ → ℕ} (i : ℕ)
    (h : ∀ i' < i, ∀ p kv, base i' p = some kv → kv = T.kvAt noBase tok i' p) (p : ℕ) :
    T.hiddenAt base tok i p = T.hiddenAt noBase tok i p := by
  induction i generalizing p with
  | zero => rfl
  | succ i ih =>
    have ih := ih fun i' hi' => h i' (by omega)
    rw [hiddenAt, hiddenAt, ih]
    refine congrArg _ (List.map_congr_left fun j _ => ?_)
    cases hb : base i j with
    | none => rw [ih]; rfl
    | some kv => exact h i (Nat.lt_succ_self i) j kv hb

/-- The pool holds the KV of the first `n` positions of a sequence with blocks `ids`. -/
def Holds (T : Transformer X D R) (c : PagedKVCache D) (ids : List ℕ) (base : BaseKV D)
    (tok : ℕ → ℕ) (n : ℕ) : Prop :=
  ∀ i < T.numLayers, ∀ p < n,
    c.pool i (Paging.slotAt c.blockSize ids p) = T.kvAt base tok i p

/-- The logits of the token after `toks`. -/
def logitsAfter (T : Transformer X D R) (base : BaseKV D) (toks : List ℕ) : List R :=
  T.lmHead (T.norm (T.hiddenAt base (str toks) T.numLayers (toks.length - 1)))

theorem logitsAfter_own (T : Transformer X D R) {base : BaseKV D} {toks : List ℕ}
    (h : ∀ i < T.numLayers, ∀ p kv, base i p = some kv → kv = T.kvAt noBase (str toks) i p) :
    T.logitsAfter base toks = T.logitsAfter noBase toks := by
  rw [logitsAfter, logitsAfter, T.hiddenAt_own T.numLayers h]

/-- What the pool holds for a string it holds for every continuation of it. -/
theorem Holds.append {T : Transformer X D R} {c : PagedKVCache D} {ids toks : List ℕ} {base : BaseKV D}
    {n : ℕ} (h : T.Holds c ids base (str toks) n) (hn : n ≤ toks.length) (l : List ℕ) :
    T.Holds c ids base (str (toks ++ l)) n := by
  intro i hi p hp
  rw [h i hi p hp]
  exact T.kvAt_congr base i fun j hj => (str_append_of_lt l (by omega)).symm

end Transformer

/-- The positions `start`, …, `start + len - 1` of a sequence with blocks `blockIds`, tokens
`tok` and leading KV `base`. -/
structure Segment (D : Type) where
  blockIds : List ℕ
  start : ℕ
  len : ℕ
  base : BaseKV D
  tok : ℕ → ℕ

namespace Segment

variable {D : Type}

/-- The `SeqMeta` of a segment. -/
def info (s : Segment D) : SeqMeta := ⟨s.blockIds, s.len, s.start + s.len⟩

/-- The tokens of a batch, each as its segment and position. -/
def entries (segs : List (Segment D)) : List (Segment D × ℕ) :=
  segs.flatMap fun s => (List.range' s.start s.len).map (Prod.mk s)

theorem entries_cons (s : Segment D) (segs : List (Segment D)) :
    entries (s :: segs) = (List.range' s.start s.len).map (Prod.mk s) ++ entries segs :=
  List.flatMap_cons

theorem mem_entries {segs : List (Segment D)} {e : Segment D × ℕ} :
    e ∈ entries segs ↔ e.1 ∈ segs ∧ e.1.start ≤ e.2 ∧ e.2 < e.1.start + e.1.len := by
  rw [entries, List.mem_flatMap]
  constructor
  · rintro ⟨s, hs, he⟩
    obtain ⟨p, hp, rfl⟩ := List.mem_map.1 he
    exact ⟨hs, List.mem_range'_1.1 hp⟩
  · rintro ⟨hs, hp⟩
    exact ⟨e.1, hs, List.mem_map.2 ⟨e.2, List.mem_range'_1.2 hp, rfl⟩⟩

/-- The token ids of a batch. -/
def tokens (segs : List (Segment D)) : List ℕ := (entries segs).map fun e => e.1.tok e.2

/-- The positions of a batch. -/
def positions (segs : List (Segment D)) : List ℕ := (entries segs).map Prod.snd

/-- The slot of a token of a batch. -/
def slot (bs : ℕ) (e : Segment D × ℕ) : ℕ := Paging.slotAt bs e.1.blockIds e.2

/-- The slots a batch writes. -/
def slots (bs : ℕ) (segs : List (Segment D)) : List ℕ := (entries segs).map (slot bs)

theorem mem_slots {bs : ℕ} {segs : List (Segment D)} {s : Segment D} {p : ℕ} (hs : s ∈ segs)
    (hlo : s.start ≤ p) (hhi : p < s.start + s.len) :
    Paging.slotAt bs s.blockIds p ∈ slots bs segs :=
  List.mem_map.2 ⟨(s, p), mem_entries.2 ⟨hs, hlo, hhi⟩, rfl⟩

end Segment

namespace Transformer

open Segment

variable {X D R : Type}

/-- What the caller of `forward` owes: room for the tokens, blocks of the pool, distinct
new slots none of which is a slot of a segment's past, and the KV of that past in the pool. -/
structure Fits (c : PagedKVCache D) (segs : List (Segment D)) : Prop where
  blockSize_pos : 0 < c.blockSize
  room : ∀ s ∈ segs, s.start + s.len ≤ s.blockIds.length * c.blockSize
  inPool : ∀ s ∈ segs, ∀ b ∈ s.blockIds, b < c.manager.numBlocks
  distinct : (slots c.blockSize segs).Nodup
  pastKept : ∀ s ∈ segs, ∀ p < s.start, Paging.slotAt c.blockSize s.blockIds p ∉ slots c.blockSize segs
  computed : ∀ s ∈ segs, ∀ i p, s.start ≤ p → s.base i p = none

/-- What `Fits` says of the new slots alone: the past of a segment may be new here too. -/
structure Packs (c : PagedKVCache D) (segs : List (Segment D)) : Prop where
  blockSize_pos : 0 < c.blockSize
  room : ∀ s ∈ segs, s.start + s.len ≤ s.blockIds.length * c.blockSize
  inPool : ∀ s ∈ segs, ∀ b ∈ s.blockIds, b < c.manager.numBlocks
  distinct : (slots c.blockSize segs).Nodup
  computed : ∀ s ∈ segs, ∀ i p, s.start ≤ p → s.base i p = none

theorem Fits.packs {c : PagedKVCache D} {segs : List (Segment D)} (h : Fits c segs) : Packs c segs :=
  ⟨h.blockSize_pos, h.room, h.inPool, h.distinct, h.computed⟩

/-- What is stored in the pool does not matter to `Packs`. -/
theorem Packs.withPool {c : PagedKVCache D} {segs : List (Segment D)} (h : Packs c segs)
    (pool : ℕ → ℕ → KV D) : Packs { c with pool } segs :=
  ⟨h.blockSize_pos, h.room, h.inPool, h.distinct, h.computed⟩

/-- The slots of the whole context of a segment, and what one layer of the pool holds there. -/
theorem gather_context (c : PagedKVCache D) (i : ℕ) {s : Segment D} (hbs : 0 < c.blockSize)
    (hroom : s.start + s.len ≤ s.blockIds.length * c.blockSize)
    (hin : ∀ b ∈ s.blockIds, b < c.manager.numBlocks) {row : ℕ → KV D}
    (hrow : ∀ p < s.start + s.len, c.pool i (Paging.slotAt c.blockSize s.blockIds p) = row p) :
    ∃ slots, c.contextSlots s.blockIds (s.start + s.len) = .ok slots ∧
      c.gather i slots = .ok ((List.range (s.start + s.len)).map row) := by
  refine ⟨_, c.contextSlots_spec hbs hroom, ?_⟩
  rw [PagedKVCache.gather, if_pos, List.map_map]
  · refine congrArg _ (List.map_congr_left fun p hp => ?_)
    exact hrow p (List.mem_range.1 hp)
  · intro sl hsl
    obtain ⟨p, hp, rfl⟩ := List.mem_map.1 hsl
    exact Paging.slotAt_lt hbs hin ((List.mem_range.1 hp).trans_le hroom)

variable [Zero D]

/-- **The loop over the sequences.**  Each token attends to its own sequence up to
itself, `row s` being the KV rows of segment `s` in the layer. -/
theorem attend_spec (T : Transformer X D R) (c : PagedKVCache D) (i : ℕ) (segs : List (Segment D))
    (hbs : 0 < c.blockSize) (hroom : ∀ s ∈ segs, s.start + s.len ≤ s.blockIds.length * c.blockSize)
    (hin : ∀ s ∈ segs, ∀ b ∈ s.blockIds, b < c.manager.numBlocks) (row : Segment D → ℕ → KV D)
    (hrow : ∀ s ∈ segs, ∀ p < s.start + s.len,
      c.pool i (Paging.slotAt c.blockSize s.blockIds p) = row s p)
    (q : Segment D × ℕ → List D) :
    T.attend c i (segs.map info) ((entries segs).map q) ((entries segs).map fun e => row e.1 e.2) =
      .ok ((entries segs).map fun e =>
        T.attendRow (q e) ((List.range (e.2 + 1)).map (row e.1))) := by
  induction segs with
  | nil => rfl
  | cons s segs ih =>
    have hctx : context c i s.info ((entries (s :: segs)).map fun e => row e.1 e.2) =
        .ok ((List.range (s.start + s.len)).map (row s)) := by
      unfold context
      split
      next h0 =>
        -- a fresh sequence: its context is its slice of the batch
        have h0 : s.start = 0 := by simp only [info] at h0; omega
        rw [entries_cons, List.map_append, List.map_map]
        simp only [info, h0]
        rw [List.take_left' (by simp), Nat.zero_add, List.range_eq_range']
        rfl
      next =>
        obtain ⟨slots, hslots, hgather⟩ := gather_context c i hbs (hroom s List.mem_cons_self)
          (hin s List.mem_cons_self) (hrow s List.mem_cons_self)
        simp only [info, hslots]
        exact hgather
    have hlen : ((List.range' s.start s.len).map (Prod.mk s)).length = s.info.qLen := by simp [info]
    rw [List.map_cons, attend, hctx]
    simp only
    rw [entries_cons, List.map_append, List.map_append, List.drop_left' (by simpa using hlen),
      List.drop_left' (by simpa using hlen), List.take_left' (by simpa using hlen),
      ih (fun s' h => hroom s' (List.mem_cons_of_mem _ h))
        (fun s' h => hin s' (List.mem_cons_of_mem _ h))
        (fun s' h => hrow s' (List.mem_cons_of_mem _ h)), List.map_append]
    refine congrArg _ (congrArg (· ++ _) ?_)
    refine List.ext_getElem (by simp) fun j h₁ h₂ => ?_
    simp only [List.length_map, List.length_range'] at h₂
    simp only [List.getElem_mapIdx, List.getElem_map, List.getElem_range', info]
    rw [← List.map_take, List.take_range, Nat.add_sub_cancel, Nat.one_mul,
      min_eq_left (by omega)]

variable [Add X]

/-- **The past of every segment is at hand** in layer `i`: a position is in the pool, where the
batch does not write it, or is one of a segment of the same sequence. -/
def Known (T : Transformer X D R) (c : PagedKVCache D) (segs : List (Segment D)) (i : ℕ) : Prop :=
  ∀ s ∈ segs, ∀ p < s.start,
    (Paging.slotAt c.blockSize s.blockIds p ∉ slots c.blockSize segs ∧
      c.pool i (Paging.slotAt c.blockSize s.blockIds p) = T.kvAt s.base s.tok i p) ∨
    ∃ s' ∈ segs, s'.blockIds = s.blockIds ∧ s'.base = s.base ∧ s'.tok = s.tok ∧
      s'.start ≤ p ∧ p < s'.start + s'.len

/-- **One layer of attention.**  It writes the KV of the new tokens and nothing else, and
lets each token attend to the KV of its own sequence up to itself. -/
theorem attention_spec (T : Transformer X D R) {c : PagedKVCache D} {segs : List (Segment D)}
    (h : Packs c segs) (i : ℕ) (hpast : T.Known c segs i) :
    ∃ rows : ℕ → KV D,
      T.attention i ((entries segs).map fun e =>
          T.inputLayernorm i (T.hiddenAt e.1.base e.1.tok i e.2))
        (positions segs) (slots c.blockSize segs) (segs.map info) c =
      (.ok ((entries segs).map fun e => T.oProj i (T.attendRow
          (T.query i e.2 (T.inputLayernorm i (T.hiddenAt e.1.base e.1.tok i e.2)))
          ((List.range (e.2 + 1)).map (T.kvAt e.1.base e.1.tok i)))),
        { c with pool := Function.update c.pool i rows }) ∧
      (∀ s ∈ segs, ∀ p < s.start + s.len,
        rows (Paging.slotAt c.blockSize s.blockIds p) = T.kvAt s.base s.tok i p) ∧
      ∀ sl, sl ∉ slots c.blockSize segs → rows sl = c.pool i sl := by
  have hkv : List.zipWith (T.keyValue i) (positions segs) ((entries segs).map fun e =>
        T.inputLayernorm i (T.hiddenAt e.1.base e.1.tok i e.2)) =
      (entries segs).map fun e => T.kvAt e.1.base e.1.tok i e.2 := by
    rw [positions, List.zipWith_map, List.zipWith_self]
    refine List.map_congr_left fun e he => ?_
    obtain ⟨hs, hlo, -⟩ := mem_entries.1 he
    rw [kvAt, h.computed e.1 hs i e.2 hlo, Option.getD_none]
  have hq : List.zipWith (T.query i) (positions segs) ((entries segs).map fun e =>
        T.inputLayernorm i (T.hiddenAt e.1.base e.1.tok i e.2)) =
      (entries segs).map fun e =>
        T.query i e.2 (T.inputLayernorm i (T.hiddenAt e.1.base e.1.tok i e.2)) := by
    rw [positions, List.zipWith_map, List.zipWith_self]
  set rows := scatter (c.pool i) (slots c.blockSize segs)
    ((entries segs).map fun e => T.kvAt e.1.base e.1.tok i e.2) with hrows
  have hnew : ∀ e ∈ entries segs, rows (slot c.blockSize e) = T.kvAt e.1.base e.1.tok i e.2 :=
    fun e he => scatter_map (c.pool i) (slot c.blockSize)
      (fun e => T.kvAt e.1.base e.1.tok i e.2) h.distinct he
  have hold : ∀ sl, sl ∉ slots c.blockSize segs → rows sl = c.pool i sl :=
    fun sl hsl => scatter_of_notMem _ _ hsl
  have hall : ∀ s ∈ segs, ∀ p < s.start + s.len,
      rows (Paging.slotAt c.blockSize s.blockIds p) = T.kvAt s.base s.tok i p := by
    intro s hs p hp
    rcases Nat.lt_or_ge p s.start with hlt | hge
    · rcases hpast s hs p hlt with ⟨hnot, hpool⟩ | ⟨s', hs', hids, hbase, htok, hlo, hhi⟩
      · rw [hold _ hnot, hpool]
      · have := hnew (s', p) (mem_entries.2 ⟨hs', hlo, hhi⟩)
        simpa only [slot, hids, hbase, htok] using this
    · exact hnew (s, p) (mem_entries.2 ⟨hs, hge, hp⟩)
  refine ⟨rows, ?_, hall, hold⟩
  have hwrite : c.write i (slots c.blockSize segs)
      ((entries segs).map fun e => T.kvAt e.1.base e.1.tok i e.2) =
      (.ok (), { c with pool := Function.update c.pool i rows }) := by
    rw [PagedKVCache.write, if_pos]
    refine ⟨by simp [slots], fun sl hsl => ?_⟩
    obtain ⟨e, he, rfl⟩ := List.mem_map.1 hsl
    obtain ⟨hs, -, hhi⟩ := mem_entries.1 he
    exact Paging.slotAt_lt h.blockSize_pos (h.inPool e.1 hs) (hhi.trans_le (h.room e.1 hs))
  have hattend := T.attend_spec { c with pool := Function.update c.pool i rows } i segs
    h.blockSize_pos h.room h.inPool (fun s => T.kvAt s.base s.tok i)
    (fun s hs p hp => by
      show Function.update c.pool i rows i _ = _
      rw [Function.update_self]
      exact hall s hs p hp)
    (fun e => T.query i e.2 (T.inputLayernorm i (T.hiddenAt e.1.base e.1.tok i e.2)))
  unfold attention
  simp only [hkv, hq, hwrite, hattend, List.map_map, Function.comp_def]

/-- **The layers from `i` on.**  Every token comes out as the model's hidden row, and
the pool gains the KV of the new tokens in these layers. -/
theorem layers_spec (T : Transformer X D R) {segs : List (Segment D)} (n i : ℕ)
    {c : PagedKVCache D} (h : Packs c segs) (hpast : ∀ j, i ≤ j → j < i + n → T.Known c segs j) :
    ∃ pool, T.layers (positions segs) (slots c.blockSize segs) (segs.map info) i n
        ((entries segs).map fun e => T.hiddenAt e.1.base e.1.tok i e.2) c =
      (.ok ((entries segs).map fun e => T.hiddenAt e.1.base e.1.tok (i + n) e.2),
        { c with pool }) ∧
      (∀ j, i ≤ j → j < i + n → ∀ s ∈ segs, ∀ p < s.start + s.len,
        pool j (Paging.slotAt c.blockSize s.blockIds p) = T.kvAt s.base s.tok j p) ∧
      (∀ j sl, sl ∉ slots c.blockSize segs → pool j sl = c.pool j sl) ∧
      ∀ j < i, pool j = c.pool j := by
  induction n generalizing i c with
  | zero => exact ⟨c.pool, rfl, fun j h₁ h₂ => by omega, fun _ _ _ => rfl, fun _ _ => rfl⟩
  | succ n ih =>
    obtain ⟨rows, hatt, hall, hold⟩ := T.attention_spec h i (hpast i le_rfl (by omega))
    have hne : ∀ j, i + 1 ≤ j → Function.update c.pool i rows j = c.pool j := fun j hj =>
      Function.update_of_ne (by omega) _ _
    obtain ⟨pool, hrun, hnew, hkeep, hlow⟩ :=
      ih (i + 1) (h.withPool (Function.update c.pool i rows)) fun j h₁ h₂ s hs p hp => by
        refine (hpast j (by omega) (by omega) s hs p hp).imp_left fun ⟨hnot, hpool⟩ => ⟨hnot, ?_⟩
        show Function.update c.pool i rows j _ = _
        rw [hne j h₁]
        exact hpool
    refine ⟨pool, ?_, fun j h₁ h₂ s hs p hp => ?_, fun j sl hsl => ?_, fun j hj => ?_⟩
    · rw [layers, List.map_map]
      simp only [Function.comp_def, hatt]
      rw [show i + (n + 1) = i + 1 + n by omega, ← hrun]
      simp only [List.zipWith_map, List.zipWith_self, List.map_map, Function.comp_def]
      rfl
    · rcases Nat.lt_or_ge i j with hlt | hge
      · exact hnew j hlt (by omega) s hs p hp
      · obtain rfl : j = i := by omega
        rw [hlow j (by omega)]
        show Function.update c.pool j rows j _ = _
        rw [Function.update_self]
        exact hall s hs p hp
    · rw [hkeep j sl hsl]
      show Function.update c.pool i rows j sl = _
      rcases eq_or_ne j i with rfl | hji
      · rw [Function.update_self]
        exact hold sl hsl
      · rw [Function.update_of_ne hji]
    · rw [hlow j (by omega)]
      show Function.update c.pool i rows j = _
      exact Function.update_of_ne (by omega) _ _

/-- **The paged forward is the causal model.**  If the past of every segment is at hand,
`forward` returns the normalized hidden row of every new token, the pool holds past and
new tokens of every segment, and no slot but the new ones changed. -/
theorem forward_packed (T : Transformer X D R) {c : PagedKVCache D} {segs : List (Segment D)}
    (h : Packs c segs) (hpast : ∀ i < T.numLayers, T.Known c segs i) :
    ∃ pool, T.forward (tokens segs) (positions segs) (slots c.blockSize segs) (segs.map info) c =
      (.ok ((entries segs).map fun e => T.norm (T.hiddenAt e.1.base e.1.tok T.numLayers e.2)),
        { c with pool }) ∧
      (∀ s ∈ segs, T.Holds { c with pool } s.blockIds s.base s.tok (s.start + s.len)) ∧
      ∀ j sl, sl ∉ slots c.blockSize segs → pool j sl = c.pool j sl := by
  obtain ⟨pool, hrun, hnew, hkeep, -⟩ := T.layers_spec T.numLayers 0 h fun j _ hj => hpast j (by omega)
  refine ⟨pool, ?_, fun s hs i hi p hp => hnew i (Nat.zero_le i) (by omega) s hs p hp, hkeep⟩
  unfold forward
  rw [tokens, List.map_map]
  simp only [Function.comp_def]
  rw [show (fun e : Segment D × ℕ => T.embed (e.1.tok e.2)) =
    fun e => T.hiddenAt e.1.base e.1.tok 0 e.2 from rfl, hrun]
  simp only [Nat.zero_add, List.map_map, Function.comp_def]

/-- The same where the pool holds the past of every segment. -/
theorem forward_spec (T : Transformer X D R) {c : PagedKVCache D} {segs : List (Segment D)}
    (h : Fits c segs) (hpast : ∀ s ∈ segs, T.Holds c s.blockIds s.base s.tok s.start) :
    ∃ pool, T.forward (tokens segs) (positions segs) (slots c.blockSize segs) (segs.map info) c =
      (.ok ((entries segs).map fun e => T.norm (T.hiddenAt e.1.base e.1.tok T.numLayers e.2)),
        { c with pool }) ∧
      (∀ s ∈ segs, T.Holds { c with pool } s.blockIds s.base s.tok (s.start + s.len)) ∧
      ∀ j sl, sl ∉ slots c.blockSize segs → pool j sl = c.pool j sl :=
  T.forward_packed h.packs fun i hi s hs p hp => Or.inl ⟨h.pastKept s hs p hp, hpast s hs i hi p hp⟩

/-- **What the forward leaves alone**, whatever it is given and however it ends: all but the slots it
is to write. -/
theorem forward_frame (T : Transformer X D R) (tokenIds positions writeSlots : List ℕ)
    (seqMeta : List SeqMeta) (c : PagedKVCache D) :
    (T.forward tokenIds positions writeSlots seqMeta c).2 =
        { c with pool := (T.forward tokenIds positions writeSlots seqMeta c).2.pool } ∧
      ∀ i sl, sl ∉ writeSlots →
        (T.forward tokenIds positions writeSlots seqMeta c).2.pool i sl = c.pool i sl := by
  set Kept : PagedKVCache D → PagedKVCache D → Prop := fun c c' =>
    c' = { c with pool := c'.pool } ∧ ∀ i sl, sl ∉ writeSlots → c'.pool i sl = c.pool i sl with hKept
  have hrefl : ∀ c, Kept c c := fun c => ⟨rfl, fun _ _ _ => rfl⟩
  have htrans : ∀ {c₁ c₂ c₃}, Kept c₁ c₂ → Kept c₂ c₃ → Kept c₁ c₃ := by
    rintro c₁ c₂ c₃ ⟨h₁, h₂⟩ ⟨g₁, g₂⟩
    refine ⟨?_, fun i sl hsl => (g₂ i sl hsl).trans (h₂ i sl hsl)⟩
    rw [g₁, h₁]
  have hwrite : ∀ i rows (c : PagedKVCache D), Kept c (c.write i writeSlots rows).2 := by
    intro i rows c
    unfold PagedKVCache.write
    split
    · refine ⟨rfl, fun j sl hsl => ?_⟩
      show Function.update c.pool i _ j sl = _
      rcases eq_or_ne j i with rfl | hne
      · rw [Function.update_self]
        exact scatter_of_notMem _ _ hsl
      · rw [Function.update_of_ne hne]
    · exact hrefl c
  have hlayer : ∀ i rows (c : PagedKVCache D),
      Kept c (T.attention i rows positions writeSlots seqMeta c).2 := by
    intro i rows c
    have hw := hwrite i (List.zipWith (T.keyValue i) positions rows) c
    unfold attention
    simp only
    split
    next e c' heq => rwa [heq] at hw
    next c' heq =>
      rw [heq] at hw
      split
      · exact hw
      · exact hw
  have hlayers : ∀ n i rows (c : PagedKVCache D),
      Kept c (T.layers positions writeSlots seqMeta i n rows c).2 := by
    intro n
    induction n with
    | zero => exact fun _ _ c => hrefl c
    | succ n ih =>
      intro i rows c
      have hc := hlayer i (rows.map (T.inputLayernorm i)) c
      rw [layers]
      split
      next e c' heq => rwa [heq] at hc
      next o c' heq =>
        rw [heq] at hc
        exact htrans hc (ih _ _ _)
  have hall := hlayers T.numLayers 0 (tokenIds.map T.embed) c
  show Kept c (T.forward tokenIds positions writeSlots seqMeta c).2
  unfold forward
  split
  next e c' heq => rwa [heq] at hall
  next x c' heq => rwa [heq] at hall

/-- The forward of a model writes the pool only. -/
theorem writesPool (T : Transformer X D R) : T.runner.WritesPool := by
  intro tokenIds positions slots seqMeta c
  obtain ⟨hfwd, -⟩ := T.forward_frame tokenIds positions slots seqMeta c
  show (T.forward tokenIds positions slots seqMeta c).2.manager = c.manager
  rw [hfwd]

/-- The forward of consecutive positions of one sequence, whose KV is not supplied. -/
theorem forward_one (T : Transformer X D R) {c : PagedKVCache D} {ids : List ℕ} {base : BaseKV D}
    (start len : ℕ) (tok : ℕ → ℕ) (hbase : ∀ i p, start ≤ p → base i p = none) (hbs : 0 < c.blockSize) (hroom : start + len ≤ ids.length * c.blockSize)
    (hin : ∀ b ∈ ids, b < c.manager.numBlocks) (hids : ids.Nodup)
    (hpast : T.Holds c ids base tok start) :
    ∃ pool, T.forward ((List.range' start len).map tok) (List.range' start len)
        ((List.range' start len).map (Paging.slotAt c.blockSize ids)) [⟨ids, len, start + len⟩] c =
      (.ok ((List.range' start len).map fun p => T.norm (T.hiddenAt base tok T.numLayers p)),
        { c with pool }) ∧
      T.Holds { c with pool } ids base tok (start + len) ∧
      ∀ j sl, sl ∉ (List.range' start len).map (Paging.slotAt c.blockSize ids) →
        pool j sl = c.pool j sl := by
  have hentries : entries [(⟨ids, start, len, base, tok⟩ : Segment D)] =
      (List.range' start len).map (Prod.mk ⟨ids, start, len, base, tok⟩) := by simp [entries]
  have hinj : ∀ p q, p < start + len → q < start + len →
      Paging.slotAt c.blockSize ids p = Paging.slotAt c.blockSize ids q → p = q := fun p q hp hq =>
    Paging.slotAt_inj hbs hids (hp.trans_le hroom) (hq.trans_le hroom)
  have hslots : slots c.blockSize [(⟨ids, start, len, base, tok⟩ : Segment D)] =
      (List.range' start len).map (Paging.slotAt c.blockSize ids) := by
    rw [slots, hentries, List.map_map]
    rfl
  have hfits : Fits c [(⟨ids, start, len, base, tok⟩ : Segment D)] := by
    refine ⟨hbs, ?_, ?_, ?_, ?_, ?_⟩
    · simpa using hroom
    · simpa using hin
    · rw [hslots]
      refine List.Nodup.map_on (fun p hp q hq => ?_) List.nodup_range'
      exact hinj p q (List.mem_range'_1.1 hp).2 (List.mem_range'_1.1 hq).2
    · rw [hslots]
      intro s hs p hp hmem
      obtain rfl := List.mem_singleton.1 hs
      obtain ⟨q, hq, heq⟩ := List.mem_map.1 hmem
      have hq := List.mem_range'_1.1 hq
      have hp : p < start := hp
      have := hinj q p hq.2 (by omega) heq
      omega
    · intro s hs
      obtain rfl := List.mem_singleton.1 hs
      exact hbase
  obtain ⟨pool, hrun, hnew, hkeep⟩ := T.forward_spec hfits (by simpa using hpast)
  rw [hslots] at hrun hkeep
  rw [tokens, positions, hentries, List.map_map, List.map_map, List.map_map] at hrun
  refine ⟨pool, ?_, by simpa using hnew, hkeep⟩
  simpa only [Function.comp_def, List.map_id', List.map_cons, List.map_nil, info] using hrun

end Transformer

end DiSpec
