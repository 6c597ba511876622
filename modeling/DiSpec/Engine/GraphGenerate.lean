/-
# Generation with a graph is generation without

An engine with graphs starts from a pool in which the capture has written slot 0, so
its pool is never that of an engine without graphs.  The two are compared as twins:
the same manager, prefix cache and record, and pools that agree wherever a sequence or
the prefix cache still reads (`Twins`).

A forward reads the context of its sequence and writes its new slots.  On twins it
gives the same rows, and the pools agree on what was written as well
(`Transformer.forward_twin`), whatever else they hold.  So each part of `generate`
takes twins to twins: the prompt (`prefill_twin`), one decoded token, replayed or eager
(`step_twin`), the decode loop (`decode_twin`) and the call (`generate_twin`).  The hash of the
prefix cache is arbitrary.
-/

import DiSpec.Engine.GraphReplay
import DiSpec.Engine.Pressure

namespace DiSpec

/-- Scattered writes agree wherever the memories did, and wherever they write. -/
theorem scatter_congr {α β : Type} [DecidableEq α] {f f' : α → β} {as : List α} {bs : List β}
    (hlen : as.length = bs.length) {a : α} (h : a ∉ as → f' a = f a) :
    scatter f' as bs a = scatter f as bs a := by
  induction as generalizing f f' bs with
  | nil => exact h List.not_mem_nil
  | cons a' as ih =>
    cases bs with
    | nil => cases hlen
    | cons b bs =>
      refine ih (Nat.succ.inj hlen) fun hnot => ?_
      rcases eq_or_ne a a' with rfl | hne
      · rw [Function.update_self, Function.update_self]
      · rw [Function.update_of_ne hne, Function.update_of_ne hne]
        exact h (List.not_mem_cons_of_ne_of_not_mem hne hnot)

namespace Transformer

variable {X D R : Type} [Zero D] {T : Transformer X D R} {c : PagedKVCache D} {pool : ℕ → ℕ → KV D}
  {positions writeSlots ids : List ℕ} {qLen ctxLen : ℕ}

omit [Zero D] in
/-- What is gathered where two pools agree. -/
theorem gather_congr {layer : ℕ} {pool' : ℕ → ℕ → KV D} {slots : List ℕ}
    (h : ∀ s ∈ slots, pool' layer s = pool layer s) :
    PagedKVCache.gather { c with pool := pool' } layer slots =
      PagedKVCache.gather { c with pool } layer slots := by
  show (if _ then Except.ok (slots.map (pool' layer)) else _) =
    (if _ then Except.ok (slots.map (pool layer)) else _)
  rw [List.map_congr_left h]
  rfl

/-- **One layer of attention** on two pools that agree on the context up to what is written. -/
theorem attention_twin (layer : ℕ) {x o : List X} (hbs : 0 < c.blockSize)
    (hroom : ctxLen ≤ ids.length * c.blockSize)
    (hctx : ∀ p < ctxLen, Paging.slotAt c.blockSize ids p ∉ writeSlots →
      pool layer (Paging.slotAt c.blockSize ids p) = c.pool layer (Paging.slotAt c.blockSize ids p))
    {c₁ : PagedKVCache D}
    (hrun : T.attention layer x positions writeSlots [⟨ids, qLen, ctxLen⟩] c = (.ok o, c₁)) :
    ∃ pool₁ pool₁', c₁ = { c with pool := pool₁ } ∧
      T.attention layer x positions writeSlots [⟨ids, qLen, ctxLen⟩] { c with pool } =
        (.ok o, { c with pool := pool₁' }) ∧
      (∀ i ≠ layer, pool₁ i = c.pool i ∧ pool₁' i = pool i) ∧
      ∀ s, (s ∉ writeSlots → pool layer s = c.pool layer s) → pool₁' layer s = pool₁ layer s := by
  unfold attention at hrun ⊢
  set kv := List.zipWith (T.keyValue layer) positions x
  set q := List.zipWith (T.query layer) positions x
  by_cases hok : writeSlots.length = kv.length ∧ ∀ s ∈ writeSlots, s < c.numSlots
  swap
  · have hwrite : c.write layer writeSlots kv = (.error .IndexError, c) := if_neg hok
    simp only [hwrite] at hrun
    cases hrun
  have hok' : writeSlots.length = kv.length ∧
      ∀ s ∈ writeSlots, s < PagedKVCache.numSlots { c with pool } := hok
  set pool₁ := Function.update c.pool layer (scatter (c.pool layer) writeSlots kv) with hpool₁
  set pool₁' := Function.update pool layer (scatter (pool layer) writeSlots kv) with hpool₁'
  have hwrite : c.write layer writeSlots kv = (.ok (), { c with pool := pool₁ }) := if_pos hok
  have hwrite' : PagedKVCache.write { c with pool } layer writeSlots kv =
      (.ok (), { c with pool := pool₁' }) := if_pos hok'
  have hagree : ∀ s, (s ∉ writeSlots → pool layer s = c.pool layer s) → pool₁' layer s = pool₁ layer s := by
    intro s hs
    rw [hpool₁, hpool₁', Function.update_self, Function.update_self]
    exact scatter_congr hok.1 hs
  -- the context is read alike
  have hcontext : context { c with pool := pool₁' } layer ⟨ids, qLen, ctxLen⟩ kv =
      context { c with pool := pool₁ } layer ⟨ids, qLen, ctxLen⟩ kv := by
    unfold context
    split
    · rfl
    · have hslots : ∀ p : ℕ → ℕ → KV D, PagedKVCache.contextSlots { c with pool := p } ids ctxLen =
          .ok ((List.range ctxLen).map (Paging.slotAt c.blockSize ids)) := fun p =>
        PagedKVCache.contextSlots_spec { c with pool := p } hbs hroom
      rw [hslots, hslots]
      refine gather_congr fun s hs => hagree s ?_
      obtain ⟨p, hp, rfl⟩ := List.mem_map.1 hs
      exact hctx p (List.mem_range.1 hp)
  have hattend : T.attend { c with pool := pool₁' } layer [⟨ids, qLen, ctxLen⟩] q kv =
      T.attend { c with pool := pool₁ } layer [⟨ids, qLen, ctxLen⟩] q kv := by
    rw [attend, attend, hcontext]
    rfl
  simp only [hwrite] at hrun
  rcases hatt : T.attend { c with pool := pool₁ } layer [⟨ids, qLen, ctxLen⟩] q kv with e | out
  · rw [hatt] at hrun
    cases hrun
  rw [hatt] at hrun hattend
  obtain ⟨ho, hc₁⟩ := Prod.mk.inj hrun
  refine ⟨pool₁, pool₁', hc₁.symm, ?_, fun i hi => ⟨Function.update_of_ne hi _ _,
    Function.update_of_ne hi _ _⟩, hagree⟩
  simp only [hwrite', hattend]
  rw [Except.ok.inj ho]

variable [Add X]

/-- The layers. -/
theorem layers_twin (n i : ℕ) {x y : List X} (hbs : 0 < c.blockSize)
    (hroom : ctxLen ≤ ids.length * c.blockSize)
    (hctx : ∀ j, i ≤ j → j < i + n → ∀ p < ctxLen, Paging.slotAt c.blockSize ids p ∉ writeSlots →
      pool j (Paging.slotAt c.blockSize ids p) = c.pool j (Paging.slotAt c.blockSize ids p))
    {c₁ : PagedKVCache D}
    (hrun : T.layers positions writeSlots [⟨ids, qLen, ctxLen⟩] i n x c = (.ok y, c₁)) :
    ∃ pool₁ pool₁', c₁ = { c with pool := pool₁ } ∧
      T.layers positions writeSlots [⟨ids, qLen, ctxLen⟩] i n x { c with pool } =
        (.ok y, { c with pool := pool₁' }) ∧
      (∀ j < i, pool₁ j = c.pool j ∧ pool₁' j = pool j) ∧
      ∀ j, i ≤ j → j < i + n → ∀ s, (s ∉ writeSlots → pool j s = c.pool j s) →
        pool₁' j s = pool₁ j s := by
  induction n generalizing i x c pool with
  | zero =>
    obtain ⟨hy, hc⟩ := Prod.mk.inj hrun
    refine ⟨c.pool, pool, hc.symm, ?_, fun j _ => ⟨rfl, rfl⟩, fun j h₁ h₂ => by omega⟩
    rw [layers, Except.ok.inj hy]
  | succ n ih =>
    rw [layers] at hrun
    rcases hatt : T.attention i (x.map (T.inputLayernorm i)) positions writeSlots [⟨ids, qLen, ctxLen⟩] c with
      ⟨e | o, c₂⟩
    · rw [hatt] at hrun
      cases hrun
    rw [hatt] at hrun
    obtain ⟨pool₂, pool₂', rfl, hatt', hothers, hagree⟩ :=
      attention_twin i hbs hroom (hctx i le_rfl (by omega)) hatt
    have hnext : ∀ j, i + 1 ≤ j → pool₂ j = c.pool j ∧ pool₂' j = pool j := fun j hj =>
      hothers j (by omega)
    have hctx' : ∀ j, i + 1 ≤ j → j < i + 1 + n → ∀ p < ctxLen,
        Paging.slotAt c.blockSize ids p ∉ writeSlots →
        pool₂' j (Paging.slotAt c.blockSize ids p) = pool₂ j (Paging.slotAt c.blockSize ids p) := by
      intro j h₁ h₂ p hp hnot
      rw [(hnext j h₁).1, (hnext j h₁).2]
      exact hctx j (by omega) (by omega) p hp hnot
    obtain ⟨pool₁, pool₁', hc₁, hrun', hlow, hhigh⟩ :=
      ih (c := { c with pool := pool₂ }) (i + 1) hbs hroom hctx' hrun
    refine ⟨pool₁, pool₁', hc₁, ?_, fun j hj => ?_, fun j h₁ h₂ s hs => ?_⟩
    · rw [layers, hatt']
      exact hrun'
    · rw [(hlow j (by omega)).1, (hlow j (by omega)).2]
      exact hothers j (by omega)
    · rcases Nat.lt_or_ge i j with hlt | hge
      · refine hhigh j hlt (by omega) s fun hnot => ?_
        show pool₂' j s = pool₂ j s
        rw [(hnext j hlt).1, (hnext j hlt).2]
        exact hs hnot
      · obtain rfl : j = i := by omega
        rw [(hlow j (by omega)).1, (hlow j (by omega)).2]
        exact hagree s hs

/-- **A forward on two pools that agree on the context**, up to what is written: the same rows, and the
pools agree on what was written and wherever they agreed. -/
theorem forward_twin {tokenIds : List ℕ} {hidden : List X} (hbs : 0 < c.blockSize)
    (hroom : ctxLen ≤ ids.length * c.blockSize)
    (hctx : ∀ i < T.numLayers, ∀ p < ctxLen, Paging.slotAt c.blockSize ids p ∉ writeSlots →
      pool i (Paging.slotAt c.blockSize ids p) = c.pool i (Paging.slotAt c.blockSize ids p))
    {c₁ : PagedKVCache D}
    (hrun : T.forward tokenIds positions writeSlots [⟨ids, qLen, ctxLen⟩] c = (.ok hidden, c₁)) :
    ∃ pool₁ pool₁', c₁ = { c with pool := pool₁ } ∧
      T.forward tokenIds positions writeSlots [⟨ids, qLen, ctxLen⟩] { c with pool } =
        (.ok hidden, { c with pool := pool₁' }) ∧
      ∀ i < T.numLayers, ∀ s, (s ∉ writeSlots → pool i s = c.pool i s) → pool₁' i s = pool₁ i s := by
  unfold forward at hrun ⊢
  rcases hlay : T.layers positions writeSlots [⟨ids, qLen, ctxLen⟩] 0 T.numLayers (tokenIds.map T.embed) c
    with ⟨e | y, c₂⟩
  · rw [hlay] at hrun
    cases hrun
  rw [hlay] at hrun
  obtain ⟨hy, rfl⟩ := Prod.mk.inj hrun
  obtain ⟨pool₁, pool₁', hc₁, hlay', -, hagree⟩ := layers_twin T.numLayers 0 hbs hroom
    (fun j _ hj => hctx j (by omega)) hlay
  refine ⟨pool₁, pool₁', hc₁, ?_, fun i hi => hagree i (Nat.zero_le i) (by omega)⟩
  rw [hlay']
  simp only
  rw [Except.ok.inj hy]

end Transformer

namespace LLMEngine

variable {κ X D R G : Type}

/-- The engine with another pool. -/
def withPool (e : LLMEngine κ D) (pool : ℕ → ℕ → KV D) : LLMEngine κ D :=
  { e with cache := { e.cache with pool } }

/-- The pool holds what the engine's own holds, in the given slots of the first `n` layers. -/
def Agrees (n : ℕ) (S : ℕ → Prop) (e : LLMEngine κ D) (pool : ℕ → ℕ → KV D) : Prop :=
  ∀ i < n, ∀ s, S s → pool i s = e.cache.pool i s

/-- The slots that are still read: those of pinned blocks and the first `n` of a sequence. -/
def Live (e : LLMEngine κ D) (ids : List ℕ) (n s : ℕ) : Prop :=
  s / e.blockSize ∈ e.pins ∨ ∃ p < n, Paging.slotAt e.blockSize ids p = s

variable [Zero D] [Add X] {T : Transformer X D R} {e e₁ : LLMEngine κ D} {pool : ℕ → ℕ → KV D}

/-- A recorded forward on twins. -/
theorem forward_twin {S : ℕ → Prop} (h : Agrees T.numLayers S e pool) (hbs : 0 < e.blockSize)
    {adopted tokenIds positions writeSlots ids : List ℕ} {qLen ctxLen : ℕ} {hidden : List X}
    (hroom : ctxLen ≤ ids.length * e.blockSize)
    (hctx : ∀ p < ctxLen, S (Paging.slotAt e.blockSize ids p) ∨ Paging.slotAt e.blockSize ids p ∈ writeSlots)
    (hrun : e.forward T.runner adopted tokenIds positions writeSlots [⟨ids, qLen, ctxLen⟩] =
      (.ok hidden, e₁)) :
    ∃ pool₁, (e.withPool pool).forward T.runner adopted tokenIds positions writeSlots [⟨ids, qLen, ctxLen⟩] =
        (.ok hidden, e₁.withPool pool₁) ∧
      Agrees T.numLayers (fun s => S s ∨ s ∈ writeSlots) e₁ pool₁ := by
  unfold LLMEngine.forward at hrun
  rcases hfwd : T.runner.forward tokenIds positions writeSlots [⟨ids, qLen, ctxLen⟩] e.cache with ⟨r, c₁⟩
  rw [hfwd] at hrun
  obtain ⟨rfl, rfl⟩ := Prod.mk.inj hrun
  obtain ⟨pool₀, pool₁, rfl, hfwd', hagree⟩ := Transformer.forward_twin (T := T) (c := e.cache) hbs hroom
    (fun i hi p hp hnot => h i hi _ ((hctx p hp).resolve_right hnot)) hfwd
  refine ⟨pool₁, ?_, fun i hi s hs => hagree i hi s fun hnot => h i hi s (hs.resolve_right hnot)⟩
  have hfwd' : T.runner.forward tokenIds positions writeSlots [⟨ids, qLen, ctxLen⟩]
      (e.withPool pool).cache = (.ok hidden, { e.cache with pool := pool₁ }) := hfwd'
  rw [LLMEngine.forward, hfwd']
  rfl

end LLMEngine

namespace CudaGraphDecoder

variable {R : Type}

/-- The decoder later: the same buckets, still captured. -/
structure Later (g g' : CudaGraphDecoder R) : Prop where
  captured : Captured g'
  buckets : g'.buckets = g.buckets

theorem Later.trans {g g' g'' : CudaGraphDecoder R} (h : Later g g') (h' : Later g' g'') : Later g g'' :=
  ⟨h'.captured, h'.buckets.trans h.buckets⟩

theorem Captured.refl {g : CudaGraphDecoder R} (h : Captured g) : Later g g := ⟨h, rfl⟩

end CudaGraphDecoder

namespace GraphEngine

open LLMEngine CudaGraphDecoder

variable {κ X D R G : Type} [Zero D] [Add X] {T : Transformer X D R} {e e₁ : LLMEngine κ D}
  {pool : ℕ → ℕ → KV D} {graph : CudaGraphDecoder R} {fused : Option (ℕ → X → List D)}

/-- **One decoded token**, replayed or eager, on the twin of an eager step. -/
theorem step_twin (hgqa : T.numKvHeads ∣ T.numHeads) (hg : graph.Captured) {S : ℕ → Prop}
    (h : Agrees T.numLayers S e pool) {ids : List ℕ} {cur : ℕ} (hw : Window e.cache ids cur)
    (hctx : ∀ p < cur, S (Paging.slotAt e.blockSize ids p)) (adopted : List ℕ) (nextId : ℕ) {hidden : List X}
    (hrun : e.forward (T.withFused fused).runner adopted [nextId] [cur] [e.cache.newest ids cur]
      [⟨ids, 1, cur + 1⟩] = (.ok hidden, e₁)) :
    ∃ pool₁ graph₁, step T fused ⟨e.withPool pool, graph⟩ adopted ids nextId cur (e.cache.newest ids cur) =
        (.ok ((T.withFused fused).runner.logits (lastRow hidden)), ⟨e₁.withPool pool₁, graph₁⟩) ∧
      Agrees T.numLayers (fun s => S s ∨ s = e.cache.newest ids cur) e₁ pool₁ ∧ Later graph graph₁ := by
  have hctx' : ∀ p < cur + 1, S (Paging.slotAt e.blockSize ids p) ∨
      Paging.slotAt e.blockSize ids p ∈ [e.cache.newest ids cur] := by
    intro p hp
    rcases Nat.lt_succ_iff_lt_or_eq.1 hp with hlt | rfl
    · exact Or.inl (hctx p hlt)
    · exact Or.inr (List.mem_singleton_self _)
  obtain ⟨pool₁, hrun', hagree⟩ := forward_twin (T := T.withFused fused) h hw.blockSize_pos hw.room hctx' hrun
  have hagree : Agrees T.numLayers (fun s => S s ∨ s = e.cache.newest ids cur) e₁ pool₁ := fun i hi s hs =>
    hagree i hi s (hs.imp_right List.mem_singleton.2)
  unfold step
  split
  next hcan =>
    obtain ⟨x, pool₂, graph₁, heager, hdec, hg₁, hb₁, -⟩ := hg.decode_spec hgqa fused nextId cur
      (hw.withPool pool) hcan
    -- the eager forward on the twin is known twice
    have hboth : (e.withPool pool).forward (T.withFused fused).runner adopted [nextId] [cur]
        [e.cache.newest ids cur] [⟨ids, 1, cur + 1⟩] =
        (.ok [x], { e.withPool pool with
          cache := { e.cache with pool := pool₂ }
          calls := e.calls ++ [⟨[nextId], [cur], [e.cache.newest ids cur], e.held, adopted⟩] }) := by
      have heager : (T.withFused fused).runner.forward [nextId] [cur] [e.cache.newest ids cur]
          [⟨ids, 1, cur + 1⟩] (e.withPool pool).cache = (.ok [x], { e.cache with pool := pool₂ }) := heager
      rw [LLMEngine.forward, heager]
      rfl
    rw [hrun'] at hboth
    obtain ⟨hhidden, he₁⟩ := Prod.mk.inj hboth
    obtain rfl := Except.ok.inj hhidden
    have hslots : (e.withPool pool).cache.contextSlots ids (cur + 1) = .ok (e.cache.window ids cur) :=
      (hw.withPool pool).slots
    refine ⟨pool₁, graph₁, ?_, hagree, ⟨hg₁, hb₁⟩⟩
    have hdec : graph.decode T fused (e.withPool pool).cache nextId cur (e.cache.newest ids cur)
        (e.cache.window ids cur) = (.ok (T.lmHead x), { e.cache with pool := pool₂ }, graph₁) := hdec
    simp only [hslots, replay, hdec]
    rw [he₁]
    rfl
  next => exact ⟨pool₁, graph, by simp only [hrun'], hagree, hg.refl⟩

omit [Zero D] [Add X] in
/-- What was live stays live in a table extended by blocks, and one more token is. -/
theorem live_append {t : BlockTable} {new : List ℕ} (hbs : 0 < e.blockSize)
    (hcap : t.numTokens ≤ t.blockIds.length * e.blockSize) {s : ℕ}
    (h : Live e (t.blockIds ++ new) (t.numTokens + 1) s) :
    Live e t.blockIds t.numTokens s ∨ s = e.cache.newest (t.blockIds ++ new) t.numTokens := by
  rcases h with hpin | ⟨p, hp, rfl⟩
  · exact Or.inl (Or.inl hpin)
  · rcases Nat.lt_succ_iff_lt_or_eq.1 hp with hlt | rfl
    · refine Or.inl (Or.inr ⟨p, hlt, ?_⟩)
      exact (Paging.slotAt_append hbs new (hlt.trans_le hcap)).symm
    · exact Or.inr rfl

variable [Field R] [LinearOrder R]

/-- **The decode loop** on twins draws the same tokens, or raises the same, from the same generator. -/
theorem decode_twin (hgqa : T.numKvHeads ∣ T.numHeads) (fused : Option (ℕ → X → List D)) (torch : Torch R)
    (src : Source R G) {seqId : ℕ} (reuse : List ℕ) (params : SamplingParams R) (eos : Option ℕ)
    (n nextId : ℕ) (h : Tally e) {t : BlockTable} (ht : e.cache.manager.tables.lookup seqId = some t)
    (hagree : Agrees T.numLayers (Live e t.blockIds t.numTokens) e pool) (hg : graph.Captured) (g : G) :
    ∃ r e' g' pool' graph', LLMEngine.decode torch src (T.withFused fused).runner seqId reuse params eos n
        nextId t.numTokens e g = (r, e', g') ∧
      decode torch src T fused seqId reuse params eos n nextId t.numTokens ⟨e.withPool pool, graph⟩ g =
        (r.mapError .raised, ⟨e'.withPool pool', graph'⟩, g') ∧
      Counts e e' seqId ∧ e'.prefixCache = e.prefixCache ∧
      Agrees T.numLayers (fun s => s / e.blockSize ∈ e.pins) e' pool' ∧ Later graph graph' := by
  induction n generalizing e t nextId g pool graph with
  | zero =>
    exact ⟨.ok [], e, g, pool, graph, rfl, rfl, ⟨h, .refl _ _⟩, rfl,
      fun i hi s hs => hagree i hi s (Or.inl hs), hg.refl⟩
  | succ n ih =>
    have hbs := h.blockSize_pos
    have hcap := h.tallied.capacity seqId t ht
    rw [LLMEngine.decode, decode]
    by_cases heos : some nextId = eos
    · rw [if_pos heos, if_pos heos]
      exact ⟨.ok [], e, g, pool, graph, rfl, rfl, ⟨h, .refl _ _⟩, rfl,
        fun i hi s hs => hagree i hi s (Or.inl hs), hg.refl⟩
    rw [if_neg heos, if_neg heos]
    have hman : (e.withPool pool).cache.manager = e.cache.manager := rfl
    rcases BlockManager.appendToken_tallied h.tallied hbs ht with
      ⟨-, -, happ⟩ | ⟨new, b, m, happ, hext, -, hb, htal⟩
    · refine ⟨.error (.OutOfBlocksError "block pool exhausted"), e, g, pool, graph, ?_, ?_,
        ⟨h, .refl _ _⟩, rfl, fun i hi s hs => hagree i hi s (Or.inl hs), hg.refl⟩
      · rw [happ]
        rfl
      · rw [hman, happ]
        rfl
    have hc := h.setManager htal hext.toTouches
    have hbs' : (e.setManager m).blockSize = e.blockSize := hext.blockSize
    have hw : Window (e.setManager m).cache (t.blockIds ++ new) t.numTokens :=
      ⟨hc.tally.blockSize_pos, htal.capacity seqId _ hext.table, htal.block_lt hext.table⟩
    have hnewest : b * e.blockSize + t.numTokens % e.blockSize =
        (e.setManager m).cache.newest (t.blockIds ++ new) t.numTokens := by
      show _ = Paging.slotAt (e.setManager m).blockSize _ _
      rw [hbs']
      exact (Paging.slotAt_of_getElem? hb).symm
    have hslot : ∀ s ∈ [(e.setManager m).cache.newest (t.blockIds ++ new) t.numTokens],
        s < (e.setManager m).cache.numSlots := fun s hs => by
      rw [List.mem_singleton.1 hs]
      exact hw.slot_lt le_rfl
    obtain ⟨hidden, e₁, hfwd, hhidden, hc₁, hman₁⟩ := forward_tally (T.withFused fused) hc.tally hext.table
      reuse (show [t.numTokens].length = [nextId].length from rfl)
      (show [(e.setManager m).cache.newest (t.blockIds ++ new) t.numTokens].length = _ from rfl) hslot hw.room
    have hfwd : (e.setManager m).forward (T.withFused fused).runner reuse [nextId] [t.numTokens]
        [(e.setManager m).cache.newest (t.blockIds ++ new) t.numTokens]
        [⟨t.blockIds ++ new, 1, t.numTokens + 1⟩] = (.ok hidden, e₁) := hfwd
    have hcache₁ : e₁.prefixCache = e.prefixCache := (congrArg (fun r => r.2.prefixCache) hfwd).symm
    have hcount := hc.trans hc₁
    have hbs₁ : e₁.blockSize = e.blockSize := hcount.touches.blockSize
    have hpins₁ : e₁.pins = e.pins := by unfold pins; rw [hcache₁]
    -- the same token on the twin
    obtain ⟨pool₁, graph₁, hstep, hagree₁, hlater⟩ := step_twin hgqa hg
      (show Agrees T.numLayers (Live e t.blockIds t.numTokens) (e.setManager m) pool from hagree) hw
      (fun p hp => by
        rw [hbs', Paging.slotAt_append hbs new (hp.trans_le hcap)]
        exact Or.inr ⟨p, hp, rfl⟩) reuse nextId hfwd
    obtain ⟨x, g₁, hdraw⟩ := sampleNext_lastRow torch src (T.withFused fused) params
      (show 0 < hidden.length by rw [hhidden]; exact Nat.one_pos) g
    have htable : e₁.cache.manager.tables.lookup seqId = some ⟨t.blockIds ++ new, t.numTokens + 1⟩ := by
      rw [hman₁]
      exact hext.table
    have hlive : ∀ s, Live e₁ (t.blockIds ++ new) (t.numTokens + 1) s →
        Live e t.blockIds t.numTokens s ∨
          s = (e.setManager m).cache.newest (t.blockIds ++ new) t.numTokens := by
      intro s hs
      unfold Live at hs
      rw [hbs₁, hpins₁] at hs
      rcases live_append hbs hcap hs with hs | rfl
      · exact Or.inl hs
      · refine Or.inr ?_
        show Paging.slotAt e.blockSize _ _ = Paging.slotAt (e.setManager m).blockSize _ _
        rw [hbs']
    obtain ⟨r, e', g', pool', graph', hdec, hdec', hc', hcache', hagree', hlater'⟩ :=
      ih x hc₁.tally htable (fun i hi s hs => hagree₁ i hi s (hlive s hs)) hlater.captured g₁
    rw [hbs₁, hpins₁] at hagree'
    have htab : m.blockTable seqId = .ok ⟨t.blockIds ++ new, t.numTokens + 1⟩ := by
      rw [BlockManager.blockTable, hext.table]
    have hstep : step T fused ⟨(e.withPool pool).setManager m, graph⟩ reuse (t.blockIds ++ new) nextId
        t.numTokens (b * (e.withPool pool).blockSize + t.numTokens % e.cache.manager.blockSize) =
        (.ok ((T.withFused fused).runner.logits (lastRow hidden)), ⟨e₁.withPool pool₁, graph₁⟩) := by
      rw [show b * (e.withPool pool).blockSize + t.numTokens % e.cache.manager.blockSize = _ from hnewest]
      exact hstep
    refine ⟨r.map (List.cons x), e', g', pool', graph', ?_, ?_, hcount.trans hc',
      hcache'.trans hcache₁, hagree', hlater.trans hlater'⟩
    · have hfwd : (e.setManager m).forward (T.withFused fused).runner reuse [nextId] [t.numTokens]
          [b * e.blockSize + t.numTokens % e.cache.manager.blockSize]
          [⟨t.blockIds ++ new, 1, t.numTokens + 1⟩] = (.ok hidden, e₁) := by
        rw [show b * e.blockSize + t.numTokens % e.cache.manager.blockSize = _ from hnewest]
        exact hfwd
      simp only [happ, htab, hfwd, hdraw, hdec]
      cases r <;> rfl
    · rw [hman, happ]
      simp only [htab, hstep, hdraw, hdec']
      cases r <;> rfl

variable [DecidableEq κ] {H : RollingHash κ}

omit [Zero D] [Add X] [Field R] [LinearOrder R] in
/-- The prefix cache does not look at the pool. -/
theorem adopt_withPool (e : LLMEngine κ D) (pool : ℕ → ℕ → KV D) (promptIds : List ℕ) :
    (e.withPool pool).adopt H promptIds =
      ((e.adopt H promptIds).1, (e.adopt H promptIds).2.withPool pool) := by
  unfold adopt
  rw [show (e.withPool pool).prefixCache = e.prefixCache from rfl]
  cases e.prefixCache <;> rfl

omit [Zero D] [Add X] [Field R] [LinearOrder R] in
theorem register_withPool (e : LLMEngine κ D) (pool : ℕ → ℕ → KV D) (promptIds ids : List ℕ) :
    (e.withPool pool).register H promptIds ids =
      ((e.register H promptIds ids).1, (e.register H promptIds ids).2.withPool pool) := by
  unfold register
  rw [show (e.withPool pool).prefixCache = e.prefixCache from rfl]
  cases e.prefixCache <;> rfl

omit [Zero D] [Add X] [Field R] [LinearOrder R] in
/-- `register` pins full blocks of the prompt only. -/
theorem mem_pins_of_register (h : Tally e) {seqId : ℕ} {t : BlockTable}
    (ht : e.cache.manager.tables.lookup seqId = some t) {promptIds : List ℕ}
    (hreg : e.register H promptIds t.blockIds = (.ok (), e₁)) {b : ℕ} (hb : b ∈ e₁.pins) :
    b ∈ e.pins ∨ ∃ i : ℕ, i < promptIds.length / e.blockSize ∧ t.blockIds[i]? = some b := by
  unfold register at hreg
  cases hc : e.prefixCache with
  | none =>
    rw [hc] at hreg
    obtain rfl := (Prod.mk.inj hreg).2
    exact Or.inl hb
  | some c =>
    have hpins : e.pins = c.pins := pins_of_cache hc
    obtain ⟨c', m', heq, -, -, -, -, -, -, -, -, hfresh⟩ :=
      PrefixCache.insertLoop_tallied { c with clock := c.clock + 1 } e.cache.manager
        ((PrefixCache.blockHashes H c.bs promptIds).zip t.blockIds) (hpins ▸ h.tallied)
        fun kb hkb => Multiset.mem_add.2 (Or.inl
          (BlockManager.mem_tableBlocks ht (List.of_mem_zip hkb).2))
    simp only [hc, PrefixCache.insert, heq] at hreg
    obtain rfl := (Prod.mk.inj hreg).2
    obtain ⟨key, hkey⟩ := PrefixCache.of_mem_pins (c := c') hb
    rcases hfresh key b hkey with hold | ⟨-, hmem⟩
    · obtain ⟨node, hnode, rfl⟩ := Option.map_eq_some_iff.1 hold
      rw [hpins]
      exact Or.inl (PrefixCache.mem_pins (c := c) hnode)
    · obtain ⟨i, hi⟩ := List.getElem?_of_mem hmem
      obtain ⟨h₁, h₂⟩ := List.getElem?_zip_eq_some.1 hi
      obtain ⟨hlt, -⟩ := PrefixCache.of_blockHashes_getElem? h₁
      rw [h.cacheSize c hc] at hlt
      exact Or.inr ⟨i, hlt, h₂⟩

omit [Zero D] [Add X] [Field R] [LinearOrder R] in
/-- The slots of what is pinned after `register` were live. -/
theorem live_of_register (h : Tally e) {seqId : ℕ} {t : BlockTable}
    (ht : e.cache.manager.tables.lookup seqId = some t) {promptIds : List ℕ}
    (hreg : e.register H promptIds t.blockIds = (.ok (), e₁)) (hbs : e₁.blockSize = e.blockSize) {s : ℕ}
    (hs : Live e₁ t.blockIds promptIds.length s) : Live e t.blockIds promptIds.length s := by
  unfold Live at hs ⊢
  rw [hbs] at hs
  refine hs.elim (fun hpin => ?_) Or.inr
  rcases mem_pins_of_register h ht hreg hpin with hold | ⟨i, hi, hib⟩
  · exact Or.inl hold
  · refine Or.inr ⟨i * e.blockSize + s % e.blockSize, ?_, ?_⟩
    · have hmod := Nat.mod_lt s h.blockSize_pos
      have hle := (Nat.mul_le_mul_right e.blockSize hi).trans (Nat.div_mul_le_self _ _)
      rw [Nat.succ_mul] at hle
      omega
    · have hdiv : (i * e.blockSize + s % e.blockSize) / e.blockSize = i := by
        rw [Nat.mul_comm, Nat.mul_add_div h.blockSize_pos, Nat.div_eq_of_lt (Nat.mod_lt _ h.blockSize_pos),
          Nat.add_zero]
      have hmod : (i * e.blockSize + s % e.blockSize) % e.blockSize = s % e.blockSize := by
        rw [Nat.mul_comm, Nat.mul_add_mod, Nat.mod_mod]
      rw [Paging.slotAt_of_getElem? (hdiv.symm ▸ hib), hmod, Nat.div_add_mod']

/-- **The prefill** on twins: the same draw, and what the prompt left in the pool is the same. -/
theorem prefill_twin (torch : Torch R) (src : Source R G) (h : Tally e) {seqId : ℕ}
    {promptIds reuse new : List ℕ}
    (ht : e.cache.manager.tables.lookup seqId = some ⟨reuse ++ new, promptIds.length⟩)
    (hshort : reuse = [] ∨ reuse.length * e.blockSize < promptIds.length) (hreuse : ∀ b ∈ reuse, b ∈ e.pins)
    (hagree : Agrees T.numLayers (fun s => s / e.blockSize ∈ e.pins) e pool) (params : SamplingParams R)
    (g : G) :
    ∃ r e' g' pool', e.prefill H torch src T.runner g seqId promptIds reuse ⟨reuse ++ new, promptIds.length⟩
        params = (r, e', g') ∧
      (e.withPool pool).prefill H torch src T.runner g seqId promptIds reuse
        ⟨reuse ++ new, promptIds.length⟩ params = (r, e'.withPool pool', g') ∧
      Counts e e' seqId ∧
      e'.cache.manager.tables.lookup seqId = some ⟨reuse ++ new, promptIds.length⟩ ∧
      Agrees T.numLayers (Live e' (reuse ++ new) promptIds.length) e' pool' := by
  have hbs := h.blockSize_pos
  set start := reuse.length * e.blockSize
  set q := promptIds.length - start
  set table : BlockTable := ⟨reuse ++ new, promptIds.length⟩
  have hcap : promptIds.length ≤ (reuse ++ new).length * e.blockSize := h.tallied.capacity seqId _ ht
  obtain ⟨hle, hin⟩ := h.prefill_lt ht hshort
  have hslots := e.cache.slotsForPositions_spec hbs (reuse ++ new) hin
  have hslots' := (e.withPool pool).cache.slotsForPositions_spec hbs (reuse ++ new) hin
  obtain ⟨hidden, e₁, e₃, hfwd, hlen, hman, hc, hreg, hc₃, ht₃, -⟩ := prefill_steps H T h ht hshort
  have hbs₁ : e₁.blockSize = e.blockSize := congrArg BlockManager.blockSize hman
  have hcache₁ : e₁.prefixCache = e.prefixCache := (congrArg (fun r => r.2.prefixCache) hfwd).symm
  have hpins₁ : e₁.pins = e.pins := by unfold pins; rw [hcache₁]
  -- the adopted blocks are pinned, the rest of the prompt is written
  have hread : ∀ p < promptIds.length, Paging.slotAt e.blockSize (reuse ++ new) p / e.blockSize ∈ e.pins ∨
      Paging.slotAt e.blockSize (reuse ++ new) p ∈
        (List.range' start q).map (Paging.slotAt e.cache.blockSize (reuse ++ new)) := by
    intro p hp
    rcases Nat.lt_or_ge p start with hlt | hge
    · left
      rw [Paging.slotAt_append hbs new hlt]
      exact hreuse _ (Paging.slotAt_div_mem hbs hlt)
    · refine Or.inr (List.mem_map_of_mem (List.mem_range'_1.2 ⟨hge, ?_⟩))
      omega
  obtain ⟨pool₁, hfwd', hagree₁⟩ := LLMEngine.forward_twin (e := { e with lastPrefillTokens := q })
    (S := fun s => s / e.blockSize ∈ e.pins) hagree hbs hcap hread hfwd
  set m₂ := e₁.cache.manager.setTable seqId table
  have ht₂ : (e₁.setManager m₂).cache.manager.tables.lookup seqId = some table := AList.lookup_insert _
  have hbs₃ : e₃.blockSize = (e₁.setManager m₂).blockSize := hc₃.touches.blockSize
  have hpool₃ : e₃.cache.pool = e₁.cache.pool := by
    have hsame := register_withPool (H := H) (e₁.setManager m₂) e₁.cache.pool promptIds table.blockIds
    rw [show (e₁.setManager m₂).withPool e₁.cache.pool = e₁.setManager m₂ from rfl, hreg] at hsame
    exact congrArg (fun r => r.2.cache.pool) hsame
  have hreg' : ((e₁.withPool pool₁).setManager ((e₁.withPool pool₁).cache.manager.setTable seqId
      { table with numTokens := promptIds.length })).register H promptIds table.blockIds =
      (.ok (), e₃.withPool pool₁) := by
    have hsame := register_withPool (H := H) (e₁.setManager m₂) pool₁ promptIds table.blockIds
    rw [hreg] at hsame
    exact hsame
  have hprefill := prefill_eq torch src table params g hslots hfwd hreg
  have hprefill' := prefill_eq (e := e.withPool pool) torch src table params g hslots' hfwd' hreg'
  refine ⟨(sampleNext torch src params (T.runner.logits (lastRow hidden)) g).1, e₃,
    (sampleNext torch src params (T.runner.logits (lastRow hidden)) g).2, pool₁, hprefill, hprefill',
    hc.trans hc₃, ht₃, fun i hi s hs => ?_⟩
  rw [hpool₃]
  refine hagree₁ i hi s ?_
  rcases live_of_register hc.tally ht₂ hreg hbs₃ hs with hpin | ⟨p, hp, rfl⟩
  · refine Or.inl ?_
    have hpin : s / e₁.blockSize ∈ e₁.pins := hpin
    rwa [hbs₁, hpins₁] at hpin
  · have hb : (e₁.setManager m₂).blockSize = e.blockSize := hbs₁
    rw [hb]
    exact hread p hp

/-- **One call of `generate`** on twins without tables, with a graph and without: the same tokens or the
same exception, from the same generator, and twins again. -/
theorem generate_twin (hgqa : T.numKvHeads ∣ T.numHeads) (fused : Option (ℕ → X → List D)) (torch : Torch R)
    (src : Source R G) (h : Tally e) (hno : ∀ s, e.cache.manager.tables.lookup s = none)
    (hagree : Agrees T.numLayers (fun s => s / e.blockSize ∈ e.pins) e pool) (hg : graph.Captured) (g : G)
    (seqId : ℕ) (promptIds : List ℕ) (maxNewTokens : ℕ) (params : SamplingParams R) (eos : Option ℕ) :
    ∃ r e' g' pool' graph', e.generate H torch src (T.withFused fused).runner g seqId promptIds maxNewTokens
        params eos = (r, e', g') ∧
      generate H torch src T fused ⟨e.withPool pool, graph⟩ g seqId promptIds maxNewTokens params eos =
        (r.mapError .raised, ⟨e'.withPool pool', graph'⟩, g') ∧
      Tally e' ∧ (∀ s, e'.cache.manager.tables.lookup s = none) ∧
      Agrees T.numLayers (fun s => s / e'.blockSize ∈ e'.pins) e' pool' ∧ Later graph graph' := by
  have hbs := h.blockSize_pos
  obtain ⟨reuse, e₁, hadopt, htal₁, hcache₁, hpins₁, hrpins, hshort⟩ := adopt_tally H h promptIds
  have hrlen : reuse.length ≤ e.cache.manager.blocksNeeded promptIds.length :=
    BlockManager.length_le_blocksNeeded _ hbs hshort
  have hadopt' : (e.withPool pool).adopt H promptIds = (reuse, e₁.withPool pool) := by
    rw [adopt_withPool, hadopt]
  have hagree₁ : Agrees T.numLayers (fun s => s / e₁.blockSize ∈ e₁.pins) e₁ pool := by
    have hb : e₁.blockSize = e.blockSize := congrArg (·.manager.blockSize) hcache₁
    intro i hi s hs
    rw [hb, hpins₁] at hs
    rw [hcache₁]
    exact hagree i hi s hs
  unfold LLMEngine.generate generate
  simp only [hadopt, hadopt', show (e₁.withPool pool).cache.manager = e₁.cache.manager from rfl]
  rcases BlockManager.allocate_tallied htal₁.tallied htal₁.blockSize_pos seqId promptIds.length
      (fun b hb => Multiset.mem_add.2 (Or.inr (hpins₁.symm ▸ hrpins b hb)))
      (by rw [hcache₁]; exact hrlen) with
    ⟨hhas, -⟩ | ⟨-, -, msg, heq⟩ | ⟨-, new, m, heq, hext, -, htal⟩
  · exact absurd hhas (by rw [BlockManager.hasTable, hcache₁, hno]; simp)
  · refine ⟨.error (.OutOfBlocksError msg), e₁, g, pool, graph, ?_, ?_, htal₁, ?_, hagree₁, hg.refl⟩
    · rw [heq]
      rfl
    · rw [heq]
      rfl
    · rwa [hcache₁]
  have hc₂ : Counts e₁ (e₁.setManager m) seqId := htal₁.setManager htal hext.toTouches
  have hbs₂ : (e₁.setManager m).blockSize = e₁.blockSize := hext.blockSize
  have hshort₂ : reuse = [] ∨ reuse.length * (e₁.setManager m).blockSize < promptIds.length := by
    rw [hbs₂, show e₁.blockSize = e.blockSize from congrArg (·.manager.blockSize) hcache₁]
    exact hshort
  have hagree₂ : Agrees T.numLayers (fun s => s / (e₁.setManager m).blockSize ∈ (e₁.setManager m).pins)
      (e₁.setManager m) pool := by
    rw [hbs₂]
    exact hagree₁
  obtain ⟨r₃, e₃, g₃, pool₃, hpre, hpre', hc₃, ht₃, hagree₃⟩ := prefill_twin (T := T.withFused fused) torch
    src hc₂.tally (show (e₁.setManager m).cache.manager.tables.lookup seqId = _ from hext.table) hshort₂
    (fun b hb => hpins₁.symm ▸ hrpins b hb) hagree₂ params g
  -- `finally`, whatever the body did
  have hend : ∀ e₄, Counts e₃ e₄ seqId → ∃ m', e₄.cache.manager.free seqId = (.ok (), m') ∧
      m'.blockSize = e₄.blockSize ∧ Tally (e₄.setManager m') ∧ ∀ s, m'.tables.lookup s = none := by
    intro e₄ hc₄
    obtain ⟨m', hfr, htouch', -, hgone, htal'⟩ := BlockManager.free_tallied hc₄.tally.tallied seqId
    refine ⟨m', hfr, htouch'.blockSize, (hc₄.tally.setManager htal' htouch').tally, fun s => ?_⟩
    rcases eq_or_ne s seqId with rfl | hs
    · exact hgone
    · rw [htouch'.others s hs, ((hc₂.trans hc₃).trans hc₄).touches.others s hs, hcache₁]
      exact hno s
  have hpre' : ((e₁.withPool pool).setManager m).prefill H torch src (T.withFused fused).runner g seqId
      promptIds reuse ⟨reuse ++ new, promptIds.length⟩ params = (r₃, e₃.withPool pool₃, g₃) := hpre'
  simp only [heq, LLMEngine.generateBody, generateBody, hpre, hpre']
  rcases r₃ with x | t
  · obtain ⟨m', hfr, hb, htal', hgone⟩ := hend e₃ ⟨hc₃.tally, .refl _ _⟩
    refine ⟨.error x, e₃.setManager m', g₃, pool₃, graph, by simp only [hfr], ?_, htal', hgone, ?_, hg.refl⟩
    · simp only [show (e₃.withPool pool₃).cache.manager = e₃.cache.manager from rfl, hfr]
      rfl
    · rw [show (e₃.setManager m').blockSize = e₃.blockSize from hb]
      exact fun i hi s hs => hagree₃ i hi s (Or.inl hs)
  obtain ⟨r₄, e₄, g₄, pool₄, graph₄, hdec, hdec', hc₄, hcache₄, hagree₄, hlater⟩ := decode_twin hgqa fused
    torch src reuse params eos (maxNewTokens - 1) t hc₃.tally ht₃ hagree₃ hg g₃
  obtain ⟨m', hfr, hb, htal', hgone⟩ := hend e₄ hc₄
  have hpins₄ : e₄.pins = e₃.pins := by unfold pins; rw [hcache₄]
  have hbs₄ : e₄.blockSize = e₃.blockSize := hc₄.touches.blockSize
  refine ⟨r₄.map (List.cons t), e₄.setManager m', g₄, pool₄, graph₄, ?_, ?_, htal', hgone, ?_, hlater⟩
  · simp only [hdec]
    cases r₄ <;> simp only [Except.map, hfr]
  · simp only [hdec']
    cases r₄ <;>
    · simp only [Except.mapError, show (e₄.withPool pool₄).cache.manager = e₄.cache.manager from rfl, hfr]
      rfl
  · rw [show (e₄.setManager m').blockSize = e₄.blockSize from hb, hbs₄,
      show (e₄.setManager m').pins = e₄.pins from rfl, hpins₄]
    exact hagree₄

end GraphEngine

end DiSpec
