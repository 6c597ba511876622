/-
# Handing a prompt to a larger model

`dispec/workers/escalation.py`: `map_prefix`, `prefill_and_map`, `escalate`.

The source model prefills a prompt, the KV of all tokens but the last is exported and mapped, the
source sequence is freed, and the target engine admits the request with the mapped KV.  The forward
stands before the `try`, the map inside it.

The pool keeps the KV of a token as head vectors, the map works on entries: `KVTensor.toTensor` and
`KVTensor.ofTensor` are the same tensor read in the two ways (`rows_ofTensor_toTensor`).  The model's rotary
module and the map are parameters of the helpers.
-/

import DiSpec.KV.TransferAffine
import DiSpec.KV.Rollback
import DiSpec.Sched.Supplied
import DiSpec.Workers.Disaggregated

namespace DiSpec

open Tensor ContinuousBatchingEngine

/-! ### One tensor, read in two ways -/

section Layout

variable {S : Type} [Zero S] {d : ℕ}

/-- The entries of a tensor of KV. -/
def KVTensor.toTensor (k : KVTensor (Fin d → S)) : Tensor S :=
  .build [k.layers, k.tokens, k.heads, k.headDim] fun
    | [i, p, h, l] => if hl : l < d then (k.rows i p).getD h 0 ⟨l, hl⟩ else 0
    | _ => 0

/-- The head vectors of a tensor of KV. -/
def KVTensor.ofTensor (t : Tensor S) : KVTensor (Fin d → S) :=
  match t.shape with
  | [layers, tokens, heads, headDim] => ⟨layers, tokens, heads, headDim, fun i p =>
      (List.range heads).map fun h l => t.at [i, p, h, l]⟩
  | _ => ⟨0, 0, 0, 0, fun _ _ => []⟩

theorem KVTensor.shape_ofTensor {t : Tensor S} {a b h e : ℕ} (ht : t.shape = [a, b, h, e]) :
    let k : KVTensor (Fin d → S) := ofTensor t
    (k.layers, k.tokens, k.heads, k.headDim) = (a, b, h, e) := by
  rw [ofTensor, ht]

/-- **Reading the entries and the head vectors again** gives back the rows. -/
theorem KVTensor.rows_ofTensor_toTensor (k : KVTensor (Fin d → S)) (hd : k.headDim = d) {i p : ℕ}
    (hi : i < k.layers) (hp : p < k.tokens) (hlen : (k.rows i p).length = k.heads) :
    (ofTensor k.toTensor : KVTensor (Fin d → S)).rows i p = k.rows i p := by
  have hrow : (ofTensor k.toTensor : KVTensor (Fin d → S)).rows i p =
      (List.range k.heads).map fun h (l : Fin d) => k.toTensor.at [i, p, h, l] := rfl
  rw [hrow]
  refine List.ext_getElem (by simp [hlen]) fun h h₁ h₂ => ?_
  rw [List.getElem_map, List.getElem_range]
  funext l
  have hl : (l : ℕ) < k.headDim := hd.symm ▸ l.isLt
  rw [toTensor, at_build _ (within₄ hi hp (hlen ▸ h₂) hl)]
  simp only [dif_pos l.isLt, List.getD_eq_getElem _ _ h₂]

end Layout

/-! ### The helpers -/

/-- What the helpers raise: an error of the pool or the engine, or one of the map. -/
inductive EscalationExc
  | cache (e : Exc)
  | transfer (e : TransferExc)
  deriving DecidableEq

section Definitions

variable {S X R G : Type} [Zero S] {d : ℕ}

/-- `kv_map.map`: source KV, the tables of the two models and `use_residual`, to target KV. -/
abbrev MapKV (S : Type) :=
  Tensor S → Tensor S → RopeTables S → RopeTables S → Bool → Except TransferExc (Tensor S × Tensor S)

/-- `map_prefix`: the KV of the first `nTokens - 1` tokens, mapped. -/
def mapPrefix (sourceRotary targetRotary : List ℕ → RopeTables S) (mapKV : MapKV S)
    (c : PagedKVCache (Fin d → S)) (blockIds : List ℕ) (nTokens : ℕ) (useResidual : Bool) :
    Except EscalationExc (KVTensor (Fin d → S) × KVTensor (Fin d → S)) :=
  -- `torch.arange(-1)` raises
  if nTokens = 0 then .error (.transfer .RuntimeError)
  else
    let n := nTokens - 1
    match c.exportContiguous blockIds n with
    | .error x => .error (.cache x)
    | .ok (k, v) =>
      let positions := List.range n
      match mapKV k.toTensor v.toTensor (sourceRotary positions) (targetRotary positions) useResidual with
      | .error x => .error (.transfer x)
      | .ok (k, v) => .ok (.ofTensor k, .ofTensor v)

/-- `prefill_and_map`: prefill a prompt on the source model and return its KV mapped. -/
def prefillAndMap (runner : ModelRunner X (Fin d → S) R) (sourceRotary targetRotary : List ℕ → RopeTables S)
    (mapKV : MapKV S) (c : PagedKVCache (Fin d → S)) (sid : ℕ) (promptIds : List ℕ) (useResidual : Bool) :
    Except EscalationExc (KVTensor (Fin d → S) × KVTensor (Fin d → S)) × PagedKVCache (Fin d → S) :=
  let n := promptIds.length
  match c.manager.allocate sid n [] with
  | (.error x, m) => (.error (.cache x), c.setManager m)
  | (.ok table, m) =>
    let c := c.setManager m
    match c.contextSlots table.blockIds n with
    | .error x => (.error (.cache x), c)
    | .ok slots =>
      let c := c.setManager (c.manager.setTable sid { table with numTokens := n })
      match runner.forwardList promptIds (List.range n) slots [⟨table.blockIds, n, n⟩] c with
      | (.error x, c) => (.error (.cache x), c)
      | (.ok _, c) =>
        let mapped := mapPrefix sourceRotary targetRotary mapKV c table.blockIds n useResidual
        -- the `finally` clause
        match c.manager.free sid with
        | (.error x, m) => (.error (.cache x), c.setManager m)
        | (.ok (), m) => (mapped, c.setManager m)

/-- `escalate`: admit a request to the target engine with mapped KV. -/
def escalate {D : Type} (e : ContinuousBatchingEngine D R G) (promptIds : List ℕ)
    (mappedKv : KVTensor D × KVTensor D) (maxNewTokens : ℕ) (params : SamplingParams R)
    (eosId : Option ℕ) (priority : ℤ) : Except Exc ℕ × ContinuousBatchingEngine D R G :=
  e.addRequest ⟨promptIds, maxNewTokens, params, eosId, priority, some mappedKv⟩

end Definitions

section Runs

variable {S X R G : Type} [CommRing S] [Add X] [Field R] [LinearOrder R] {d : ℕ}
  {T : Transformer X (Fin d → S) R} {c : PagedKVCache (Fin d → S)} {sid : ℕ} {promptIds : List ℕ}

omit [Field R] [LinearOrder R] in
/-- **`prefill_and_map`** in a pool with room for the prompt gives the map the KV of all tokens but
the last, and gives its blocks back whether the map returns or raises. -/
theorem prefillAndMap_spec (h : Ready T c sid) (h0 : promptIds ≠ [])
    (hroom : c.manager.blocksNeeded promptIds.length ≤ c.manager.freeList.length)
    (sourceRotary targetRotary : List ℕ → RopeTables S) (mapKV : MapKV S) (useResidual : Bool) :
    ∃ (k v : KVTensor (Fin d → S)) (c' : PagedKVCache (Fin d → S)),
      prefillAndMap T.runner sourceRotary targetRotary mapKV c sid promptIds useResidual =
        ((match mapKV k.toTensor v.toTensor (sourceRotary (List.range (promptIds.length - 1)))
            (targetRotary (List.range (promptIds.length - 1))) useResidual with
          | .error x => .error (.transfer x)
          | .ok (k, v) => .ok (.ofTensor k, .ofTensor v)), c') ∧
      (k.layers, k.tokens, k.heads, k.headDim) =
        (c.numLayers, promptIds.length - 1, c.numKvHeads, c.headDim) ∧
      (v.layers, v.tokens, v.heads, v.headDim) =
        (c.numLayers, promptIds.length - 1, c.numKvHeads, c.headDim) ∧
      (∀ i < T.numLayers, ∀ p < promptIds.length - 1,
        (⟨k.rows i p, v.rows i p⟩ : KV (Fin d → S)) = T.kvAt noBase (str promptIds) i p) ∧
      c.manager.SameButOrder c'.manager := by
  obtain ⟨pins, hacc⟩ := h.accounted
  have hbs := h.blockSize_pos
  have hpos : 0 < promptIds.length := List.length_pos_iff.2 h0
  obtain ⟨ids, m, heq, hunder⟩ : ∃ ids m, c.manager.allocate sid promptIds.length [] =
      (.ok ⟨ids, promptIds.length⟩, m) ∧
      Underway c (c.setManager m) sid pins ⟨ids, promptIds.length⟩ := by
    rcases allocate_underway hacc hbs h.fresh promptIds.length with ⟨msg, herr⟩ | ⟨ids, m, heq, hunder, -⟩
    · rcases BlockManager.allocate_spec hacc hbs sid promptIds.length List.nodup_nil
          (fun b hb => absurd hb List.not_mem_nil) (Nat.zero_le _) with ⟨hhas, -⟩ | ⟨-, hfew, -⟩ |
          ⟨-, new, m, hok, -⟩
      · rw [BlockManager.hasTable, h.fresh] at hhas
        cases hhas
      · rw [List.length_nil, Nat.sub_zero] at hfew
        omega
      · rw [hok] at herr
        cases herr
    · exact ⟨ids, m, heq, hunder⟩
  have hmbs : m.blockSize = c.blockSize := hunder.touches.blockSize
  have hbs₁ : 0 < (c.setManager m).blockSize := hbs.trans_eq hmbs.symm
  obtain ⟨pool, slots, hslots, hrun, hholds, hunder₃⟩ := prefill_underway T hbs promptIds hunder
  have hrun : T.runner.forwardList promptIds _ _ _ _ = _ := (T.runner.forwardList_eq h0 ..).trans hrun
  set m₂ := m.setTable sid ⟨ids, promptIds.length⟩ with hm₂
  have hcap : promptIds.length ≤ ids.length * (c.setManager m).blockSize :=
    hunder.accounted.capacity sid _ hunder.table
  obtain ⟨k, v, hexp, -, hrows⟩ := ({ c.setManager m₂ with pool } :
    PagedKVCache (Fin d → S)).exportContiguous_spec hbs₁ (n := promptIds.length - 1)
      (hunder.accounted.block_lt hunder.table) (le_trans (Nat.sub_le _ _) hcap)
  obtain ⟨hk, hv⟩ := PagedKVCache.exportContiguous_shape hexp
  obtain ⟨m', hfree, hsame⟩ :=
    BlockManager.free_sameButOrder hacc hunder₃.accounted h.fresh hunder₃.touches
  refine ⟨k, v, ({ c.setManager m₂ with pool } : PagedKVCache (Fin d → S)).setManager m', ?_, hk, hv,
    fun i hi p hp => ?_, hsame⟩
  · simp only [prefillAndMap, heq, hslots]
    rw [show (c.setManager m).setManager ((c.setManager m).manager.setTable sid
      ⟨ids, promptIds.length⟩) = c.setManager m₂ from rfl]
    simp only [hrun, hfree, mapPrefix, if_neg hpos.ne', hexp]
  · exact (hrows i p hp).trans (hholds i hi p (by omega))

/-! ### Escalating a prompt -/

/-- The source pool, the target engine and the rotary modules are those of the models of the map. -/
structure Pairing (kvMap : CrossModelKVMap S) (src tgt : ModelConfig) (c : PagedKVCache (Fin d → S))
    (e : ContinuousBatchingEngine (Fin d → S) R G) (sourceRotary targetRotary : List ℕ → RopeTables S) :
    Prop where
  headDim : kvMap.headDim = d
  source : (c.numLayers, c.numKvHeads, c.headDim) = (src.numHiddenLayers, src.numKeyValueHeads, d)
  target : (e.cache.numLayers, e.cache.numKvHeads, e.cache.headDim) =
    (tgt.numHiddenLayers, tgt.numKeyValueHeads, d)
  sourceTables : ∀ ps, (sourceRotary ps).cos.shape = [ps.length, d] ∧
    (sourceRotary ps).sin.shape = [ps.length, d]
  targetTables : ∀ ps, (targetRotary ps).cos.shape = [ps.length, d] ∧
    (targetRotary ps).sin.shape = [ps.length, d]

/-- An identity map between equal models: one configuration, one rotary module, whose tables are
rotations, and projections that give as many heads as the model has. -/
structure IdentityPair (T : Transformer X (Fin d → S) R) (kvMap : CrossModelKVMap S) (src tgt : ModelConfig)
    (sourceRotary targetRotary : List ℕ → RopeTables S) (useResidual : Bool) : Prop where
  configs : src = tgt
  rotary : sourceRotary = targetRotary
  rotation : ∀ ps, (sourceRotary ps).Rotation ps.length d
  even : Even d
  identity : kvMap.Identity
  matrices : ∀ m ∈ kvMap.keys ++ kvMap.values,
    CrossModelKVMap.HasMatrix (kvMap.numKvHeads * kvMap.headDim) m
  plain : ∀ m ∈ kvMap.keys ++ kvMap.values, useResidual = false ∨ m.residual = none
  projections : ∀ layer x, (T.kProj layer x).length = T.numKvHeads ∧
    (T.vProj layer x).length = T.numKvHeads

/-- A request `s` with the KV `kv` has the output it has without it, in any two runs of engines of
the model whose steps sample a greedy request first when they sample for it. -/
def SameGreedyOutput (G : Type) {D : Type} [Zero D] (T : Transformer X D R) (s : Submission D R)
    (kv : KVTensor D × KVTensor D) : Prop :=
  ∀ (torch : Torch R) (src src' : Source R G) (numBlocks blockSize numBlocks' blockSize' maxBatchTokens
    maxBatchTokens' : ℕ) (chunkSize chunkSize' : Option ℕ) (rng rng' : G) (cs cs' : List (Call D R))
    (e e' : ContinuousBatchingEngine D R G) (r r' : ℕ),
    let e₀ := init T numBlocks blockSize maxBatchTokens chunkSize rng
    let e₀' := init T numBlocks' blockSize' maxBatchTokens' chunkSize' rng'
    1 ≤ blockSize → 1 ≤ blockSize' →
    (∀ s ∈ submissions cs, s.promptIds ≠ []) → (∀ s ∈ submissions cs', s.promptIds ≠ []) →
    BeforeSteps torch src T.runner e₀ cs (GreedyFor r) →
    BeforeSteps torch src' T.runner e₀' cs' (GreedyFor r') →
    calls torch src T.runner e₀ cs = .ok e → calls torch src' T.runner e₀' cs' = .ok e' →
    (submissions cs)[r]? = some { s with prefixKv := some kv } →
    (submissions cs')[r']? = some { s with prefixKv := none } →
    r ∈ e.finished → r' ∈ e'.finished → (e'.req r').outputIds = (e.req r).outputIds

/-- **Escalating succeeds**: `prefill_and_map` returns KV of all tokens but the last and gives its
blocks back, `escalate` admits the request with it, and an identity map between equal models does
not change the greedy output. -/
def Escalates (gelu : S → S) (T : Transformer X (Fin d → S) R) (kvMap : CrossModelKVMap S)
    (src tgt : ModelConfig) (sourceRotary targetRotary : List ℕ → RopeTables S)
    (c : PagedKVCache (Fin d → S)) (sid : ℕ) (e : ContinuousBatchingEngine (Fin d → S) R G)
    (promptIds : List ℕ) (useResidual : Bool) (maxNewTokens : ℕ) (params : SamplingParams R)
    (eosId : Option ℕ) (priority : ℤ) : Prop :=
  ∃ (k v : KVTensor (Fin d → S)) (c' : PagedKVCache (Fin d → S)),
    prefillAndMap T.runner sourceRotary targetRotary (kvMap.map gelu) c sid promptIds useResidual =
      (.ok (k, v), c') ∧
    k.tokens = promptIds.length - 1 ∧ v.tokens = promptIds.length - 1 ∧
    c.manager.SameButOrder c'.manager ∧
    (escalate e promptIds (k, v) maxNewTokens params eosId priority).1 = .ok e.nextId ∧
    (IdentityPair T kvMap src tgt sourceRotary targetRotary useResidual →
      SameGreedyOutput G T ⟨promptIds, maxNewTokens, params, eosId, priority, none⟩ (k, v))

omit [Field R] [LinearOrder R] in
/-- **What `add_request` accepts** of mapped KV. -/
theorem escalate_ok {D : Type} {e : ContinuousBatchingEngine D R G} {k v : KVTensor D} (maxNewTokens : ℕ)
    (params : SamplingParams R) (eosId : Option ℕ) (priority : ℤ) :
    (escalate e promptIds (k, v) maxNewTokens params eosId priority).1 = .ok e.nextId ↔
      ((k.layers, k.heads, k.headDim) = (e.cache.numLayers, e.cache.numKvHeads, e.cache.headDim) ∧
        (v.layers, v.tokens, v.heads, v.headDim) =
          (e.cache.numLayers, k.tokens, e.cache.numKvHeads, e.cache.headDim)) ∧
      0 < k.tokens ∧ k.tokens < promptIds.length := by
  unfold escalate addRequest
  simp only [checkPrefixKv]
  by_cases hshape : (k.layers, k.heads, k.headDim) =
        (e.cache.numLayers, e.cache.numKvHeads, e.cache.headDim) ∧
      (v.layers, v.tokens, v.heads, v.headDim) =
        (e.cache.numLayers, k.tokens, e.cache.numKvHeads, e.cache.headDim)
  · rw [if_neg (not_not.2 hshape)]
    by_cases hcover : 0 < k.tokens ∧ k.tokens < promptIds.length
    · rw [if_neg (not_not.2 hcover)]
      exact ⟨fun _ => ⟨hshape, hcover⟩, fun _ => rfl⟩
    · rw [if_pos hcover]
      exact ⟨by rintro ⟨⟩, fun h => absurd h.2 hcover⟩
  · rw [if_pos hshape]
    exact ⟨by rintro ⟨⟩, fun h => absurd h.1 hshape⟩

omit [Field R] [LinearOrder R] in
/-- The KV of a position has a head for each that the projections give. -/
theorem length_kvAt (hheads : ∀ layer x, (T.kProj layer x).length = T.numKvHeads ∧
    (T.vProj layer x).length = T.numKvHeads) (tok : ℕ → ℕ) (i p : ℕ) :
    (T.kvAt noBase tok i p).key.length = T.numKvHeads ∧
      (T.kvAt noBase tok i p).value.length = T.numKvHeads := by
  obtain ⟨hkey, hvalue⟩ := hheads i (T.inputLayernorm i (T.hiddenAt noBase tok i p))
  refine ⟨?_, hvalue⟩
  show (T.keyValue i p _).key.length = _
  rw [Transformer.keyValue, ← hkey]
  split <;> simp

omit [Field R] [LinearOrder R] in
/-- Head vectors with as many heads as the model has are read back as they are. -/
theorem ownKV_ofTensor {k v : KVTensor (Fin d → S)} {n : ℕ} (hd : k.headDim = d) (hvd : v.headDim = d)
    (hk : k.layers = T.numLayers ∧ k.tokens = n ∧ k.heads = T.numKvHeads)
    (hv : v.layers = T.numLayers ∧ v.tokens = n ∧ v.heads = T.numKvHeads)
    (hheads : ∀ layer x, (T.kProj layer x).length = T.numKvHeads ∧ (T.vProj layer x).length = T.numKvHeads)
    (hrows : ∀ i < T.numLayers, ∀ p < n,
      (⟨k.rows i p, v.rows i p⟩ : KV (Fin d → S)) = T.kvAt noBase (str promptIds) i p) :
    OwnKV T promptIds (.ofTensor k.toTensor) (.ofTensor v.toTensor) := by
  intro i hi p hp
  have hp : p < n := by
    have htokens : (KVTensor.ofTensor k.toTensor : KVTensor (Fin d → S)).tokens = k.tokens := rfl
    omega
  have hkrow : k.rows i p = (T.kvAt noBase (str promptIds) i p).key := congrArg KV.key (hrows i hi p hp)
  have hvrow : v.rows i p = (T.kvAt noBase (str promptIds) i p).value :=
    congrArg KV.value (hrows i hi p hp)
  obtain ⟨hkey, hvalue⟩ := length_kvAt hheads (str promptIds) i p
  have hklen : (k.rows i p).length = k.heads := by rw [hkrow, hk.2.2, hkey]
  have hvlen : (v.rows i p).length = v.heads := by rw [hvrow, hv.2.2, hvalue]
  rw [k.rows_ofTensor_toTensor hd (by omega) (by omega) hklen,
    v.rows_ofTensor_toTensor hvd (by omega) (by omega) hvlen]
  exact hrows i hi p hp

/-- **Which prompts can be escalated**: with room in the source pool, those of two tokens or more,
if the design rows fit the layer maps.  A prompt of one token leaves no token to map.  The outputs are
compared in runs that sample greedily when they sample for the request: beside others they may differ. -/
theorem escalates_iff (gelu : S → S) {keys values : List (LayerMap S)} {src tgt : ModelConfig}
    {kvMap : CrossModelKVMap S} (hinit : CrossModelKVMap.init keys values src tgt = .ok kvMap)
    {sourceRotary targetRotary : List ℕ → RopeTables S} {e : ContinuousBatchingEngine (Fin d → S) R G}
    (hpair : Pairing kvMap src tgt c e sourceRotary targetRotary) (h : Ready T c sid) (h0 : promptIds ≠ [])
    (hroom : c.manager.blocksNeeded promptIds.length ≤ c.manager.freeList.length) (useResidual : Bool)
    (maxNewTokens : ℕ) (params : SamplingParams R) (eosId : Option ℕ) (priority : ℤ) :
    Escalates gelu T kvMap src tgt sourceRotary targetRotary c sid e promptIds useResidual maxNewTokens
        params eosId priority ↔
      2 ≤ promptIds.length ∧ kvMap.Halves src tgt ∧ kvMap.AllFit (promptIds.length - 1) useResidual := by
  obtain ⟨-, -, hacc⟩ := CrossModelKVMap.init_ok hinit
  obtain ⟨k, v, c', hrun, hk, hv, hrows, hsame⟩ :=
    prefillAndMap_spec h h0 hroom sourceRotary targetRotary (kvMap.map gelu) useResidual
  set n := promptIds.length - 1 with hn
  simp only [Prod.mk.injEq] at hk hv
  have hsource := hpair.source
  have htarget := hpair.target
  simp only [Prod.mk.injEq] at hsource htarget
  have hdim := hpair.headDim
  have hlen : (List.range n).length = n := List.length_range
  have hkv : kvMap.SourceKV src n k.toTensor v.toTensor (sourceRotary (List.range n))
      (targetRotary (List.range n)) := by
    have hs := hpair.sourceTables (List.range n)
    have ht := hpair.targetTables (List.range n)
    rw [hlen, ← hdim] at hs ht
    refine ⟨?_, ?_, hs, ht⟩
    · rw [KVTensor.toTensor, shape_build, hk.1, hk.2.1, hk.2.2.1, hk.2.2.2, hsource.1, hsource.2.1,
        hsource.2.2, hdim]
    · rw [KVTensor.toTensor, shape_build, hv.1, hv.2.1, hv.2.2.1, hv.2.2.2, hsource.1, hsource.2.1,
        hsource.2.2, hdim]
  constructor
  · rintro ⟨k', v', c'', hrun', htokens, -, -, hadmit, -⟩
    have hpos := ((escalate_ok maxNewTokens params eosId priority).1 hadmit).2.1
    refine ⟨by omega, ?_⟩
    cases hmap : kvMap.map gelu k.toTensor v.toTensor (sourceRotary (List.range n))
        (targetRotary (List.range n)) useResidual with
    | error x =>
      rw [hrun, hmap] at hrun'
      cases hrun'
    | ok kv => exact CrossModelKVMap.fits_of_map gelu hacc (by omega) hkv hmap
  · rintro ⟨htwo, hhalves, hfit⟩
    obtain ⟨K, V, hmap, hK, hV⟩ := CrossModelKVMap.map_returns gelu hacc hhalves (by omega) hfit hkv
    have hKshape := KVTensor.shape_ofTensor (d := d) hK
    have hVshape := KVTensor.shape_ofTensor (d := d) hV
    simp only [Prod.mk.injEq] at hKshape hVshape
    refine ⟨.ofTensor K, .ofTensor V, c', by rw [hrun, hmap], hKshape.2.1, hVshape.2.1, hsame, ?_, ?_⟩
    · have hheads := hacc.targetHeads
      refine (escalate_ok maxNewTokens params eosId priority).2 ⟨⟨?_, ?_⟩, ?_, ?_⟩
      · rw [hKshape.1, hKshape.2.2.1, hKshape.2.2.2, htarget.1, htarget.2.1, htarget.2.2, hheads, hdim]
      · rw [hVshape.1, hVshape.2.1, hVshape.2.2.1, hVshape.2.2.2, hKshape.2.1, htarget.1, htarget.2.1,
          htarget.2.2, hheads, hdim]
      · omega
      · omega
    · intro hid
      -- the map returned what it was given, which is the model's own KV
      have hrot := hid.rotation (List.range n)
      rw [hlen, ← hdim] at hrot
      have hsrc : kvMap.SourceKV src n k.toTensor v.toTensor (sourceRotary (List.range n))
          (sourceRotary (List.range n)) := by
        rw [← hid.rotary] at hkv
        exact hkv
      have hsame := CrossModelKVMap.map_identity gelu hacc (congrArg _ hid.configs) hid.matrices hid.identity
        hid.plain (hdim.symm ▸ hid.even) (Or.inl (by omega)) hsrc hrot
      rw [← hid.rotary, hsame] at hmap
      obtain ⟨rfl, rfl⟩ := Prod.mk.inj (Except.ok.inj hmap)
      have hown : OwnKV T promptIds (.ofTensor k.toTensor) (.ofTensor v.toTensor) := by
        obtain ⟨hlayers, hheads, -⟩ : c.numLayers = T.numLayers ∧ c.numKvHeads = T.numKvHeads ∧ _ := by
          simpa only [PagedKVCache.dims, Prod.mk.injEq] using h.dims
        exact ownKV_ofTensor (hk.2.2.2.trans hsource.2.2) (hv.2.2.2.trans hsource.2.2)
          ⟨hk.1.trans hlayers, hk.2.1, hk.2.2.1.trans hheads⟩
          ⟨hv.1.trans hlayers, hv.2.1, hv.2.2.1.trans hheads⟩ hid.projections hrows
      have hcover : (KVTensor.ofTensor k.toTensor : KVTensor (Fin d → S)).tokens < promptIds.length := by
        omega
      intro torch src₁ src₂ numBlocks blockSize numBlocks' blockSize' maxBatchTokens maxBatchTokens' chunkSize
        chunkSize' rng rng' cs cs' e₁ e₂ r r' e₀ e₀' hbs hbs' hprompt hprompt' hfirst hfirst' hcalls hcalls'
        hs hs' hfin hfin'
      exact output_supplied hbs hbs' rfl hown hcover hprompt hprompt' hfirst hfirst' hcalls hcalls' hs hs'
        hfin hfin'

end Runs

/-! ### A small pair of models -/

/-- A model with one layer, one KV head and head vectors of two entries. -/
def pairModel : Transformer ℤ (Fin 2 → ℤ) ℚ where
  numLayers := 1
  numHeads := 1
  numKvHeads := 1
  headDim := 2
  vocabSize := 3
  qkNorm := false
  embed t := t + 1
  inputLayernorm _ x := x
  qProj _ x := [fun i => x + i]
  kProj _ x := [fun i => x + i]
  vProj _ x := [fun i => x - i]
  qNorm _ q := q
  kNorm _ k := k
  rope p x i := x i + p
  attn q ctx i := q i + (ctx.map fun kv => kv.2 i).sum
  oProj _ heads := (heads.map fun h => h 0 + h 1).sum
  postAttentionLayernorm _ x := x
  mlp _ x := x
  norm x := x
  lmHead x := (List.range 3).map fun i => if x % 3 = i then 1 else 0

/-- Tables that turn every other position by a quarter. -/
def quarterTurns (ps : List ℕ) : RopeTables ℤ :=
  ⟨.build [ps.length, 2] fun idx => if ps.getD idx.headI 0 % 2 = 0 then 1 else 0,
    .build [ps.length, 2] fun idx => if ps.getD idx.headI 0 % 2 = 0 then 0 else 1⟩

/-- The configuration of `pairModel`. -/
def pairConfig : ModelConfig := ⟨1, 1, some 2, 2, 1, 3⟩

/-- The identity map of `pairModel`, to itself. -/
def pairMap : CrossModelKVMap ℤ :=
  let m : LayerMap ℤ := ⟨[0], ⟨[2], [0, 0], rfl⟩, some ⟨[2, 2], [1, 0, 0, 1], rfl⟩, none, none⟩
  ⟨[m], [m], 1, 2⟩

theorem quarterTurns_rotation (ps : List ℕ) : (quarterTurns ps).Rotation ps.length 2 where
  cos := rfl
  sin := rfl
  halves t ht l hl := by
    simp only [quarterTurns]
    rw [at_build _ (within₂ ht (by omega)), at_build _ (within₂ ht (by omega)),
      at_build _ (within₂ ht (by omega)), at_build _ (within₂ ht (by omega))]
    exact ⟨rfl, rfl⟩
  unit t ht l hl := by
    simp only [quarterTurns]
    rw [at_build _ (within₂ ht (by omega)), at_build _ (within₂ ht (by omega)), List.headI_cons]
    split <;> rfl

theorem mem_pairMap {m : LayerMap ℤ} (hm : m ∈ pairMap.keys ++ pairMap.values) :
    m = pairMap.keys[0] := by simpa [pairMap] using hm

/-- The model is paired with itself by an identity map. -/
theorem identityPair_pairModel :
    IdentityPair pairModel pairMap pairConfig pairConfig quarterTurns quarterTurns true where
  configs := rfl
  rotary := rfl
  rotation := quarterTurns_rotation
  even := ⟨1, rfl⟩
  identity layer m hm := by
    obtain ⟨hlt, rfl⟩ : ∃ h : layer < 1, m = pairMap.keys[0] := by
      rcases hm with hm | hm
      all_goals
        obtain ⟨hlt, rfl⟩ := List.getElem?_eq_some_iff.1 hm
        exact ⟨hlt, mem_pairMap (by simp)⟩
    obtain rfl : layer = 0 := by omega
    refine ⟨rfl, ?_, by decide⟩
    rintro w ⟨⟩
    decide
  matrices m hm := by
    rw [mem_pairMap hm]
    exact ⟨_, rfl, rfl⟩
  plain m hm := by
    rw [mem_pairMap hm]
    exact Or.inr rfl
  projections _ _ := ⟨rfl, rfl⟩

theorem ready_pairModel : Ready pairModel (pairModel.newCache 4 2) 0 :=
  ⟨by decide, ⟨0, ((Reachable.init (H := listHash)).accounted (by decide)).1⟩, by decide, rfl⟩

/-- The hypotheses are satisfiable: a prompt of three tokens, of which two fill a block and are
mapped by the identity. -/
theorem escalates_iff_block_boundary :
    Escalates id pairModel pairMap pairConfig pairConfig quarterTurns quarterTurns
        (pairModel.newCache 4 2) 0 (init pairModel 4 2 8 none () : ContinuousBatchingEngine _ ℚ Unit)
        [0, 1, 2] true 4 .default none 0 ∧
      IdentityPair pairModel pairMap pairConfig pairConfig quarterTurns quarterTurns true := by
  have hinit : CrossModelKVMap.init pairMap.keys pairMap.values pairConfig pairConfig = .ok pairMap := rfl
  have hpair : Pairing pairMap pairConfig pairConfig (pairModel.newCache 4 2)
      (init pairModel 4 2 8 none () : ContinuousBatchingEngine _ ℚ Unit) quarterTurns quarterTurns :=
    ⟨rfl, rfl, rfl, fun _ => ⟨rfl, rfl⟩, fun _ => ⟨rfl, rfl⟩⟩
  refine ⟨(escalates_iff id hinit hpair ready_pairModel (by decide) (by decide +kernel) true 4 .default none
    0).2 ⟨by decide, nofun, fun m hm => ?_⟩, identityPair_pairModel⟩
  rw [mem_pairMap hm]
  exact ⟨[2, 2], rfl, rfl⟩

/-- A prompt of one token cannot be escalated, even with an identity map between equal models and
room in the pool. -/
theorem one_token_not_escalated :
    ¬ Escalates id pairModel pairMap pairConfig pairConfig quarterTurns quarterTurns
      (pairModel.newCache 4 2) 0 (init pairModel 4 2 8 none () : ContinuousBatchingEngine _ ℚ Unit) [0]
      true 4 .default none 0 := by
  rintro ⟨k, v, c', hrun, -⟩
  have hraise : (prefillAndMap pairModel.runner quarterTurns quarterTurns (pairMap.map id)
      (pairModel.newCache 4 2) 0 [0] true).1.toBool = false := by decide +kernel
  rw [hrun] at hraise
  cases hraise

end DiSpec
