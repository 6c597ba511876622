/-
# Continuous batching is transparent

A finished greedy request has the greedy decoding of its own prompt as its output
(`greedy_of_finished`), and so has `LLMEngine.generate` (`generate_spec`).  So the output
of a request is what it would be alone, whichever requests share its batches, whatever
the priorities, the chunks, the token budget and the blocks.
-/

import DiSpec.Engine.Transparency
import DiSpec.Sched.Sampled

namespace DiSpec

open ContinuousBatchingEngine

variable {κ X D R G G' : Type} [Zero D] [Add X] [Field R] [LinearOrder R]

variable [DecidableEq κ]

/-- **Continuous batching is transparent for greedy decoding.**  After any run of submissions
and steps that raised nothing, with greedy parameters throughout, take a finished request
without supplied KV.  A new single-sequence engine with a pool of the same size returns
its output when it is given the same prompt alone, and so does every engine, of any size
and whatever it served before, that returns at all. -/
theorem continuous_batching_transparent (torch : Torch R) (src : Source R G) (T : Transformer X D R)
    (H : RollingHash κ) {numBlocks blockSize : ℕ} (hbs : 1 ≤ blockSize) (maxBatchTokens : ℕ)
    (chunkSize : Option ℕ) (rng : G) (cs : List (Call D R))
    (hprompt : ∀ s ∈ submissions cs, s.promptIds ≠ [])
    (hgreedy : ∀ s ∈ submissions cs, s.params.greedy = true) {e : ContinuousBatchingEngine D R G}
    (hrun : calls torch src T.runner (init T numBlocks blockSize maxBatchTokens chunkSize rng) cs = .ok e)
    {r : ℕ} {s : Submission D R} (hs : (submissions cs)[r]? = some s) (hkv : s.prefixKv = none)
    (hfin : r ∈ e.finished) (src' : Source R G') (g : G') :
    let alone (p : LLMEngine κ D) (seqId : ℕ) :=
      (p.generate H torch src' T.runner g seqId s.promptIds s.maxNewTokens s.params s.eosId).1
    (∀ seqId, alone (.init T numBlocks blockSize false) seqId = .ok (e.req r).outputIds) ∧
      ∀ numBlocks' blockSize' p seqId out, 1 ≤ blockSize' →
        LLMEngine.Served H torch src' T.runner (.init T numBlocks' blockSize' false) p →
          alone p seqId = .ok out → out = (e.req r).outputIds := by
  intro alone
  have hmem := List.mem_of_getElem? hs
  obtain ⟨hafter, hout⟩ := greedySoFar_of_run hbs hprompt
    (greedyFor_of_agreeing hbs hprompt (agreeing_of_greedy hbs hprompt hgreedy) hs (hgreedy s hmem)) hrun
  have hsofar := hout s hs
  have hown := greedy_of_finished hafter hs hfin hsofar
  obtain ⟨-, -, hne⟩ := (hafter.invOf.each r).finished hfin
  rw [hkv] at hown
  have href : ((reference torch T s.params s.eosId s.maxNewTokens s.promptIds).run src' g).1 =
      (e.req r).outputIds := by
    rw [reference_greedy torch T (hgreedy s hmem), hown]
    rfl
  constructor
  · intro seqId
    have hnew : LLMEngine.Served H torch src' T.runner (.init T numBlocks blockSize false) _ := .start
    rcases hnew.generate_plain torch src' T H hbs (hprompt s hmem) href seqId with ⟨-, hshort⟩ | hok
    · have hfits := hsofar.fits hne
      have hbn : ∀ n, (LLMEngine.init T numBlocks blockSize false :
          LLMEngine κ D).cache.manager.blocksNeeded n = e.cache.manager.blocksNeeded n :=
        BlockManager.blocksNeeded_congr hafter.blockSize.symm
      rw [hbn] at hshort
      omega
    · exact hok
  · intro numBlocks' blockSize' p seqId out hbs' hp halone
    rcases hp.generate_plain torch src' T H hbs' (hprompt s hmem) href seqId with ⟨⟨msg, herr⟩, -⟩ | hok
    · cases halone.symm.trans herr
    · exact (Except.ok.inj (hok.symm.trans halone)).symm

/-- The hypotheses are satisfiable: a prompt cut into chunks of one token, and a request of
higher priority that overtakes it. -/
theorem continuous_batching_transparent_chunked :
    let torch : Torch ℚ := ⟨id, fun _ => []⟩
    let src : Source ℚ Unit := ⟨fun g => (0, g), fun _ g => (0, g)⟩
    let e₁ := (((init sumModel 4 2 8 (some 1) () : ContinuousBatchingEngine ℤ ℚ Unit).addRequest
      ⟨[0, 1], 2, .default, none, 0, none⟩).2.addRequest ⟨[2], 1, .default, none, 5, none⟩).2
    let e₂ := ((e₁.step torch src sumModel.runner).2.step torch src sumModel.runner).2
    let e := (e₂.step torch src sumModel.runner).2
    e.finished = [1, 0] ∧ ((.init sumModel 4 2 false : LLMEngine (List ℕ) ℤ).generate listHash torch src
      sumModel.runner () 7 [0, 1] 2 .default none).1 = .ok (e.req 0).outputIds :=
  ⟨by decide +kernel, (continuous_batching_transparent ⟨id, fun _ => []⟩
    ⟨fun g => (0, g), fun _ g => (0, g)⟩ sumModel listHash (by decide) 8 (some 1) ()
    [.addRequest ⟨[0, 1], 2, .default, none, 0, none⟩, .addRequest ⟨[2], 1, .default, none, 5, none⟩, .step,
      .step, .step] (by simp [submissions]) (by decide +kernel)
    ((calls_addRequest (r := 0) (by decide +kernel) _).trans
      ((calls_addRequest (r := 1) (by decide +kernel) _).trans ((calls_step (by decide +kernel) _).trans
        ((calls_step (by decide +kernel) _).trans (calls_step (by decide +kernel) _)))))
    (r := 0) rfl rfl (by decide +kernel) ⟨fun g => (0, g), fun _ g => (0, g)⟩ ()).1 7⟩

end DiSpec
