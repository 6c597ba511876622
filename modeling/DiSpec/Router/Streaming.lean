/-
# When the streamed text is the final text

`_push_delta` cuts the decoding of the output so far at the length of what was streamed.
With a byte-level tokenizer, as Qwen's is, an output that ends inside a character decodes
to U+FFFD there; once the character is complete it stands at the same place, so the length
says that nothing is new, and the client keeps U+FFFD.

The streamed text is the decoding of the final output iff no character other than U+FFFD
is split between two tokens (`streamed_text_iff`).
-/

import DiSpec.Lib.Utf8
import DiSpec.Router.Answers

namespace DiSpec
namespace InferenceServer

open ContinuousBatchingEngine LossyCode

/-- A byte-level tokenizer: the UTF-8 decoding of the concatenated bytes of the tokens, of which
the special ones, which are skipped, have none. -/
def byteLevel (inputIds : List Char → List ℕ) (eosTokenId : Option ℕ) (tokenBytes : ℕ → List UInt8) :
    Tokenizer :=
  ⟨inputIds, eosTokenId, fun ids => Utf8.utf8.decode (ids.flatMap tokenBytes)⟩

/-- A character other than U+FFFD has its bytes on both sides of a token boundary. -/
def SplitsCharacter (tokenBytes : ℕ → List UInt8) (ids : List ℕ) : Prop :=
  ∃ k u c x, c ≠ '\uFFFD' ∧ ids.flatMap tokenBytes = u ++ String.utf8EncodeChar c ++ x ∧
    u.length < ((ids.take k).flatMap tokenBytes).length ∧
    ((ids.take k).flatMap tokenBytes).length < u.length + c.utf8Size

/-- **The deltas of an output** put together its decodings by length. -/
theorem streamed_texts (tok : Tokenizer) (ids : List ℕ) :
    ∃ texts : List (List Char), (streamed tok ids).2 = texts.map .delta ∧
      texts.flatten = cut ((List.range ids.length).map fun k => tok.decode (ids.take (k + 1))) ∧
      (streamed tok ids).1.decoded.length = texts.flatten.length := by
  induction ids using List.reverseRecOn with
  | nil => exact ⟨[], rfl, rfl, rfl⟩
  | append_singleton ids t ih =>
    obtain ⟨texts, hevents, hcut, hlen⟩ := ih
    have hmap : (List.range (ids ++ [t]).length).map (fun k => tok.decode ((ids ++ [t]).take (k + 1))) =
        (List.range ids.length).map (fun k => tok.decode (ids.take (k + 1))) ++
          [tok.decode (ids ++ [t])] := by
      rw [List.length_append, List.length_singleton, List.range_succ, List.map_append, List.map_singleton,
        List.take_of_length_le (by simp)]
      refine congrArg (· ++ _) (List.map_congr_left fun k hk => ?_)
      rw [List.take_append_of_le_length (List.mem_range.1 hk)]
    rw [streamed_concat, hmap, cut_concat, ← hcut, hevents, pushDelta, hlen]
    by_cases h : texts.flatten.length < (tok.decode (ids ++ [t])).length
    · rw [if_pos h]
      refine ⟨texts ++ [(tok.decode (ids ++ [t])).drop texts.flatten.length], ?_, ?_, ?_⟩
      · rw [List.map_append]
        rfl
      · rw [List.flatten_append, List.flatten_singleton]
      · rw [List.flatten_append, List.flatten_singleton, List.length_append, List.length_drop]
        show (tok.decode (ids ++ [t])).length = _
        omega
    · rw [if_neg h]
      refine ⟨texts, List.append_nil _, ?_, hlen⟩
      rw [List.drop_of_length_le (not_lt.1 h), List.append_nil]

/-- The deltas of an output of a byte-level tokenizer. -/
theorem streamed_byteLevel (inputIds : List Char → List ℕ) (eosTokenId : Option ℕ)
    (tokenBytes : ℕ → List UInt8) (ids : List ℕ) :
    ∃ texts : List (List Char),
      (streamed (byteLevel inputIds eosTokenId tokenBytes) ids).2 = texts.map .delta ∧
      (texts.flatten = (byteLevel inputIds eosTokenId tokenBytes).decode ids ↔
        ¬ SplitsCharacter tokenBytes ids) := by
  obtain ⟨texts, hevents, hcut, -⟩ := streamed_texts (byteLevel inputIds eosTokenId tokenBytes) ids
  refine ⟨texts, hevents, ?_⟩
  have htake : ∀ k, ((ids.map tokenBytes).take k).flatten = (ids.take k).flatMap tokenBytes := fun k => by
    rw [List.flatMap, List.map_take]
  have htexts : (List.range ids.length).map (fun k =>
      (byteLevel inputIds eosTokenId tokenBytes).decode (ids.take (k + 1))) =
      Utf8.utf8.texts (ids.map tokenBytes) := by
    rw [LossyCode.texts, List.length_map]
    exact List.map_congr_left fun k _ => congrArg Utf8.utf8.decode (htake (k + 1)).symm
  rw [hcut, htexts]
  refine (cut_texts_iff (ids.map tokenBytes)).trans ?_
  rw [SplitsCharacter, not_exists]
  refine forall_congr' fun k => not_congr ?_
  rw [Splits, ← List.flatten_append, List.take_append_drop, htake]
  simp only [← String.length_utf8EncodeChar]
  rfl

end InferenceServer

open InferenceServer

/-- **Streamed text equals the final text iff no character is split between two tokens.**  In every
run without a raising action, the queue of a streaming request that finished holds deltas and then the
sentinel, and the deltas concatenate to what the non-streaming endpoint returns for the same tokens
iff no character of the output other than U+FFFD has its bytes on both sides of a token boundary. -/
theorem streamed_text_iff {X D R G : Type} [Zero D] [Field R] [LinearOrder R] (torch : Torch R)
    (src : Source R G) (runner : ModelRunner X D R) (T : Transformer X D R)
    (inputIds : List Char → List ℕ) (eosTokenId : Option ℕ) (tokenBytes : ℕ → List UInt8)
    (numBlocks blockSize maxBatchTokens : ℕ) (chunkSize : Option ℕ) (rng : G) (acts : List (Action R))
    {s : InferenceServer D R G}
    (h : run torch src runner (init T (byteLevel inputIds eosTokenId tokenBytes) numBlocks blockSize
      maxBatchTokens chunkSize rng) acts = .ok s) {r : ℕ} {a : Ask R} (hr : (asks acts)[r]? = some (true, a))
    (hdone : r ∈ finishes torch src runner (init T (byteLevel inputIds eosTokenId tokenBytes) numBlocks
      blockSize maxBatchTokens chunkSize rng) acts) :
    ∃ texts : List (List Char), s.sent r = texts.map .delta ++ [.sentinel] ∧
      (texts.flatten = (response s.tok (s.engine.req r).outputIds).1 ↔
        ¬ SplitsCharacter tokenBytes (s.engine.req r).outputIds) := by
  obtain ⟨hserving, -⟩ := (init_serving T (byteLevel inputIds eosTokenId tokenBytes) numBlocks blockSize
    maxBatchTokens chunkSize rng).run torch src runner acts h
  rw [List.nil_append, List.nil_append] at hserving
  obtain ⟨texts, hevents, hiff⟩ :=
    streamed_byteLevel inputIds eosTokenId tokenBytes (s.engine.req r).outputIds
  refine ⟨texts, ?_, ?_⟩
  · rw [hserving.sent r, hr, decide_eq_false fun hq => ((hserving.mem_queued r).1 hq).2 hdone, ← hevents]
    rfl
  · rw [response, hserving.tokenizer]
    exact hiff

/-- The hypotheses are satisfiable: two tokens, the first of which is a character of two bytes. -/
theorem streamed_text_iff_whole :
    let torch : Torch ℚ := ⟨id, fun _ => []⟩
    let src : Source ℚ Unit := ⟨fun g => (0, g), fun _ g => (0, g)⟩
    let tokenBytes : ℕ → List UInt8 := fun t => if t = 2 then [0xC3, 0xA9] else [0x41]
    let tok := byteLevel (fun text => text.map (·.toNat % 3)) none tokenBytes
    let acts : List (Action ℚ) := [.generateStream ⟨['A', 'B'], 2, 0, 0⟩, .iterate, .iterate]
    let s := acts.foldl (fun s a => (s.act torch src sumModel.runner a).2)
      (init sumModel tok 8 2 8 none () : InferenceServer ℤ ℚ Unit)
    s.sent 0 = [.delta ['é'], .delta ['A'], .sentinel] ∧
      ¬ SplitsCharacter tokenBytes (s.engine.req 0).outputIds := by
  intro torch src tokenBytes tok acts s
  have hrun : run torch src sumModel.runner (init sumModel tok 8 2 8 none ()) acts = .ok s :=
    (run_cons (by decide +kernel) _).trans ((run_cons (by decide +kernel) _).trans
      (run_cons (by decide +kernel) _))
  have hsent : s.sent 0 = [['é'], ['A']].map .delta ++ [.sentinel] := by decide +kernel
  obtain ⟨texts, htexts, hiff⟩ := streamed_text_iff torch src sumModel.runner sumModel _ none tokenBytes 8 2 8
    none () acts hrun (r := 0) (a := ⟨['A', 'B'], 2, 0, 0⟩) rfl (by decide +kernel)
  have hinj : Function.Injective Event.delta := fun _ _ h => Event.delta.inj h
  have heq : texts = [['é'], ['A']] := hinj.list_map (List.append_cancel_right (htexts.symm.trans hsent))
  have htext : texts.flatten = (response s.tok (s.engine.req 0).outputIds).1 := by
    rw [heq]
    decide +kernel
  exact ⟨hsent, hiff.1 htext⟩

/-- **The streamed text is not always the final text**: two tokens that hold one byte each of a
character stream U+FFFD, and nothing after it. -/
theorem streamed_replacement :
    let torch : Torch ℚ := ⟨id, fun _ => []⟩
    let src : Source ℚ Unit := ⟨fun g => (0, g), fun _ g => (0, g)⟩
    let tok := byteLevel (fun text => text.map (·.toNat % 3)) none fun t => if t = 2 then [0xC3] else [0xA9]
    let s := [Action.generateStream ⟨['A', 'B'], 2, 0, 0⟩, .iterate, .iterate].foldl
      (fun s a => (s.act torch src sumModel.runner a).2)
      (init sumModel tok 8 2 8 none () : InferenceServer ℤ ℚ Unit)
    s.sent 0 = [.delta ['\uFFFD'], .sentinel] ∧ (response s.tok (s.engine.req 0).outputIds).1 = ['é'] := by
  decide +kernel

end DiSpec
