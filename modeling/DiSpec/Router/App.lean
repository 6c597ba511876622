/-
# The chat endpoint

`dispec/router/app.py`: `GenerateRequest`, `ChatCompletionRequest` and `chat_completions`, whose
streamed response is `event_stream`, one server-sent event for every delta, then the chunk with the
reason to stop and `[DONE]`.

The chat template is a parameter, and so are the id and the time of a response.  The web framework,
which checks the body of a request and sends what a response yields, is left out.

`ChatClient` reads such a body as a client of that interface does.  At any time what it has read are
the first deltas of the queue, and it sees the reason to stop once the request has finished and all
of them have arrived (`chat_stream_read`).
-/

import Mathlib.Data.List.ReduceOption
import DiSpec.Lib.Json
import DiSpec.Lib.Sse
import DiSpec.Router.Streaming

namespace DiSpec

/-- `GenerateRequest`. -/
structure GenerateRequest (R : Type) [Zero R] where
  prompt : List Char
  maxNewTokens : ℕ := 128
  temperature : R := 0
  priority : ℤ := 0

/-- `ChatMessage`. -/
structure ChatMessage where
  role : List Char
  content : List Char

/-- `ChatCompletionRequest`. -/
structure ChatCompletionRequest (R : Type) [Zero R] where
  messages : List ChatMessage
  model : List Char := "dispec".toList
  maxTokens : ℕ := 128
  temperature : R := 0
  stream : Bool := false

/-- What the objects of one response share: `cid`, `created` and the model asked for. -/
structure ResponseHead where
  cid : List Char
  created : ℤ
  model : List Char

/-- A request that reaches the server. -/
inductive Post (R : Type) [Zero R]
  | generate (req : GenerateRequest R)
  | chatCompletions (req : ChatCompletionRequest R)

namespace Post

variable {R : Type} [Field R] (applyChatTemplate : List ChatMessage → List Char)

/-- Whether it streams, and the arguments of `server.generate` or `server.generate_stream`. -/
def ask : Post R → Bool × Ask R
  | generate req => (false, ⟨req.prompt, req.maxNewTokens, req.temperature, req.priority⟩)
  | chatCompletions req =>
    (req.stream, ⟨applyChatTemplate req.messages, req.maxTokens, req.temperature, 0⟩)

/-- What happens at the server: a request, or a round of its loop. -/
def action : Option (Post R) → InferenceServer.Action R
  | none => .iterate
  | some p =>
    if (p.ask applyChatTemplate).1 then .generateStream (p.ask applyChatTemplate).2
    else .generate (p.ask applyChatTemplate).2

/-- The submissions are the requests in their order. -/
theorem asks_action (posts : List (Option (Post R))) :
    InferenceServer.asks (posts.map (action applyChatTemplate)) =
      posts.reduceOption.map (ask applyChatTemplate) := by
  induction posts with
  | nil => rfl
  | cons p posts ih =>
    rw [List.map_cons, InferenceServer.asks_cons, ih]
    rcases p with _ | p
    · rw [List.reduceOption_cons_of_none]
      rfl
    · rw [List.reduceOption_cons_of_some, List.map_cons, action]
      split_ifs with h
      · exact congrArg (· :: _) (Prod.ext h.symm rfl)
      · exact congrArg (· :: _) (Prod.ext (Bool.eq_false_iff.2 h).symm rfl)

end Post

namespace ResponseHead

/-- A chunk with its only choice. -/
def chunk (h : ResponseHead) (delta : List (List Char × Json)) (finishReason : Json) : Json :=
  .obj [("id".toList, .str h.cid), ("object".toList, .str "chat.completion.chunk".toList),
    ("created".toList, .int h.created), ("model".toList, .str h.model),
    ("choices".toList, .arr [.obj [("index".toList, .int 0), ("delta".toList, .obj delta),
      ("finish_reason".toList, finishReason)]])]

/-- `chunk` in `event_stream`. -/
def deltaChunk (h : ResponseHead) (delta : List Char) : Json :=
  h.chunk [("content".toList, .str delta)] .null

/-- `done` in `event_stream`. -/
def doneChunk (h : ResponseHead) : Json := h.chunk [] (.str "stop".toList)

/-- What `chat_completions` returns when it does not stream. -/
def completion (h : ResponseHead) (result : List Char × ℕ) : Json :=
  .obj [("id".toList, .str h.cid), ("object".toList, .str "chat.completion".toList),
    ("created".toList, .int h.created), ("model".toList, .str h.model),
    ("choices".toList, .arr [.obj [("index".toList, .int 0), ("finish_reason".toList, .str "stop".toList),
      ("message".toList, .obj [("role".toList, .str "assistant".toList),
        ("content".toList, .str result.1)])]]),
    ("usage".toList, .obj [("completion_tokens".toList, .int result.2)])]

/-- `event_stream`: what it yields for what its queue was handed.  A queue is handed no result. -/
def eventStream (h : ResponseHead) : List Event → List (List Char)
  | [] => []
  | .delta delta :: events => Sse.frame (h.deltaChunk delta).dumps :: h.eventStream events
  | .sentinel :: _ => [Sse.frame h.doneChunk.dumps, Sse.frame "[DONE]".toList]
  | .result _ :: events => h.eventStream events

end ResponseHead

/-! ### A client -/

/-- What a client of the chat interface has read: the contents of the chunks, the reason to stop, and whether
the stream was closed. -/
structure ChatClient where
  contents : List (List Char)
  finishReason : Option (List Char)
  closed : Bool

namespace ChatClient

/-- The text of a string. -/
def text? : Json → Option (List Char)
  | .str s => some s
  | _ => none

/-- The first choice of a response. -/
def choice? (response : Json) : Option Json := (response.member? "choices".toList).bind (Json.elem? 0)

/-- The text of a completion. -/
def completionText? (completion : Json) : Option (List Char) := do
  let message ← (← choice? completion).member? "message".toList
  text? (← message.member? "content".toList)

/-- One event. -/
def read1 (s : ChatClient) (payload : List Char) : Option ChatClient :=
  if s.closed then some s
  else if payload = "[DONE]".toList then some { s with closed := true }
  else do
    let choice ← choice? (← Json.loads payload)
    let delta ← choice.member? "delta".toList
    let finishReason ← choice.member? "finish_reason".toList
    some { s with
      contents := s.contents ++ ((delta.member? "content".toList).bind text?).toList
      finishReason := (text? finishReason).or s.finishReason }

/-- The part of a body that has arrived. -/
def read (body : List Char) : Option ChatClient :=
  (Sse.Client.start.feed body).events.foldlM read1 ⟨[], none, false⟩

variable {s : ChatClient}

/-- A chunk is read. -/
theorem read1_chunk (h : ResponseHead) (delta : List (List Char × Json)) (finishReason : Json)
    (hs : s.closed = false) : s.read1 (h.chunk delta finishReason).dumps =
      some { s with
        contents := s.contents ++ (((Json.obj delta).member? "content".toList).bind text?).toList
        finishReason := (text? finishReason).or s.finishReason } := by
  have hne : (h.chunk delta finishReason).dumps ≠ "[DONE]".toList := by
    rw [ResponseHead.chunk, Json.dumps]
    exact fun h => absurd (List.head_eq_of_cons_eq h) (by decide)
  rw [read1, hs, if_neg Bool.false_ne_true, if_neg hne, Json.loads_dumps]
  rfl

/-- **The deltas are read.** -/
theorem foldlM_deltaChunk (h : ResponseHead) (texts : List (List Char)) (hs : s.closed = false) :
    (texts.map fun text => (h.deltaChunk text).dumps).foldlM read1 s =
      some { s with contents := s.contents ++ texts } := by
  induction texts generalizing s with
  | nil =>
    rw [List.append_nil]
    rfl
  | cons text texts ih =>
    rw [List.map_cons, List.foldlM_cons, ResponseHead.deltaChunk, read1_chunk h _ _ hs]
    have hrest := @ih { s with contents := s.contents ++ [text] } hs
    rw [List.append_assoc] at hrest
    exact hrest

/-- The end of a stream is read. -/
theorem read1_doneChunk (h : ResponseHead) (hs : s.closed = false) :
    s.read1 h.doneChunk.dumps = some { s with finishReason := some "stop".toList } := by
  rw [ResponseHead.doneChunk, read1_chunk h _ _ hs]
  show some { s with contents := s.contents ++ [], finishReason := _ } = _
  rw [List.append_nil]
  rfl

/-- What is left to read after the deltas. -/
def closing (h : ResponseHead) (ended : Bool) : List (List Char) :=
  if ended then [h.doneChunk.dumps, "[DONE]".toList] else []

/-- **A part of a stream is read**: it holds the first deltas, and the reason to stop after all of them. -/
theorem foldlM_of_prefix (h : ResponseHead) {texts : List (List Char)} {ended : Bool}
    {events : List (List Char)}
    (hevents : events <+: (texts.map fun text => (h.deltaChunk text).dumps) ++ closing h ended) :
    ∃ s, events.foldlM read1 ⟨[], none, false⟩ = some s ∧ s.contents <+: texts ∧
      (s.finishReason = none ∨
        s.finishReason = some "stop".toList ∧ ended = true ∧ s.contents = texts) ∧
      (s.closed = true → s.finishReason ≠ none) := by
  obtain ⟨k, rfl⟩ : ∃ k, events =
      ((texts.map fun text => (h.deltaChunk text).dumps) ++ closing h ended).take k :=
    ⟨_, List.prefix_iff_eq_take.1 hevents⟩
  rw [List.take_append, ← List.map_take, List.foldlM_append, foldlM_deltaChunk h _ rfl, List.length_map]
  show ∃ s, ((closing h ended).take (k - texts.length)).foldlM read1
    ⟨texts.take k, none, false⟩ = some s ∧ _
  by_cases hk : k ≤ texts.length
  · rw [Nat.sub_eq_zero_of_le hk, List.take_zero]
    exact ⟨_, rfl, List.take_prefix k texts, Or.inl rfl, fun hc => absurd hc Bool.false_ne_true⟩
  · obtain ⟨m, hm⟩ : ∃ m, k - texts.length = m + 1 := Nat.exists_eq_add_one.2 (by omega)
    rw [hm, List.take_of_length_le (not_le.1 hk).le]
    cases ended with
    | false => exact ⟨_, rfl, List.prefix_rfl, Or.inl rfl, fun hc => absurd hc Bool.false_ne_true⟩
    | true =>
      rw [closing, if_pos rfl, List.take_succ_cons, List.foldlM_cons, read1_doneChunk h rfl]
      have hlast : ∃ closed, (["[DONE]".toList].take m).foldlM read1
          ⟨texts, some "stop".toList, false⟩ = some ⟨texts, some "stop".toList, closed⟩ := by
        cases m with
        | zero => exact ⟨false, rfl⟩
        | succ m => exact ⟨true, by rw [List.take_of_length_le (by simp)]; rfl⟩
      obtain ⟨closed, hclosed⟩ := hlast
      exact ⟨_, hclosed, List.prefix_rfl, Or.inr ⟨rfl, rfl, rfl⟩, fun _ => Option.some_ne_none _⟩

/-- **A stream is read to its end.** -/
theorem foldlM_closing (h : ResponseHead) (texts : List (List Char)) (ended : Bool) :
    ((texts.map fun text => (h.deltaChunk text).dumps) ++ closing h ended).foldlM read1
      ⟨[], none, false⟩ = some ⟨texts, if ended then some "stop".toList else none, ended⟩ := by
  rw [List.foldlM_append, foldlM_deltaChunk h texts rfl]
  show (closing h ended).foldlM read1 ⟨texts, none, false⟩ = _
  cases ended with
  | false => rfl
  | true =>
    rw [closing, if_pos rfl, List.foldlM_cons, read1_doneChunk h rfl]
    rfl

end ChatClient

namespace ResponseHead

/-- The stream of some deltas is the frames of their chunks, and of what closes it. -/
theorem eventStream_deltas (h : ResponseHead) (texts : List (List Char)) (ended : Bool) :
    h.eventStream (texts.map .delta ++ if ended then [.sentinel] else []) =
      ((texts.map fun text => (h.deltaChunk text).dumps) ++ ChatClient.closing h ended).map Sse.frame := by
  induction texts with
  | nil =>
    cases ended with
    | false => rfl
    | true => rfl
  | cons text texts ih => exact congrArg (Sse.frame (h.deltaChunk text).dumps :: ·) ih

/-- The payloads are printable ASCII. -/
theorem payload_printable (h : ResponseHead) (texts : List (List Char)) (ended : Bool) :
    ∀ p ∈ (texts.map fun text => (h.deltaChunk text).dumps) ++ ChatClient.closing h ended,
      ∀ c ∈ p, Json.printable c = true := by
  intro p hp
  rw [List.mem_append, List.mem_map, ChatClient.closing] at hp
  rcases hp with ⟨text, -, rfl⟩ | hp
  · exact Json.dumps_printable _ le_rfl
  · split_ifs at hp
    · rw [List.mem_cons, List.mem_singleton] at hp
      rcases hp with rfl | rfl
      · exact Json.dumps_printable _ le_rfl
      · exact List.all_eq_true.1 rfl
    · exact absurd hp List.not_mem_nil

end ResponseHead

/-- A printable character ends no line. -/
theorem oneLine_of_printable {p : List Char} (h : ∀ c ∈ p, Json.printable c = true) : Sse.OneLine p := by
  intro c hc
  have hprint := h c hc
  constructor
  · rintro rfl
    exact absurd hprint (by decide)
  · rintro rfl
    exact absurd hprint (by decide)

open InferenceServer

/-- **What a client reads of a streamed chat completion.**  In every run of requests to both endpoints
and of rounds of the loop in which nothing raises, the body of a streamed response is printable ASCII
and line feeds.  Any part of it that has arrived is read, as contents that are the first of the deltas
pushed, in order, and with the reason to stop only once the request has finished and all of its deltas
have arrived.  All of it is read as exactly the deltas, with the reason to stop and the end of the
stream iff the request has finished.  With a byte-level tokenizer they make the text of the completion
that is returned for the same tokens without streaming iff no character but U+FFFD is split between two
tokens. -/
theorem chat_stream_read {X D R G : Type} [Zero D] [Field R] [LinearOrder R] (torch : Torch R)
    (src : Source R G) (runner : ModelRunner X D R) (T : Transformer X D R) (tok : Tokenizer)
    (numBlocks blockSize maxBatchTokens : ℕ) (chunkSize : Option ℕ) (rng : G)
    (applyChatTemplate : List ChatMessage → List Char) (posts : List (Option (Post R)))
    {s : InferenceServer D R G}
    (h : run torch src runner (init T tok numBlocks blockSize maxBatchTokens chunkSize rng)
      (posts.map (Post.action applyChatTemplate)) = .ok s) {r : ℕ} {req : ChatCompletionRequest R}
    (hr : posts.reduceOption[r]? = some (.chatCompletions req)) (hstream : req.stream = true)
    (cid : List Char) (created : ℤ) :
    let head : ResponseHead := ⟨cid, created, req.model⟩
    let done := decide (r ∈ finishes torch src runner (init T tok numBlocks blockSize maxBatchTokens
      chunkSize rng : InferenceServer D R G) (posts.map (Post.action applyChatTemplate)))
    let body := (head.eventStream (s.sent r)).flatten
    (∀ c ∈ body, Json.printable c = true ∨ c = '\n') ∧
      ∃ texts : List (List Char), s.sent r = texts.map .delta ++ (if done then [.sentinel] else []) ∧
        ChatClient.read body = some ⟨texts, if done then some "stop".toList else none, done⟩ ∧
        (∀ arrived, arrived <+: body → ∃ client, ChatClient.read arrived = some client ∧
          client.contents <+: texts ∧
          (client.finishReason = none ∨
            client.finishReason = some "stop".toList ∧ done = true ∧ client.contents = texts) ∧
          (client.closed = true → client.finishReason ≠ none)) ∧
        ∀ inputIds eosTokenId tokenBytes, tok = byteLevel inputIds eosTokenId tokenBytes →
          (ChatClient.completionText? (head.completion (response s.tok (s.engine.req r).outputIds)) =
            some texts.flatten ↔ ¬ SplitsCharacter tokenBytes (s.engine.req r).outputIds) := by
  intro head done body
  obtain ⟨hserving, -⟩ := (init_serving T tok numBlocks blockSize maxBatchTokens chunkSize rng).run
    torch src runner _ h
  rw [List.nil_append, List.nil_append, Post.asks_action] at hserving
  have hask : (posts.reduceOption.map (Post.ask applyChatTemplate))[r]? =
      some (true, (Post.ask applyChatTemplate (.chatCompletions req)).2) := by
    rw [List.getElem?_map, hr, ← hstream]
    rfl
  obtain ⟨texts, hdeltas, -⟩ := streamed_texts tok (s.engine.req r).outputIds
  have hdone : decide (r ∈ s.engine.queued) = !done := by
    have hlt := (List.getElem?_eq_some_iff.1 hask).1
    rw [← decide_not, decide_eq_decide, hserving.mem_queued r, and_iff_right hlt]
  have hsent : s.sent r = texts.map .delta ++ (if done then [.sentinel] else []) := by
    rw [hserving.sent r, hask, hdone]
    show (streamed tok _).2 ++ _ = _
    rw [hdeltas]
    cases done with
    | false => rfl
    | true => rfl
  set payloads := (texts.map fun text => (head.deltaChunk text).dumps) ++ ChatClient.closing head done
  have hprint : ∀ p ∈ payloads, ∀ c ∈ p, Json.printable c = true := head.payload_printable texts done
  have hline : ∀ p ∈ payloads, Sse.OneLine p := fun p hp => oneLine_of_printable (hprint p hp)
  have hbody : body = payloads.flatMap Sse.frame := by
    rw [List.flatMap, ← head.eventStream_deltas texts done, ← hsent]
  refine ⟨fun c hc => ?_, texts, hsent, ?_, fun arrived harrived => ?_,
    fun inputIds eosTokenId tokenBytes htok => ?_⟩
  · rw [hbody] at hc
    obtain ⟨p, hp, hc⟩ := List.mem_flatMap.1 hc
    rw [Sse.frame, List.mem_append, List.mem_append] at hc
    rcases hc with hc | hc | hc
    · exact Or.inl (List.all_eq_true.1 (show "data: ".toList.all Json.printable = true from rfl) c hc)
    · exact Or.inl (hprint p hp c hc)
    · exact Or.inr ((show ∀ c ∈ "\n\n".toList, c = '\n' by simp) c hc)
  · rw [ChatClient.read, hbody, Sse.feed_frames hline]
    exact ChatClient.foldlM_closing head texts done
  · rw [hbody] at harrived
    exact ChatClient.foldlM_of_prefix head (Sse.events_of_prefix hline harrived)
  · obtain ⟨texts', hdeltas', hiff⟩ :=
      streamed_byteLevel inputIds eosTokenId tokenBytes (s.engine.req r).outputIds
    rw [← htok, hdeltas] at hdeltas'
    have hinj : Function.Injective Event.delta := fun _ _ h => Event.delta.inj h
    rw [hinj.list_map hdeltas', ← hiff, hserving.tokenizer, ← htok]
    show some (tok.decode _) = some _ ↔ _
    rw [Option.some_inj, eq_comm]

/-- The hypotheses are satisfiable: two tokens, the first of which is a character of two bytes, are read
as two contents and the reason to stop. -/
theorem chat_stream_read_two :
    let torch : Torch ℚ := ⟨id, fun _ => []⟩
    let src : Source ℚ Unit := ⟨fun g => (0, g), fun _ g => (0, g)⟩
    let tok := byteLevel (fun text => text.map (·.toNat % 3)) none
      fun t => if t = 2 then [0xC3, 0xA9] else [0x41]
    let template : List ChatMessage → List Char := fun messages => messages.flatMap ChatMessage.content
    let req : ChatCompletionRequest ℚ :=
      ⟨[⟨"user".toList, ['A', 'B']⟩], "dispec".toList, 2, 0, true⟩
    let posts : List (Option (Post ℚ)) := [some (.chatCompletions req), none, none]
    let s := (posts.map (Post.action template)).foldl (fun s a => (s.act torch src sumModel.runner a).2)
      (init sumModel tok 8 2 8 none () : InferenceServer ℤ ℚ Unit)
    let head : ResponseHead := ⟨"chatcmpl-0".toList, 0, req.model⟩
    ChatClient.read (head.eventStream (s.sent 0)).flatten =
      some ⟨[['é'], ['A']], some "stop".toList, true⟩ := by
  intro torch src tok template req posts s head
  have hrun : run torch src sumModel.runner (init sumModel tok 8 2 8 none ())
      (posts.map (Post.action template)) = .ok s :=
    (run_cons (by decide +kernel) _).trans ((run_cons (by decide +kernel) _).trans
      (run_cons (by decide +kernel) _))
  have hdone : decide (0 ∈ finishes torch src sumModel.runner (init sumModel tok 8 2 8 none ())
      (posts.map (Post.action template))) = true := by decide +kernel
  have hsent : s.sent 0 = [['é'], ['A']].map .delta ++ [.sentinel] := by decide +kernel
  obtain ⟨-, texts, htexts, hread, -⟩ := chat_stream_read torch src sumModel.runner sumModel tok 8 2 8
    none () template posts hrun (show posts.reduceOption[0]? = some (.chatCompletions req) from rfl) rfl
    "chatcmpl-0".toList 0
  rw [hdone] at htexts hread
  have hinj : Function.Injective Event.delta := fun _ _ h => Event.delta.inj h
  have heq : texts = [['é'], ['A']] := hinj.list_map (List.append_cancel_right (htexts.symm.trans hsent))
  rw [heq] at hread
  exact hread

end DiSpec
