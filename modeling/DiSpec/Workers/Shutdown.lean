/-
# Shutdown does not wait for the workers

`dispec/workers/disaggregated.py`: `DisaggregatedEngine.shutdown`; `dispec/transport/cuda_ipc.py`.

`shutdown` puts a sentinel behind the requests, waits for the prefill worker for thirty seconds, and
then puts a sentinel on `kv_q` whether that worker has ended or not.  So the decode worker may
meet the sentinel before payloads that the prefill worker has yet to send, and it stops with
requests lost (`Drained` fails).  And the prefill worker ends as soon as it meets its own sentinel,
with the memory behind payloads that nobody has received (`Retained` fails): the list of
payloads in flight ends with the process.

Both halves hold exactly when nothing is on its way: when everything submitted was collected before
`shutdown` (`shutdown_safe_iff`).
-/

import DiSpec.Workers.Pipeline

namespace DiSpec

open Pipeline PagedKVCache

variable {X D R G : Type} [Zero D] [Add X] [Field R] [LinearOrder R] {torch : Torch R} {src : Source R G}
  {T : Transformer X D R} {cfg : DisaggConfig R}

/-- "Stop decode once it drains KV": a decode worker that has met the sentinel left no request behind. -/
def Drained (n : DisaggregatedEngine D G) : Prop :=
  ∀ w, n.second = .stopped w → n.midQ.reduceOption = [] ∧ n.first.held = [] ∧ n.inQ.reduceOption = []

/-- The retention rule: the prefill process, which owns the memory behind what it sent, has not ended
while a payload waits to be received. -/
def Retained (n : DisaggregatedEngine D G) : Prop :=
  n.first.Exited → n.midQ.reduceOption = []

omit [Zero D] in
/-- The calls before `shutdown` were made by the time a sentinel was met. -/
theorem prefix_past {calls past rest : List (Call (ℕ × List ℕ))} {n : DisaggregatedEngine D G}
    (hpast : Past (calls ++ rest) past n) {c : Call (ℕ × List ℕ)} (hmem : c ∈ past) (hnot : c ∉ calls) :
    calls <+: past := by
  have hpre : past <+: calls ++ rest := ⟨n.client, hpast.program.symm⟩
  rcases List.prefix_or_prefix_of_prefix (List.prefix_append calls rest) hpre with h | h
  · exact h
  · exact absurd (h.subset hmem) hnot

/-- Submit everything, collect `k` results and shut down. -/
def EngineCall.session (reqs : List (ℕ × List ℕ)) (k : ℕ) : List EngineCall :=
  submits reqs ++ [collect k, shutdown]

theorem EngineCall.calls_session (reqs : List (ℕ × List ℕ)) (k : ℕ) :
    (session reqs k).flatMap calls =
      (reqs.map (fun req => .put (some req)) ++ List.replicate k .get) ++ shutdown.calls := by
  rw [session, calls_submits, List.append_assoc]
  rfl

theorem EngineCall.requests_session (reqs : List (ℕ × List ℕ)) (k : ℕ) :
    (session reqs k).flatMap requests = reqs := by
  rw [session, List.flatMap_append, submits, List.flatMap_map]
  show reqs.flatMap (fun req => [req]) ++ [] = reqs
  rw [List.append_nil, List.flatMap_singleton']

/-- **Where everything was collected, a sentinel finds nothing on its way.** -/
theorem settled_of_sentinel {g g' : G} {reqs : List (ℕ × List ℕ)} {k : ℕ} (hk : reqs.length ≤ k)
    {n : DisaggregatedEngine D G}
    (h : DisaggregatedEngine.Reaches torch src T cfg (.init T cfg g g' (EngineCall.session reqs k)) n)
    (hseen : Proc.Closed n.inQ n.first ∨ Proc.Closed n.midQ n.second) :
    n.midQ.reduceOption = [] ∧ n.first.held = [] ∧ n.inQ.reduceOption = [] := by
  obtain ⟨-, -, ⟨served, working, moving, hf⟩, past, hpast⟩ := h.spec torch src
  have hsent : n.sent.length ≤ reqs.length := by
    have hpre : n.sent <+: reqs := by
      rw [← EngineCall.requests_session reqs k, ← sends_calls, hpast.program, List.flatMap_append, hpast.sent]
      exact List.prefix_append _ _
    exact hpre.length_le
  have hreceived : k ≤ n.received.length := by
    rw [EngineCall.calls_session] at hpast
    have hpre : reqs.map (fun req => .put (some req)) ++ List.replicate k .get <+: past := by
      rcases hseen with hseen | hseen
      · exact prefix_past hpast (hpast.first hseen) (by simp)
      · exact prefix_past hpast (hpast.second hseen) (by simp)
    have hcount := hpre.sublist.countP_le (p := Call.isGet)
    rw [List.countP_append, List.countP_replicate, if_pos (show Call.isGet .get = true from rfl),
      ← hpast.received] at hcount
    omega
  exact hf.settled (hsent.trans (hk.trans hreceived))

omit [Add X] [Field R] [LinearOrder R] in
/-- Nothing is collected. -/
theorem init_session_zero (T : Transformer X D R) (cfg : DisaggConfig R) (g g' : G)
    (reqs : List (ℕ × List ℕ)) :
    DisaggregatedEngine.init T cfg g g' (EngineCall.session reqs 0) =
      .init T cfg g g' (EngineCall.submits reqs ++ [.shutdown]) := by
  unfold DisaggregatedEngine.init EngineCall.session
  rw [List.flatMap_append, List.flatMap_append]
  rfl

/-- A prefill worker that serves only requests that fit ends by a sentinel. -/
theorem closed_of_exited {g g' : G} {reqs : List (ℕ × List ℕ)} {k : ℕ} (hfit : ∀ req ∈ reqs, cfg.Fits req)
    {n : DisaggregatedEngine D G}
    (h : DisaggregatedEngine.Reaches torch src T cfg (.init T cfg g g' (EngineCall.session reqs k)) n)
    (hexit : n.first.Exited) : Proc.Closed n.inQ n.first := by
  have hnew : Resting T cfg.numBlocks BLOCK_SIZE (T.newCache cfg.numBlocks BLOCK_SIZE) :=
    Resting.new T cfg.numBlocks (by decide)
  have hfits : ∀ req ∈ ((EngineCall.session reqs k).flatMap EngineCall.calls).flatMap Call.sends,
      cfg.Fits req := by
    rwa [sends_calls, EngineCall.requests_session]
  refine hexit.cases.elim Or.inr fun ⟨req, w, hw⟩ => ?_
  exact absurd hw (Pipeline.Reaches.first_unfailed (prefillMain_keeps torch src) (decodeMain_keeps torch src)
    (fun w req hw (hreq : cfg.Fits req) => prefillMain_total torch src hw hreq.1
      ((cfg.blocksNeeded_mono (Nat.le_add_right _ _)).trans hreq.2)) hnew hnew hfits h req w)

variable (torch src T cfg)

/-- The workers serve as many requests as are collected, the client collects them, and the rest still
wait when `shutdown` begins. -/
theorem backlog {done : List (ℕ × List ℕ)} (hfit : ∀ req ∈ done, cfg.Fits req) (left : List (ℕ × List ℕ))
    (g g' : G) :
    ∃ w w' received, Resting T cfg.numBlocks BLOCK_SIZE w.cache ∧
      DisaggregatedEngine.Reaches torch src T cfg
        (.init T cfg g g' (EngineCall.session (done ++ left) done.length))
        ⟨EngineCall.shutdown.calls, left.map some, .idle w, [], .idle w', [], done ++ left, received⟩ := by
  obtain ⟨w, w', out, hw, -, hout, hserves⟩ := DisaggregatedEngine.serves torch src (T := T) hfit left
    [.collect done.length, .shutdown] g g'
  have hgets : DisaggregatedEngine.Reaches torch src T cfg
      ⟨[EngineCall.collect done.length, .shutdown].flatMap EngineCall.calls, left.map some, .idle w, [],
        .idle w', out, done ++ left, []⟩
      ⟨EngineCall.shutdown.calls, left.map some, .idle w, [], .idle w', [], done ++ left, [] ++ out⟩ :=
    Pipeline.Reaches.gets out (by rw [← hout.length_eq]; rfl) (List.append_nil out).symm
  exact ⟨w, w', _, hw, hserves.trans hgets⟩

/-- **A lost request**: with a backlog, the decode worker may stop before the prefill worker has begun. -/
theorem exists_undrained {done : List (ℕ × List ℕ)} (hfit : ∀ req ∈ done, cfg.Fits req)
    (left : List (ℕ × List ℕ)) (g g' : G) :
    ∃ n w, DisaggregatedEngine.Reaches torch src T cfg
        (.init T cfg g g' (EngineCall.session (done ++ left) done.length)) n ∧
      n.second = .stopped w ∧ n.inQ.reduceOption = left := by
  obtain ⟨w, w', received, -, hback⟩ := backlog torch src T cfg hfit left g g'
  refine ⟨_, w', hback.trans (Pipeline.Reaches.stop rfl rfl rfl), rfl, ?_⟩
  show (left.map some ++ [none]).reduceOption = left
  rw [List.reduceOption_append, reduceOption_map_some]
  exact List.append_nil left

/-- **A payload without its memory**: with a backlog, the prefill worker may pass everything on and end
before the decode worker receives anything. -/
theorem exists_unretained {done left : List (ℕ × List ℕ)} (hfit : ∀ req ∈ done ++ left, cfg.Fits req)
    (g g' : G) :
    ∃ n w, DisaggregatedEngine.Reaches torch src T cfg
        (.init T cfg g g' (EngineCall.session (done ++ left) done.length)) n ∧
      n.first = .stopped w ∧ n.midQ.reduceOption.length = left.length := by
  obtain ⟨w, w', received, hw, hback⟩ := backlog torch src T cfg
    (fun req hreq => hfit req (List.mem_append_left _ hreq)) left g g'
  obtain ⟨w₁, out, hout, hpass⟩ := Pipeline.Reaches.passes (prefillMain_keeps torch src)
    (fun w req hw (hreq : cfg.Fits req) => prefillMain_total torch src hw hreq.1
      ((cfg.blocksNeeded_mono (Nat.le_add_right _ _)).trans hreq.2)) left
    (fun req hreq => hfit req (List.mem_append_right _ hreq))
    (n := ⟨[.join, .putMid, .join], left.map some ++ [none], .idle w, [], .idle w', [], done ++ left,
      received⟩)
    rfl rfl hw
  have hput : Pipeline.Step (prefillMain torch src T.runner cfg) (decodeMain torch src T.runner cfg)
      ⟨EngineCall.shutdown.calls, left.map some, .idle w, [], .idle w', [], done ++ left, received⟩ _ :=
    .put rfl
  rw [Option.toList_none, List.append_nil] at hput
  have hstop : Pipeline.Step (prefillMain torch src T.runner cfg) (decodeMain torch src T.runner cfg)
      ⟨[.join, .putMid, .join], [none], .idle w₁, out.map some, .idle w', [], done ++ left, received⟩ _ :=
    .first (.stop [] w₁)
  refine ⟨_, w₁, hback.trans (.head hput (hpass.trans (.single hstop))), rfl, ?_⟩
  rw [List.map_nil, List.append_nil, reduceOption_map_some, hout.length_eq]

/-- **`shutdown` is safe exactly when everything was collected before it.**  Submits followed by
`shutdown` are safe only if there are none.  And with `k` results collected in between, of requests that
the stages can serve, each half of the promise holds on every interleaving exactly when `k` is the
number of requests: no request is left behind by a decode worker that stops, and no
payload by a prefill worker that ends. -/
theorem shutdown_safe_iff (g g' : G) :
    (∀ reqs, (∀ n, DisaggregatedEngine.Reaches torch src T cfg
        (.init T cfg g g' (EngineCall.submits reqs ++ [.shutdown])) n → Drained n ∧ Retained n) ↔ reqs = []) ∧
    ∀ reqs k, (∀ req ∈ reqs, cfg.Fits req) →
      ((∀ n, DisaggregatedEngine.Reaches torch src T cfg
        (.init T cfg g g' (EngineCall.submits reqs ++ [.collect k, .shutdown])) n → Drained n) ↔
          reqs.length ≤ k) ∧
      ((∀ n, DisaggregatedEngine.Reaches torch src T cfg
        (.init T cfg g g' (EngineCall.submits reqs ++ [.collect k, .shutdown])) n → Retained n) ↔
          reqs.length ≤ k) := by
  refine ⟨fun reqs => ⟨fun hsafe => ?_, ?_⟩, fun reqs k hfit => ⟨⟨fun hsafe => ?_, fun hk n h w hw => ?_⟩,
    ⟨fun hsafe => ?_, fun hk n h hexit => ?_⟩⟩⟩
  · obtain ⟨n, w, hreach, hw, hleft⟩ := exists_undrained torch src T cfg
      (show ∀ req ∈ ([] : List (ℕ × List ℕ)), cfg.Fits req by simp) reqs g g'
    rw [List.nil_append, List.length_nil, init_session_zero] at hreach
    exact hleft.symm.trans ((hsafe n hreach).1 w hw).2.2
  · rintro rfl n h
    rw [← init_session_zero] at h
    exact ⟨fun w hw => settled_of_sentinel le_rfl h (Or.inr (Or.inr ⟨w, hw⟩)),
      fun hexit => (settled_of_sentinel le_rfl h (Or.inl (closed_of_exited (by simp) h hexit))).1⟩
  · -- with `k` too small, the requests from the `k`-th on make the backlog
    by_contra hlt
    have hlen : (reqs.take k).length = k := List.length_take_of_le (not_le.1 hlt).le
    obtain ⟨n, w, hreach, hw, hleft⟩ := exists_undrained torch src T cfg
      (fun req hreq => hfit req (List.mem_of_mem_take hreq)) (reqs.drop k) g g'
    rw [List.take_append_drop, hlen] at hreach
    have hnone := hleft.symm.trans (hsafe n hreach w hw).2.2
    exact hlt (List.drop_eq_nil_iff.1 hnone)
  · exact settled_of_sentinel hk h (Or.inr (Or.inr ⟨w, hw⟩))
  · by_contra hlt
    have hlen : (reqs.take k).length = k := List.length_take_of_le (not_le.1 hlt).le
    obtain ⟨n, w, hreach, hw, hleft⟩ := exists_unretained torch src T cfg
      (show ∀ req ∈ reqs.take k ++ reqs.drop k, cfg.Fits req by rwa [List.take_append_drop]) g g'
    rw [List.take_append_drop, hlen] at hreach
    rw [hsafe n hreach (by rw [hw]; trivial)] at hleft
    exact hlt (List.drop_eq_nil_iff.1 (List.length_eq_zero_iff.1 hleft.symm))
  · exact (settled_of_sentinel hk h (Or.inl (closed_of_exited hfit h hexit))).1

/-- The hypotheses are satisfiable: one request is safe when it was collected. -/
theorem shutdown_safe_iff_one :
    let torch : Torch ℚ := ⟨id, fun _ => []⟩
    let src : Source ℚ Unit := ⟨fun g => (0, g), fun _ g => (0, g)⟩
    let cfg : DisaggConfig ℚ := ⟨1, 3, none, 0⟩
    ∀ n : DisaggregatedEngine ℤ Unit, DisaggregatedEngine.Reaches torch src sumModel cfg
      (.init sumModel cfg () () (EngineCall.submits [(7, [0, 1])] ++ [.collect 1, .shutdown])) n →
        Drained n ∧ Retained n := by
  intro torch src cfg n h
  obtain ⟨hdrained, hretained⟩ :=
    (shutdown_safe_iff torch src sumModel cfg () ()).2 [(7, [0, 1])] 1 (by decide)
  exact ⟨hdrained.2 le_rfl n h, hretained.2 le_rfl n h⟩

/-- Nothing was collected: the decode worker may stop with the request still in `req_q`, and the prefill
worker may end with its payload still in `kv_q`. -/
theorem shutdown_loses_request :
    let torch : Torch ℚ := ⟨id, fun _ => []⟩
    let src : Source ℚ Unit := ⟨fun g => (0, g), fun _ g => (0, g)⟩
    let cfg : DisaggConfig ℚ := ⟨1, 3, none, 0⟩
    let start : DisaggregatedEngine ℤ Unit := .init sumModel cfg () () [.submit 7 [0, 1], .shutdown]
    (∃ n w, DisaggregatedEngine.Reaches torch src sumModel cfg start n ∧ n.second = .stopped w ∧
      n.inQ.reduceOption = [(7, [0, 1])] ∧ ¬ Drained n) ∧
    ∃ n w, DisaggregatedEngine.Reaches torch src sumModel cfg start n ∧ n.first = .stopped w ∧
      n.midQ.reduceOption.length = 1 ∧ ¬ Retained n := by
  intro torch src cfg start
  obtain ⟨n, w, hn, hw, hleft⟩ := exists_undrained torch src sumModel cfg
    (show ∀ req ∈ ([] : List (ℕ × List ℕ)), cfg.Fits req by simp) [(7, [0, 1])] () ()
  obtain ⟨n', w', hn', hw', hleft'⟩ := exists_unretained torch src sumModel cfg
    (show ∀ req ∈ [] ++ [(7, [0, 1])], cfg.Fits req by decide) () ()
  refine ⟨⟨n, w, hn, hw, hleft, fun h => ?_⟩, ⟨n', w', hn', hw', hleft', fun h => ?_⟩⟩
  · rw [(h w hw).2.2] at hleft
    cases hleft
  · rw [h (by rw [hw']; trivial)] at hleft'
    cases hleft'

end DiSpec
