/-
# TCP framing loses nothing

`dispec/transport/tcp.py`: `_send_msg`, `_recv_n`, `_recv_msg`, `TcpTransport.send`,
`TcpTransport.recv`.

A socket's receiving end is an `Inbox`: `recv` returns some of the bytes that are there, at least
one until the peer has closed and nothing is left.  `_recv_n` asks for what is still missing, up
to a mebibyte at a time, so however its bytes arrive it takes exactly the next `n` of them and
ends (`recvLoop_spec`).  Hence `_recv_msg` takes exactly one frame (`recvMsg_frame`), and within a
frame that breaks off one of its two reads finds the end of the stream (`recvMsg_cut`).
-/

import DiSpec.Lib.Framing

namespace DiSpec

open Framing

/-- What the transport raises. -/
inductive TransportExc
  | StructError
  | ConnectionError (msg : String)
  deriving DecidableEq

/-- `_send_msg`, with what was sent on the socket so far. -/
def sendMsg (sent data : List UInt8) : Except TransportExc (List UInt8) :=
  if data.length < 2 ^ 64 then .ok (sent ++ bigEndian 8 data.length ++ data) else .error .StructError

/-- The loop of `_recv_n`. -/
def recvLoop (n : ℕ) (buf : List UInt8) (sock : Inbox UInt8) :
    Except TransportExc (List UInt8) × Inbox UInt8 :=
  if buf.length < n then
    match sock.read (min (n - buf.length) (2 ^ 20)) with
    | ([], sock) => (.error (.ConnectionError "peer closed during recv"), sock)
    | (b :: chunk, sock) => recvLoop n (buf ++ b :: chunk) sock
  else (.ok buf, sock)
termination_by n - buf.length
decreasing_by
  rw [List.length_append, List.length_cons]
  omega

/-- `_recv_n`. -/
def recvN (sock : Inbox UInt8) (n : ℕ) : Except TransportExc (List UInt8) × Inbox UInt8 :=
  recvLoop n [] sock

/-- `_recv_msg`. -/
def recvMsg (sock : Inbox UInt8) : Except TransportExc (List UInt8) × Inbox UInt8 :=
  match recvN sock 8 with
  | (.error x, sock) => (.error x, sock)
  | (.ok header, sock) => recvN sock (ofBigEndian header)

/-- `_send_msg` of each message in order. -/
def sendMsgs (sent : List UInt8) : List (List UInt8) → Except TransportExc (List UInt8)
  | [] => .ok sent
  | m :: msgs =>
    match sendMsg sent m with
    | .error x => .error x
    | .ok sent => sendMsgs sent msgs

/-- `count` calls of `_recv_msg`. -/
def recvMsgs : (count : ℕ) → Inbox UInt8 → Except TransportExc (List (List UInt8)) × Inbox UInt8
  | 0, sock => (.ok [], sock)
  | count + 1, sock =>
    match recvMsg sock with
    | (.error x, sock) => (.error x, sock)
    | (.ok m, sock) =>
      match recvMsgs count sock with
      | (.error x, sock) => (.error x, sock)
      | (.ok msgs, sock) => (.ok (m :: msgs), sock)

/-! ### Receiving a number of bytes -/

/-- **The loop of `_recv_n`** takes exactly what is missing, or all there is and raises.  Each round
takes a byte or raises, so it ends after at most as many rounds as bytes are missing, and one more
than there are. -/
theorem recvLoop_spec (n : ℕ) (buf : List UInt8) (sock : Inbox UInt8) (h : buf.length ≤ n) :
    ∃ rounds ≤ min (n - buf.length) (sock.bytes.length + 1),
      (n - buf.length ≤ sock.bytes.length → recvLoop n buf sock =
        (.ok (buf ++ sock.bytes.take (n - buf.length)),
          ⟨sock.bytes.drop (n - buf.length), sock.ready, sock.reads + rounds⟩)) ∧
      (sock.bytes.length < n - buf.length → recvLoop n buf sock =
        (.error (.ConnectionError "peer closed during recv"), ⟨[], sock.ready, sock.reads + rounds⟩)) := by
  induction hk : n - buf.length using Nat.strong_induction_on generalizing buf sock with
  | _ missing ih =>
    rw [recvLoop]
    rcases Nat.eq_or_lt_of_le h with heq | hlt
    · obtain rfl : missing = 0 := by omega
      rw [if_neg (by omega)]
      refine ⟨0, Nat.zero_le _, fun _ => ?_, fun hlt => absurd hlt (Nat.not_lt_zero _)⟩
      rw [List.take_zero, List.append_nil]
      rfl
    rw [if_pos hlt, hk]
    rcases sock.read_spec (k := min missing (2 ^ 20)) (by omega) with
      ⟨hnil, hread⟩ | ⟨size, hpos, hsize, hthere, hread⟩
    · -- the peer has closed
      rw [hread]
      refine ⟨1, by omega, fun hle => ?_, fun _ => ?_⟩
      · rw [hnil, List.length_nil] at hle
        omega
      · rw [hnil]
    have hlen : (sock.bytes.take size).length = size := List.length_take_of_le hthere
    obtain ⟨b, chunk, hchunk⟩ : ∃ b chunk, sock.bytes.take size = b :: chunk :=
      List.exists_cons_of_length_pos (hlen.symm ▸ hpos)
    rw [hread, hchunk]
    simp only
    rw [← hchunk]
    have hbuf : (buf ++ sock.bytes.take size).length = buf.length + size := by
      rw [List.length_append, hlen]
    obtain ⟨rounds, hrounds, hok, herr⟩ := ih (missing - size) (by omega) (buf ++ sock.bytes.take size)
      ⟨sock.bytes.drop size, sock.ready, sock.reads + 1⟩ (by omega) (by omega)
    rw [List.length_drop] at hrounds
    refine ⟨rounds + 1, by omega, fun hle => ?_, fun hshort => ?_⟩
    · rw [hok (by rw [List.length_drop]; omega), List.append_assoc, ← List.take_add, List.drop_drop,
        show size + (missing - size) = missing by omega]
      simp only
      rw [Nat.add_assoc, Nat.add_comm 1]
    · rw [herr (by rw [List.length_drop]; omega)]
      simp only
      rw [Nat.add_assoc, Nat.add_comm 1]

/-- `_recv_n` takes the bytes it asks for, however they arrive, and no byte behind them. -/
theorem recvN_append (sock : Inbox UInt8) {a rest : List UInt8} (h : sock.bytes = a ++ rest) :
    ∃ reads ≤ sock.reads + a.length, recvN sock a.length = (.ok a, ⟨rest, sock.ready, reads⟩) := by
  obtain ⟨rounds, hrounds, hok, -⟩ := recvLoop_spec a.length [] sock (Nat.zero_le _)
  rw [List.length_nil, Nat.sub_zero] at hrounds hok
  refine ⟨sock.reads + rounds, by omega, ?_⟩
  rw [recvN, hok (by rw [h, List.length_append]; omega), h, List.take_left, List.drop_left, List.nil_append]

/-- `_recv_n` raises if the stream ends before. -/
theorem recvN_short (sock : Inbox UInt8) {n : ℕ} (h : sock.bytes.length < n) :
    ∃ reads ≤ sock.reads + sock.bytes.length + 1, recvN sock n =
      (.error (.ConnectionError "peer closed during recv"), ⟨[], sock.ready, reads⟩) := by
  obtain ⟨rounds, hrounds, -, herr⟩ := recvLoop_spec n [] sock (Nat.zero_le _)
  rw [List.length_nil, Nat.sub_zero] at hrounds herr
  exact ⟨sock.reads + rounds, by omega, herr h⟩

/-! ### Receiving messages -/

/-- **`_recv_msg`** takes one frame and no byte behind it. -/
theorem recvMsg_frame (sock : Inbox UInt8) {m rest : List UInt8} (hm : m.length < 2 ^ 64)
    (h : sock.bytes = frame 8 m ++ rest) :
    ∃ reads ≤ sock.reads + (frame 8 m).length, recvMsg sock = (.ok m, ⟨rest, sock.ready, reads⟩) := by
  rw [frame, List.append_assoc] at h
  obtain ⟨reads, hreads, hheader⟩ := recvN_append sock h
  rw [length_bigEndian] at hreads hheader
  obtain ⟨reads', hreads', hbody⟩ := recvN_append ⟨m ++ rest, sock.ready, reads⟩ rfl
  refine ⟨reads', ?_, ?_⟩
  · rw [frame, List.length_append, length_bigEndian]
    dsimp only at hreads'
    omega
  · rw [recvMsg, hheader]
    dsimp only
    rw [ofBigEndian_bigEndian (by omega), hbody]

/-- **Within a frame that breaks off** `_recv_msg` raises. -/
theorem recvMsg_cut (sock : Inbox UInt8) {m : List UInt8} (hm : m.length < 2 ^ 64)
    (h : sock.bytes <+: frame 8 m) (hlt : sock.bytes.length < (frame 8 m).length) :
    ∃ reads ≤ sock.reads + sock.bytes.length + 1, recvMsg sock =
      (.error (.ConnectionError "peer closed during recv"), ⟨[], sock.ready, reads⟩) := by
  rw [frame] at h hlt
  rw [List.length_append, length_bigEndian] at hlt
  rcases Nat.lt_or_ge sock.bytes.length 8 with hshort | hge
  · -- the header is not whole
    obtain ⟨reads, hreads, hheader⟩ := recvN_short sock hshort
    refine ⟨reads, hreads, ?_⟩
    rw [recvMsg, hheader]
  · obtain ⟨body, hbody⟩ := List.prefix_of_prefix_length_le (List.prefix_append (bigEndian 8 m.length) m) h
      (by rw [length_bigEndian]; exact hge)
    obtain ⟨reads, hreads, hheader⟩ := recvN_append sock hbody.symm
    rw [length_bigEndian] at hreads hheader
    have hlen := congrArg List.length hbody
    rw [List.length_append, length_bigEndian] at hlen
    obtain ⟨reads', hreads', hraise⟩ := recvN_short ⟨body, sock.ready, reads⟩ (n := m.length)
      (by show body.length < _; omega)
    refine ⟨reads', ?_, ?_⟩
    · dsimp only at hreads'
      omega
    · rw [recvMsg, hheader]
      dsimp only
      rw [ofBigEndian_bigEndian (by omega), hraise]

/-- **Successive calls of `_recv_msg`** take whole frames in order. -/
theorem recvMsgs_frames (sock : Inbox UInt8) {msgs : List (List UInt8)}
    (hlen : ∀ m ∈ msgs, m.length < 2 ^ 64) {rest : List UInt8} (h : sock.bytes = frames 8 msgs ++ rest) :
    ∃ reads ≤ sock.reads + (frames 8 msgs).length,
      recvMsgs msgs.length sock = (.ok msgs, ⟨rest, sock.ready, reads⟩) := by
  induction msgs generalizing sock with
  | nil =>
    obtain rfl : sock.bytes = rest := h
    exact ⟨sock.reads, Nat.le_add_right _ _, rfl⟩
  | cons m msgs ih =>
    rw [frames_cons, List.append_assoc] at h
    obtain ⟨reads, hreads, hfirst⟩ := recvMsg_frame sock (hlen m List.mem_cons_self) h
    obtain ⟨reads', hreads', hothers⟩ := ih ⟨frames 8 msgs ++ rest, sock.ready, reads⟩
      (fun m hm => hlen m (List.mem_cons_of_mem _ hm)) rfl
    refine ⟨reads', ?_, ?_⟩
    · rw [frames_cons, List.length_append]
      dsimp only at hreads'
      omega
    · rw [List.length_cons, recvMsgs, hfirst]
      dsimp only
      rw [hothers]

/-- What `_send_msg` puts on the wire. -/
theorem sendMsgs_eq {msgs : List (List UInt8)} (hlen : ∀ m ∈ msgs, m.length < 2 ^ 64)
    (sent : List UInt8) : sendMsgs sent msgs = .ok (sent ++ frames 8 msgs) := by
  induction msgs generalizing sent with
  | nil => rw [sendMsgs, frames_nil, List.append_nil]
  | cons m msgs ih =>
    rw [sendMsgs, sendMsg, if_pos (hlen m List.mem_cons_self)]
    dsimp only
    rw [ih fun m hm => hlen m (List.mem_cons_of_mem _ hm), frames_cons, frame]
    simp only [List.append_assoc]

/-! ### Payloads -/

namespace TcpTransport

variable {P : Type}

/-- `TcpTransport.send`.  `save` is `torch.save` of the payload. -/
def send (save : P → List UInt8) (sent : List UInt8) (payload : P) : Except TransportExc (List UInt8) :=
  sendMsg sent (save payload)

/-- `TcpTransport.recv`.  `load` is `torch.load`. -/
def recv (load : List UInt8 → Except TransportExc P) (sock : Inbox UInt8) :
    Except TransportExc P × Inbox UInt8 :=
  match recvMsg sock with
  | (.error x, sock) => (.error x, sock)
  | (.ok data, sock) => (load data, sock)

/-- **A payload that can be loaded again is received as it was sent**, whatever is sent after it. -/
theorem recv_send {save : P → List UInt8} {load : List UInt8 → Except TransportExc P} {payload : P}
    (hload : load (save payload) = .ok payload) {sent : List UInt8}
    (hsend : send save [] payload = .ok sent) (rest : List UInt8) (ready : ℕ → ℕ) :
    ∃ reads, recv load ⟨sent ++ rest, ready, 0⟩ = (.ok payload, ⟨rest, ready, reads⟩) := by
  rw [send, sendMsg] at hsend
  split at hsend
  next hlen =>
    obtain rfl := Except.ok.inj hsend
    obtain ⟨reads, -, hrecv⟩ := recvMsg_frame
      ⟨[] ++ bigEndian 8 (save payload).length ++ save payload ++ rest, ready, 0⟩ hlen rfl
    refine ⟨reads, ?_⟩
    rw [recv, hrecv]
    dsimp only
    rw [hload]
  next => cases hsend

end TcpTransport

/-! ### Any messages, any fragmentation -/

/-- **TCP framing is lossless under any fragmentation.**  Messages are sent in order on one
connection.  However `recv` splits the stream, the first `k` calls of `_recv_msg` return the first
`k` messages and leave exactly the frames of the others.  If the peer closes within the stream,
the messages that are whole are returned and the next call raises.  No more calls of `recv` are
made than there are bytes, and one that finds the end. -/
theorem framing_lossless {msgs : List (List UInt8)} (hlen : ∀ m ∈ msgs, m.length < 2 ^ 64) :
    sendMsgs [] msgs = .ok (frames 8 msgs) ∧
    (∀ rest ready, ∀ k ≤ msgs.length, ∃ reads ≤ (frames 8 (msgs.take k)).length,
      recvMsgs k ⟨frames 8 msgs ++ rest, ready, 0⟩ =
        (.ok (msgs.take k), ⟨frames 8 (msgs.drop k) ++ rest, ready, reads⟩)) ∧
    ∀ p, p <+: frames 8 msgs → p ≠ frames 8 msgs → ∀ ready, ∃ k < msgs.length,
      frames 8 (msgs.take k) <+: p ∧ ¬ frames 8 (msgs.take (k + 1)) <+: p ∧
      ∃ sock, recvMsgs k ⟨p, ready, 0⟩ = (.ok (msgs.take k), sock) ∧
        (recvMsg sock).1 = .error (.ConnectionError "peer closed during recv") ∧
        (recvMsg sock).2.reads ≤ p.length + 1 := by
  have htake : ∀ k, ∀ m ∈ msgs.take k, m.length < 2 ^ 64 := fun k m hm => hlen m (List.mem_of_mem_take hm)
  refine ⟨sendMsgs_eq hlen [], fun rest ready k hk => ?_, fun p hp hstrict ready => ?_⟩
  · have hsplit : frames 8 msgs ++ rest =
        frames 8 (msgs.take k) ++ (frames 8 (msgs.drop k) ++ rest) := by
      rw [← List.append_assoc, ← frames_append, List.take_append_drop]
    obtain ⟨reads, hreads, hrecv⟩ := recvMsgs_frames ⟨frames 8 msgs ++ rest, ready, 0⟩
      (htake k) hsplit
    rw [List.length_take_of_le hk] at hrecv
    exact ⟨reads, by simpa using hreads, hrecv⟩
  · obtain ⟨k, m, q, hk, rfl, hq, hlt⟩ := cut_frames hp hstrict
    have hklt : k < msgs.length := (List.getElem?_eq_some_iff.1 hk).1
    refine ⟨k, hklt, List.prefix_append _ _, fun hmore => ?_, ?_⟩
    · have hnext := hmore.length_le
      rw [List.take_add_one, hk, frames_append, List.length_append, List.length_append] at hnext
      simp only [Option.toList_some, frames_cons, frames_nil, List.append_nil] at hnext
      omega
    · obtain ⟨reads, hreads, hrecv⟩ := recvMsgs_frames ⟨frames 8 (msgs.take k) ++ q, ready, 0⟩
        (htake k) rfl
      rw [List.length_take_of_le (Nat.le_of_lt hklt)] at hrecv
      obtain ⟨reads', hreads', hraise⟩ := recvMsg_cut ⟨q, ready, reads⟩
        (hlen m (List.mem_of_getElem? hk)) hq hlt
      refine ⟨⟨q, ready, reads⟩, hrecv, ?_, ?_⟩
      · rw [hraise]
      · rw [hraise, List.length_append]
        dsimp only at hreads hreads' ⊢
        omega

/-- The hypotheses are satisfiable: an empty message and one of three bytes, in pieces of one and two
bytes, and the same stream closed within the second header. -/
theorem framing_lossless_in_pieces :
    let msgs : List (List UInt8) := [[], [7, 8, 9]]
    let ready := fun i => i % 3
    (∃ reads ≤ 19, recvMsgs 2 ⟨frames 8 msgs, ready, 0⟩ = (.ok msgs, ⟨[], ready, reads⟩)) ∧
      ∃ sock, recvMsgs 1 ⟨(frames 8 msgs).take 10, ready, 0⟩ = (.ok [[]], sock) ∧
        (recvMsg sock).1 = .error (.ConnectionError "peer closed during recv") := by
  intro msgs ready
  obtain ⟨-, hwhole, hcut⟩ := @framing_lossless msgs (by decide)
  constructor
  · obtain ⟨reads, hreads, hrecv⟩ := hwhole [] ready 2 (by decide)
    rw [List.append_nil] at hrecv
    exact ⟨reads, hreads, hrecv⟩
  · obtain ⟨k, hk, -, hnext, sock, hrecv, hraise, -⟩ := hcut ((frames 8 msgs).take 10)
      (List.take_prefix _ _) (by decide) ready
    obtain rfl : k = 1 := by
      have h0 : k ≠ 0 := by
        rintro rfl
        exact hnext (by decide)
      have hk : k < 2 := hk
      omega
    exact ⟨sock, hrecv, hraise⟩

end DiSpec
