/-
# Length-prefixed messages over a stream that arrives in pieces

A stream delivers its bytes in order, but a read returns any part of them that is not empty and
not more than was asked for.  `Inbox` is its receiving end: the bytes that still arrive before
the sender closes, and for every read how many of them it finds.

A message is sent as its length in a fixed number of big-endian bytes, followed by its content
(`frame`).  The header can be decoded (`ofBigEndian_bigEndian`), and a stream that breaks off
breaks off within exactly one frame (`cut_frames`).
-/

import Mathlib.Algebra.Order.Ring.Nat
import Mathlib.Data.List.Basic
import Mathlib.Data.Nat.Basic
import Mathlib.Tactic.Common

namespace Framing

/-- The receiving end of a stream: the bytes that are still to come before it is closed, how many bytes
each read finds, and the number of reads so far. -/
structure Inbox (β : Type) where
  bytes : List β
  ready : ℕ → ℕ
  reads : ℕ

namespace Inbox

variable {β : Type}

/-- Read at most `k` bytes: what is there, which is at least one byte until the stream is at its end. -/
def read (s : Inbox β) (k : ℕ) : List β × Inbox β :=
  let n := min k (max 1 (s.ready s.reads))
  (s.bytes.take n, { s with bytes := s.bytes.drop n, reads := s.reads + 1 })

/-- **A read** returns between one and `k` bytes, the next ones, unless there are none. -/
theorem read_spec (s : Inbox β) {k : ℕ} (hk : 0 < k) :
    (s.bytes = [] ∧ s.read k = ([], { s with reads := s.reads + 1 })) ∨
    ∃ n, 0 < n ∧ n ≤ k ∧ n ≤ s.bytes.length ∧
      s.read k = (s.bytes.take n, { s with bytes := s.bytes.drop n, reads := s.reads + 1 }) := by
  obtain ⟨bytes, ready, reads⟩ := s
  cases bytes with
  | nil => exact Or.inl ⟨rfl, by simp [read]⟩
  | cons b bytes =>
    refine Or.inr ⟨min (min k (max 1 (ready reads))) (b :: bytes).length, ?_, ?_, min_le_right _ _, ?_⟩
    · rw [List.length_cons]
      omega
    · omega
    · rw [read, List.take_eq_take_min]
      dsimp only
      rw [List.drop_eq_drop_min]

end Inbox

/-! ### The header -/

/-- A number in `width` bytes, the most significant first. -/
def bigEndian : (width : ℕ) → ℕ → List UInt8
  | 0, _ => []
  | width + 1, n => bigEndian width (n / 256) ++ [UInt8.ofNat n]

/-- The number that bytes stand for, the most significant first. -/
def ofBigEndian (bytes : List UInt8) : ℕ := bytes.foldl (fun n b => n * 256 + b.toNat) 0

@[simp] theorem length_bigEndian (width n : ℕ) : (bigEndian width n).length = width := by
  induction width generalizing n with
  | zero => rfl
  | succ width ih => rw [bigEndian, List.length_append, ih, List.length_singleton]

/-- **A number that fits is read back.** -/
theorem ofBigEndian_bigEndian {width n : ℕ} (h : n < 256 ^ width) :
    ofBigEndian (bigEndian width n) = n := by
  induction width generalizing n with
  | zero =>
    have hn : n = 0 := by simpa using h
    rw [hn]
    rfl
  | succ width ih =>
    have hdiv : n / 256 < 256 ^ width := by
      rw [Nat.pow_succ] at h
      exact Nat.div_lt_of_lt_mul (by rwa [Nat.mul_comm])
    have hhead : ofBigEndian (bigEndian width (n / 256)) = n / 256 := ih hdiv
    rw [bigEndian, ofBigEndian, List.foldl_append]
    show ofBigEndian (bigEndian width (n / 256)) * 256 + (UInt8.ofNat n).toNat = n
    rw [hhead, UInt8.toNat_ofNat']
    omega

/-! ### Frames -/

/-- A message behind its length. -/
def frame (width : ℕ) (m : List UInt8) : List UInt8 := bigEndian width m.length ++ m

/-- Messages one after the other. -/
def frames (width : ℕ) (msgs : List (List UInt8)) : List UInt8 := msgs.flatMap (frame width)

variable {width : ℕ}

@[simp] theorem frames_nil : frames width [] = [] := rfl

@[simp] theorem frames_cons (m : List UInt8) (msgs : List (List UInt8)) :
    frames width (m :: msgs) = frame width m ++ frames width msgs := List.flatMap_cons

theorem frames_append (msgs msgs' : List (List UInt8)) :
    frames width (msgs ++ msgs') = frames width msgs ++ frames width msgs' := List.flatMap_append

/-- **Where a stream breaks off**: behind some whole frames, within the next one. -/
theorem cut_frames {msgs : List (List UInt8)} {p : List UInt8} (hp : p <+: frames width msgs)
    (hstrict : p ≠ frames width msgs) :
    ∃ k m q, msgs[k]? = some m ∧ p = frames width (msgs.take k) ++ q ∧ q <+: frame width m ∧
      q.length < (frame width m).length := by
  induction msgs generalizing p with
  | nil => exact absurd (List.prefix_nil.1 hp) hstrict
  | cons m msgs ih =>
    rw [frames_cons] at hp hstrict
    rcases Nat.lt_or_ge p.length (frame width m).length with hlt | hge
    · have hq := List.prefix_of_prefix_length_le hp (List.prefix_append _ _) (Nat.le_of_lt hlt)
      exact ⟨0, m, p, rfl, rfl, hq, hlt⟩
    -- the first frame is whole, and the rest breaks off within the others
    obtain ⟨p', rfl⟩ := List.prefix_of_prefix_length_le (List.prefix_append _ _) hp hge
    obtain ⟨k, m', q, hk, rfl, hq, hlt⟩ := ih ((List.prefix_append_right_inj _).1 hp)
      fun h => hstrict (by rw [h])
    exact ⟨k + 1, m', q, hk, by rw [List.take_succ_cons, frames_cons, List.append_assoc], hq, hlt⟩

end Framing
