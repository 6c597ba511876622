/-
# UTF-8 with U+FFFD for what is not a character

The words are core's `String.utf8EncodeChar`, and a list of bytes is a word iff core
decodes it to a character of its length.  What may still become a word is Table 3-7 of
the Unicode standard, well-formed byte sequences (`begins`): it is held back, and
replaced as a whole if it is not completed.  All that the decoder needs of the encoding
is in `utf8Encode_bytes`.
-/

import Mathlib.Tactic.Common
import DiSpec.Lib.Lossy

namespace Utf8

/-- A byte in a range. -/
def between (lo hi : ℕ) (b : UInt8) : Bool := decide (lo ≤ b.toNat ∧ b.toNat ≤ hi)

/-- The second bytes that may follow a first byte. -/
def second (b₀ : UInt8) : UInt8 → Bool :=
  if b₀.toNat = 0xE0 then between 0xA0 0xBF
  else if b₀.toNat = 0xED then between 0x80 0x9F
  else if b₀.toNat = 0xF0 then between 0x90 0xBF
  else if b₀.toNat = 0xF4 then between 0x80 0x8F
  else between 0x80 0xBF

/-- The beginnings of the encodings of two to four bytes. -/
def begins : List UInt8 → Bool
  | [b₀] => between 0xC2 0xF4 b₀
  | [b₀, b₁] => between 0xE0 0xF4 b₀ && second b₀ b₁
  | [b₀, b₁, b₂] => between 0xF0 0xF4 b₀ && second b₀ b₁ && between 0x80 0xBF b₂
  | _ => false

/-- What a list of bytes is. -/
def status (l : List UInt8) : Status Char :=
  match l.toByteArray.utf8DecodeChar? 0 with
  | some c => if c.utf8Size = l.length then .done c else .bad
  | none => if begins l then .more else .bad

/-! ### The encoding -/

theorem between_iff {lo hi : ℕ} {b : UInt8} : between lo hi b = true ↔ lo ≤ b.toNat ∧ b.toNat ≤ hi :=
  decide_eq_true_iff

/-- A second byte continues. -/
theorem second_tail {b₀ b₁ : UInt8} (h : second b₀ b₁ = true) : between 0x80 0xBF b₁ = true := by
  rw [between_iff]
  unfold second at h
  split_ifs at h
  all_goals
    rw [between_iff] at h
    omega

/-- **The bytes of an encoding**: its beginnings, and that it ends in a continuation. -/
theorem utf8Encode_bytes (c : Char) :
    (∃ b₀ : UInt8, String.utf8EncodeChar c = [b₀] ∧ b₀.toNat < 0x80) ∨
    (∃ b₀ b₁, String.utf8EncodeChar c = [b₀, b₁] ∧ begins [b₀] = true ∧ between 0x80 0xBF b₁ = true) ∨
    (∃ b₀ b₁ b₂, String.utf8EncodeChar c = [b₀, b₁, b₂] ∧ begins [b₀] = true ∧ begins [b₀, b₁] = true ∧
      between 0x80 0xBF b₂ = true) ∨
    ∃ b₀ b₁ b₂ b₃, String.utf8EncodeChar c = [b₀, b₁, b₂, b₃] ∧ begins [b₀] = true ∧
      begins [b₀, b₁] = true ∧ begins [b₀, b₁, b₂] = true ∧ between 0x80 0xBF b₃ = true := by
  have hvalid : c.val.toNat < 0xD800 ∨ 0xDFFF < c.val.toNat ∧ c.val.toNat < 0x110000 := c.valid
  rw [String.utf8EncodeChar]
  generalize c.val.toNat = v at hvalid
  split_ifs with h₁ h₂ h₃
  · exact Or.inl ⟨_, rfl, by rw [UInt8.toNat_ofNat']; omega⟩
  · refine Or.inr (Or.inl ⟨_, _, rfl, ?_, ?_⟩)
    · rw [begins, between_iff, UInt8.toNat_ofNat']
      omega
    · rw [between_iff, UInt8.toNat_ofNat']
      omega
  · refine Or.inr (Or.inr (Or.inl ⟨_, _, _, rfl, ?_, ?_, ?_⟩))
    · rw [begins, between_iff, UInt8.toNat_ofNat']
      omega
    · rw [begins, Bool.and_eq_true, between_iff, second, UInt8.toNat_ofNat']
      refine ⟨by omega, ?_⟩
      split_ifs
      all_goals
        rw [between_iff, UInt8.toNat_ofNat']
        omega
    · rw [between_iff, UInt8.toNat_ofNat']
      omega
  · have hsecond :
        second (UInt8.ofNat (v / 262144 % 8 + 240)) (UInt8.ofNat (v / 4096 % 64 + 128)) = true := by
      rw [second, UInt8.toNat_ofNat']
      split_ifs
      all_goals
        rw [between_iff, UInt8.toNat_ofNat']
        omega
    have hfirst : ∀ lo, lo ≤ 0xF0 →
        between lo 0xF4 (UInt8.ofNat (v / 262144 % 8 + 240)) = true := fun lo hlo => by
      rw [between_iff, UInt8.toNat_ofNat']
      omega
    have htail : ∀ n, between 0x80 0xBF (UInt8.ofNat (n % 64 + 128)) = true := fun n => by
      rw [between_iff, UInt8.toNat_ofNat']
      omega
    refine Or.inr (Or.inr (Or.inr ⟨_, _, _, _, rfl, hfirst _ (by decide), ?_, ?_, htail v⟩))
    · rw [begins, hfirst _ (by decide), hsecond]
      rfl
    · rw [begins, hfirst _ (by decide), hsecond, htail]
      rfl

/-- A beginning that is longer than its first byte ends in a continuation. -/
theorem begins_concat {l : List UInt8} {b : UInt8} (hl : l ≠ []) (h : begins (l ++ [b]) = true) :
    between 0x80 0xBF b = true := by
  match l with
  | [b₀] => exact second_tail (Bool.and_eq_true_iff.1 h).2
  | [b₀, b₁] => exact (Bool.and_eq_true_iff.1 h).2
  | b₀ :: b₁ :: b₂ :: l => cases l <;> cases h

/-- A word that is longer than its first byte ends in a continuation. -/
theorem utf8Encode_concat {c : Char} {l : List UInt8} {b : UInt8} (hl : l ≠ [])
    (h : l ++ [b] = String.utf8EncodeChar c) : between 0x80 0xBF b = true := by
  have hlast : (String.utf8EncodeChar c).getLast? = some b := by
    rw [← h, List.getLast?_concat]
  have hlen := congrArg List.length h
  rcases utf8Encode_bytes c with ⟨b₀, hc, -⟩ | ⟨b₀, b₁, hc, -, ht⟩ | ⟨b₀, b₁, b₂, hc, -, -, ht⟩ |
    ⟨b₀, b₁, b₂, b₃, hc, -, -, -, ht⟩ <;> rw [hc] at hlast hlen
  · rw [List.length_append] at hlen
    exact absurd (List.length_eq_zero_iff.1 (Nat.succ.inj hlen)) hl
  all_goals exact Option.some.inj hlast ▸ ht

/-- The first byte of a word is no continuation. -/
theorem utf8Encode_head {c : Char} {b : UInt8} {t : List UInt8} (h : b :: t = String.utf8EncodeChar c) :
    between 0x80 0xBF b = false := by
  have hfirst : begins [b] = true ∨ b.toNat < 0x80 := by
    rcases utf8Encode_bytes c with ⟨b₀, hc, hb⟩ | ⟨b₀, b₁, hc, hb, -⟩ | ⟨b₀, b₁, b₂, hc, hb, -, -⟩ |
      ⟨b₀, b₁, b₂, b₃, hc, hb, -, -, -⟩ <;> rw [hc, List.cons.injEq] at h
    · exact Or.inr (h.1 ▸ hb)
    all_goals exact Or.inl (h.1 ▸ hb)
  rw [← Bool.not_eq_true, between_iff]
  rcases hfirst with hb | hb
  · rw [begins, between_iff] at hb
    omega
  · omega

/-! ### The code -/

theorem decode_encode (c : Char) : (String.utf8EncodeChar c).toByteArray.utf8DecodeChar? 0 = some c := by
  have h := ByteArray.utf8DecodeChar?_utf8EncodeChar_append (b := ByteArray.empty) (c := c)
  rwa [ByteArray.append_empty] at h

/-- What core decodes stands at the front. -/
theorem prefix_of_decode {l : List UInt8} {c : Char} (h : l.toByteArray.utf8DecodeChar? 0 = some c) :
    String.utf8EncodeChar c <+: l := by
  obtain ⟨b, hb⟩ := ByteArray.exists_of_utf8DecodeChar?_eq_some h
  refine ⟨b.data.toList, ?_⟩
  simpa using (congrArg (fun x => x.data.toList) hb).symm

theorem status_eq_done {l : List UInt8} {c : Char} :
    status l = .done c ↔ l = String.utf8EncodeChar c := by
  constructor
  · intro h
    rw [status] at h
    cases hd : l.toByteArray.utf8DecodeChar? 0 with
    | none =>
      rw [hd] at h
      simp only at h
      split at h <;> cases h
    | some d =>
      rw [hd] at h
      simp only at h
      split at h
      next hlen =>
        cases h
        exact ((prefix_of_decode hd).eq_of_length (by rw [String.length_utf8EncodeChar, hlen])).symm
      next => cases h
  · rintro rfl
    rw [status, decode_encode]
    exact if_pos (String.length_utf8EncodeChar c).symm

/-- The beginnings of a word are recognised. -/
theorem begins_of_word {c : Char} {l q : List UInt8} (hl : l ≠ []) (hq : q ≠ [])
    (h : l ++ q = String.utf8EncodeChar c) : begins l = true := by
  have hlq : 1 ≤ l.length ∧ 1 ≤ q.length := ⟨List.length_pos_iff.2 hl, List.length_pos_iff.2 hq⟩
  have htake : l = (String.utf8EncodeChar c).take l.length := by
    rw [← h, List.take_left]
  have hlen := congrArg List.length h
  rw [List.length_append] at hlen
  rcases utf8Encode_bytes c with ⟨b₀, hc, -⟩ | ⟨b₀, b₁, hc, h₁, -⟩ | ⟨b₀, b₁, b₂, hc, h₁, h₂, -⟩ |
    ⟨b₀, b₁, b₂, b₃, hc, h₁, h₂, h₃, -⟩ <;> rw [hc] at hlen htake
  · exact absurd hlen (by simp only [List.length_singleton]; omega)
  · obtain hn : l.length = 1 := by simp only [List.length_cons, List.length_nil] at hlen; omega
    rw [htake, hn]
    exact h₁
  · obtain hn | hn : l.length = 1 ∨ l.length = 2 := by
      simp only [List.length_cons, List.length_nil] at hlen
      omega
    · rw [htake, hn]
      exact h₁
    · rw [htake, hn]
      exact h₂
  · obtain hn | hn | hn : l.length = 1 ∨ l.length = 2 ∨ l.length = 3 := by
      simp only [List.length_cons, List.length_nil] at hlen
      omega
    · rw [htake, hn]
      exact h₁
    · rw [htake, hn]
      exact h₂
    · rw [htake, hn]
      exact h₃

theorem status_eq_more {c : Char} {l q : List UInt8} (hl : l ≠ []) (hq : q ≠ [])
    (h : l ++ q = String.utf8EncodeChar c) : status l = .more := by
  rw [status]
  cases hd : l.toByteArray.utf8DecodeChar? 0 with
  | none => exact if_pos (begins_of_word hl hq h)
  | some d =>
    -- a word inside a word would be all of it
    have hc : some d = some c := by
      rw [← decode_encode c, ← h, List.toByteArray_append]
      exact (ByteArray.utf8DecodeChar?_append_eq_some hd _).symm
    obtain rfl := Option.some.inj hc
    have hle := (prefix_of_decode hd).length_le
    have hpos := List.length_pos_iff.2 hq
    rw [← h, List.length_append] at hle
    omega

theorem status_lead {c : Char} {l t : List UInt8} {b : UInt8} (hl : l ≠ [])
    (h : b :: t = String.utf8EncodeChar c) : status (l ++ [b]) = .bad := by
  have hb := utf8Encode_head h
  cases hs : status (l ++ [b]) with
  | done d =>
    rw [utf8Encode_concat hl (status_eq_done.1 hs)] at hb
    cases hb
  | more =>
    rw [status] at hs
    split at hs
    · split at hs <;> cases hs
    · split at hs
      next hbegins =>
        rw [begins_concat hl hbegins] at hb
        cases hb
      next => cases hs
  | bad => rfl

/-- **UTF-8**, with U+FFFD for what is not a character. -/
def utf8 : LossyCode UInt8 Char where
  enc := String.utf8EncodeChar
  status := status
  repl := '\uFFFD'
  status_eq_done := status_eq_done
  status_eq_more := status_eq_more
  status_lead := status_lead

/-- The bytes of a character, a lone first byte, and a sequence broken off by the next character. -/
example : utf8.decode [0xC3, 0xA9] = ['é'] ∧ utf8.decode [0xC3] = ['\uFFFD'] ∧
    utf8.decode [0xE2, 0x82, 0x41] = ['\uFFFD', 'A'] := by decide +kernel

end Utf8
