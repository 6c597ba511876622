/-
# JSON texts

`dumps` writes a value as Python's `json.dumps` does: items between `", "`, a key before `": "`, and
in a string what is not printable ASCII as `\uXXXX`, beyond the basic plane as two surrogates.  The
numbers are the integers.

`loads` reads any JSON text without fractions and exponents: white space, every escape of the
grammar, hexadecimal digits of either case.  Its recursion is bounded by the length of the text.

What was written is read back (`loads_dumps`), and what is written is one line of printable ASCII
(`dumps_printable`).
-/

import Mathlib.Algebra.Order.Ring.Int
import Mathlib.Data.List.Basic
import Mathlib.Tactic.Common

/-- A JSON value.  The members of an object are in the order of the text. -/
inductive Json
  | null
  | bool (b : Bool)
  | int (n : ℤ)
  | str (s : List Char)
  | arr (elems : List Json)
  | obj (members : List (List Char × Json))

namespace Json

/-- The member of an object; the last one counts. -/
def member? (key : List Char) : Json → Option Json
  | obj members => (members.reverse.find? (·.1 = key)).map (·.2)
  | _ => none

/-- The element of an array. -/
def elem? (i : ℕ) : Json → Option Json
  | arr elems => elems[i]?
  | _ => none

/-! ### Writing -/

/-- The characters with an escape of one letter, and that letter. -/
def letters : List (Char × Char) :=
  [('\"', '\"'), ('\\', '\\'), ('\n', 'n'), ('\r', 'r'), ('\t', 't'), ('\x0c', 'f'), ('\x08', 'b')]

/-- A code unit in four hexadecimal digits. -/
def hex (u : ℕ) : List Char := [u / 4096 % 16, u / 256 % 16, u / 16 % 16, u % 16].map Nat.digitChar

/-- The UTF-16 code units of a character. -/
def units (c : Char) : List ℕ :=
  if c.toNat < 0x10000 then [c.toNat]
  else [0xD800 + (c.toNat - 0x10000) / 0x400, 0xDC00 + (c.toNat - 0x10000) % 0x400]

/-- A printable character of ASCII. -/
def printable (c : Char) : Bool := decide (' '.toNat ≤ c.toNat ∧ c.toNat ≤ '~'.toNat)

/-- A character of a string. -/
def escape (c : Char) : List Char :=
  match letters.lookup c with
  | some l => ['\\', l]
  | none => if printable c then [c] else (units c).flatMap fun u => '\\' :: 'u' :: hex u

/-- A string. -/
def quote (s : List Char) : List Char := '\"' :: (s.flatMap escape ++ ['\"'])

mutual

/-- `json.dumps`. -/
def dumps : Json → List Char
  | null => "null".toList
  | bool true => "true".toList
  | bool false => "false".toList
  | int (.ofNat n) => Nat.toDigits 10 n
  | int (.negSucc n) => '-' :: Nat.toDigits 10 (n + 1)
  | str s => quote s
  | arr elems => '[' :: (", ".toList.intercalate (dumpsElems elems) ++ [']'])
  | obj members => '{' :: (", ".toList.intercalate (dumpsMembers members) ++ ['}'])

/-- The texts of the elements of an array. -/
def dumpsElems : List Json → List (List Char)
  | [] => []
  | j :: elems => dumps j :: dumpsElems elems

/-- The texts of the members of an object. -/
def dumpsMembers : List (List Char × Json) → List (List Char)
  | [] => []
  | (key, j) :: members => (quote key ++ (": ".toList ++ dumps j)) :: dumpsMembers members

end

/-! ### Reading -/

/-- White space. -/
def space (c : Char) : Bool := c = ' ' ∨ c = '\n' ∨ c = '\r' ∨ c = '\t'

/-- What follows white space. -/
def skip (cs : List Char) : List Char := cs.dropWhile space

/-- What follows a fixed text. -/
def after (text cs : List Char) : Option (List Char) :=
  if text <+: cs then some (cs.drop text.length) else none

/-- The value of a hexadecimal digit. -/
def hexValue (c : Char) : Option ℕ :=
  if '0'.toNat ≤ c.toNat ∧ c.toNat ≤ '9'.toNat then some (c.toNat - '0'.toNat)
  else if 'a'.toNat ≤ c.toNat ∧ c.toNat ≤ 'f'.toNat then some (c.toNat - 'a'.toNat + 10)
  else if 'A'.toNat ≤ c.toNat ∧ c.toNat ≤ 'F'.toNat then some (c.toNat - 'A'.toNat + 10)
  else none

/-- So many hexadecimal digits after those of a value. -/
def readHex : ℕ → ℕ → List Char → Option (ℕ × List Char)
  | 0, v, cs => some (v, cs)
  | _ + 1, _, [] => none
  | k + 1, v, c :: cs => (hexValue c).bind fun d => readHex k (16 * v + d) cs

/-- A code unit, and after a high surrogate the low one that must follow it. -/
def readUnits (cs : List Char) : Option (Char × List Char) :=
  (readHex 4 0 cs).bind fun p =>
    if 0xD800 ≤ p.1 ∧ p.1 < 0xDC00 then
      (after ['\\', 'u'] p.2).bind fun cs => (readHex 4 0 cs).bind fun q =>
        if 0xDC00 ≤ q.1 ∧ q.1 < 0xE000 then
          some (.ofNat (0x10000 + (p.1 - 0xD800) * 0x400 + (q.1 - 0xDC00)), q.2)
        else none
    else if 0xDC00 ≤ p.1 ∧ p.1 < 0xE000 then none
    else some (.ofNat p.1, p.2)

/-- A character of a string after a backslash. -/
def readEscape : List Char → Option (Char × List Char)
  | [] => none
  | l :: cs =>
    if l = 'u' then readUnits cs
    else if l = '/' then some ('/', cs)
    else (letters.find? (·.2 = l)).map fun p => (p.1, cs)

/-- A character of a string. -/
def readChar : List Char → Option (Char × List Char)
  | [] => none
  | c :: cs =>
    if c = '\\' then readEscape cs
    else if c = '\"' ∨ c.toNat < ' '.toNat then none
    else some (c, cs)

/-- A string after its first quotation mark. -/
def readStr : ℕ → List Char → Option (List Char × List Char)
  | 0, _ => none
  | n + 1, cs =>
    if cs.head? = some '\"' then some ([], cs.tail)
    else (readChar cs).bind fun p => (readStr n p.2).map fun q => (p.1 :: q.1, q.2)

/-- A natural number, without a zero before its other digits. -/
def readNat (cs : List Char) : Option (ℕ × List Char) :=
  if cs.head? = some '0' then some (0, cs.tail)
  else
    let digits := cs.takeWhile Char.isDigit
    if digits = [] then none
    else some (Nat.ofDigitChars 10 digits 0, cs.dropWhile Char.isDigit)

/-- The literals. -/
def literals : List (List Char × Json) :=
  [("null".toList, null), ("true".toList, bool true), ("false".toList, bool false)]

/-- A literal or an integer. -/
def readScalar (cs : List Char) : Option (Json × List Char) :=
  match literals.find? (·.1 <+: cs) with
  | some (text, j) => some (j, cs.drop text.length)
  | none =>
    if cs.head? = some '-' then (readNat cs.tail).map fun p => (int (-p.1), p.2)
    else (readNat cs).map fun p => (int p.1, p.2)

section

variable {α : Type} (item : List Char → Option (α × List Char)) (close : Char)

/-- The items up to a closing bracket, of which there is one at least. -/
def readItems : ℕ → List Char → Option (List α × List Char)
  | 0, _ => none
  | n + 1, cs => (item cs).bind fun p =>
    match skip p.2 with
    | [] => none
    | c :: cs =>
      if c = close then some ([p.1], cs)
      else if c = ',' then (readItems n (skip cs)).map fun q => (p.1 :: q.1, q.2)
      else none

/-- The items between brackets, after the first bracket. -/
def readClosed (n : ℕ) (cs : List Char) : Option (List α × List Char) :=
  if (skip cs).head? = some close then some ([], (skip cs).tail)
  else readItems item close n (skip cs)

end

/-- A member of an object, with bounds for its key and its value. -/
def readMember (n : ℕ) (value : List Char → Option (Json × List Char)) (cs : List Char) :
    Option ((List Char × Json) × List Char) :=
  (after ['\"'] cs).bind fun cs => (readStr n cs).bind fun p =>
    (after [':'] (skip p.2)).bind fun cs => (value (skip cs)).map fun q => ((p.1, q.1), q.2)

/-- A value that starts at the first character, with a bound. -/
def readValue : ℕ → List Char → Option (Json × List Char)
  | 0, _ => none
  | n + 1, cs =>
    if cs.head? = some '\"' then (readStr n cs.tail).map fun p => (str p.1, p.2)
    else if cs.head? = some '[' then
      (readClosed (readValue n) ']' n cs.tail).map fun p => (arr p.1, p.2)
    else if cs.head? = some '{' then
      (readClosed (readMember n (readValue n)) '}' n cs.tail).map fun p => (obj p.1, p.2)
    else readScalar cs

/-- `json.loads`: a value, and nothing but white space around it. -/
def loads (cs : List Char) : Option Json :=
  (readValue cs.length (skip cs)).bind fun p => if skip p.2 = [] then some p.1 else none

/-! ### Strings -/

theorem hexValue_digitChar : ∀ u < 16, hexValue (Nat.digitChar u) = some u := by
  decide

/-- A code unit is read back. -/
theorem readHex_hex {u : ℕ} (hu : u < 0x10000) (cs : List Char) :
    readHex 4 0 (hex u ++ cs) = some (u, cs) := by
  have hdigit : ∀ v, hexValue (Nat.digitChar (v % 16)) = some (v % 16) := fun v =>
    hexValue_digitChar _ (Nat.mod_lt v (by decide))
  rw [hex, List.map_cons, List.map_cons, List.map_cons, List.map_cons, List.map_nil]
  simp only [List.cons_append, List.nil_append, readHex, hdigit, Option.bind_some]
  refine congrArg some (Prod.ext ?_ rfl)
  dsimp only
  omega

theorem after_append (text cs : List Char) : after text (text ++ cs) = some cs := by
  rw [after, if_pos (List.prefix_append _ _), List.drop_left]

/-- A character is read back from its code units. -/
theorem readUnits_units (c : Char) (cs : List Char) :
    readUnits (((units c).flatMap fun u => '\\' :: 'u' :: hex u).drop 2 ++ cs) = some (c, cs) := by
  have hvalid : c.toNat < 0xD800 ∨ 0xDFFF < c.toNat ∧ c.toNat < 0x110000 := c.valid
  rw [units]
  by_cases hc : c.toNat < 0x10000
  · rw [if_pos hc, List.flatMap_singleton]
    show readUnits (hex c.toNat ++ cs) = _
    rw [readUnits, readHex_hex hc, Option.bind_some]
    dsimp only
    rw [if_neg (by omega), if_neg (by omega), Char.ofNat_toNat]
  · rw [if_neg hc]
    set high := 0xD800 + (c.toNat - 0x10000) / 0x400 with hhigh
    set low := 0xDC00 + (c.toNat - 0x10000) % 0x400 with hlow
    show readUnits (hex high ++ (['\\', 'u'] ++ (hex low ++ [])) ++ cs) = _
    rw [List.append_nil, List.append_assoc, List.append_assoc, readUnits, readHex_hex (by omega),
      Option.bind_some]
    dsimp only
    rw [if_pos (by omega), after_append, Option.bind_some, readHex_hex (by omega), Option.bind_some]
    dsimp only
    rw [if_pos (by omega), show 0x10000 + (high - 0xD800) * 0x400 + (low - 0xDC00) = c.toNat by omega,
      Char.ofNat_toNat]

/-- The letters, without the `u` of a code unit and the slash. -/
theorem letters_spec : ∀ p ∈ letters, p.2 ≠ 'u' ∧ p.2 ≠ '/' ∧
    letters.find? (·.2 = p.2) = some p ∧ printable p.2 = true := by
  decide

/-- **A character is read back.** -/
theorem readChar_escape (c : Char) (cs : List Char) : readChar (escape c ++ cs) = some (c, cs) := by
  rw [escape]
  rcases hl : letters.lookup c with _ | l
  · have hletters : ∀ p ∈ letters, c ≠ p.1 := by
      intro p hp
      have := List.lookup_eq_none_iff.1 hl p hp
      exact fun h => by simp [h] at this
    have hslash : c ≠ '\\' := hletters ('\\', '\\') (by decide)
    have hquote : c ≠ '\"' := hletters ('\"', '\"') (by decide)
    dsimp only
    by_cases hp : printable c = true
    · rw [if_pos hp]
      rw [printable, decide_eq_true_iff] at hp
      show readChar (c :: cs) = _
      rw [readChar, if_neg hslash, if_neg (not_or.2 ⟨hquote, not_lt.2 hp.1⟩)]
    · rw [if_neg hp, ← readUnits_units c cs]
      obtain ⟨u, us, hus⟩ : ∃ u us, units c = u :: us := by
        rw [units]
        split_ifs
        · exact ⟨_, _, rfl⟩
        · exact ⟨_, _, rfl⟩
      rw [hus]
      rfl
  · obtain ⟨before, after, hletters, -⟩ := List.lookup_eq_some_iff.1 hl
    have hmem : (c, l) ∈ letters := hletters ▸ List.mem_append_right _ (List.mem_cons_self ..)
    obtain ⟨hu, hslash, hfind, -⟩ := letters_spec _ hmem
    show readChar ('\\' :: l :: cs) = _
    rw [readChar, if_pos rfl, readEscape, if_neg hu, if_neg hslash, hfind]
    rfl

/-- No character of a string is written with a quotation mark first. -/
theorem head?_escape (c : Char) (cs : List Char) : (escape c ++ cs).head? ≠ some '\"' := by
  rw [escape]
  rcases hl : letters.lookup c with _ | l
  · dsimp only
    split_ifs
    · intro h
      obtain rfl : c = '\"' := Option.some.inj h
      exact absurd hl (by decide)
    · rw [units]
      split_ifs
      · exact fun h => absurd (Option.some.inj h) (by decide)
      · exact fun h => absurd (Option.some.inj h) (by decide)
  · exact fun h => absurd (Option.some.inj h) (by decide)

/-- **A string is read back.** -/
theorem readStr_flatMap (s cs : List Char) {n : ℕ} (hn : s.length < n) :
    readStr n (s.flatMap escape ++ '\"' :: cs) = some (s, cs) := by
  induction s generalizing n with
  | nil =>
    obtain ⟨n, rfl⟩ := Nat.exists_eq_add_one.2 hn
    rw [readStr]
    exact if_pos rfl
  | cons c s ih =>
    rw [List.length_cons] at hn
    obtain ⟨n, rfl⟩ := Nat.exists_eq_add_one.2 (Nat.zero_lt_of_lt hn)
    rw [List.flatMap_cons, List.append_assoc, readStr, if_neg (head?_escape c _), readChar_escape,
      Option.bind_some]
    dsimp only
    rw [ih (by omega)]
    rfl

/-! ### Numbers and literals -/

/-- What may follow a value: no digit. -/
def Stops (cs : List Char) : Prop := ∀ c ∈ cs.head?, c.isDigit = false

theorem toDigits_isDigit (n : ℕ) : ∀ c ∈ Nat.toDigits 10 n, c.isDigit = true := fun _ =>
  Nat.isDigit_of_mem_toDigits (by decide) (by decide)

theorem stops_dropWhile {cs : List Char} (h : Stops cs) :
    cs.takeWhile Char.isDigit = [] ∧ cs.dropWhile Char.isDigit = cs := by
  cases cs with
  | nil => exact ⟨rfl, rfl⟩
  | cons c cs =>
    have hc : c.isDigit = false := h c rfl
    rw [List.takeWhile_cons, List.dropWhile_cons, hc]
    exact ⟨rfl, rfl⟩

theorem digitChar_pos : ∀ n < 10, 0 < n → n.digitChar ≠ '0' := by
  decide

/-- The digits of a positive number do not begin with a zero. -/
theorem head?_toDigits {n : ℕ} (hn : 0 < n) (cs : List Char) :
    (Nat.toDigits 10 n ++ cs).head? ≠ some '0' := by
  induction n using Nat.strong_induction_on generalizing cs with
  | _ n ih =>
    rw [Nat.toDigits_eq_if (by decide)]
    split_ifs with h
    · exact fun hhead => digitChar_pos n h hn (Option.some.inj hhead)
    · rw [List.append_assoc]
      exact ih (n / 10) (Nat.div_lt_self hn (by decide)) (Nat.div_pos (not_lt.1 h) (by decide)) _

/-- **A natural number is read back.** -/
theorem readNat_toDigits (n : ℕ) {cs : List Char} (h : Stops cs) :
    readNat (Nat.toDigits 10 n ++ cs) = some (n, cs) := by
  obtain ⟨htake, hdrop⟩ := stops_dropWhile h
  rcases Nat.eq_zero_or_pos n with rfl | hn
  · rw [readNat]
    exact if_pos rfl
  · rw [readNat, if_neg (head?_toDigits hn cs), List.takeWhile_append_of_pos (toDigits_isDigit n), htake,
      List.append_nil, List.dropWhile_append_of_pos (toDigits_isDigit n), hdrop]
    dsimp only
    rw [if_neg Nat.toDigits_ne_nil, Nat.ofDigitChars_ten_toDigits]

/-- A text that does not begin as a literal does. -/
theorem find?_literals {c : Char} (h : c ∉ ['n', 't', 'f']) (cs : List Char) :
    literals.find? (·.1 <+: c :: cs) = none := by
  have hhead : ∀ p ∈ literals, ∃ c ∈ ['n', 't', 'f'], ∃ text, p.1 = c :: text := by
    simp [literals]
  rw [List.find?_eq_none]
  intro p hp hbegins
  obtain ⟨c', hc', text, htext⟩ := hhead p hp
  rw [decide_eq_true_iff, htext, List.cons_prefix_cons] at hbegins
  exact h (hbegins.1 ▸ hc')

/-- **A literal is read back.** -/
theorem readScalar_literal {p : List Char × Json} (h : p ∈ literals) (cs : List Char) :
    readScalar (p.1 ++ cs) = some (p.2, cs) := by
  have hfind : literals.find? (·.1 <+: p.1 ++ cs) = some p := by
    rw [literals, List.mem_cons, List.mem_cons, List.mem_singleton] at h
    rcases h with rfl | rfl | rfl <;> simp [literals, List.cons_prefix_cons]
  rw [readScalar, hfind]
  exact congrArg (fun cs => some (p.2, cs)) List.drop_left

/-- **An integer is read back.** -/
theorem readScalar_int (n : ℤ) {cs : List Char} (h : Stops cs) :
    readScalar (dumps (int n) ++ cs) = some (int n, cs) := by
  rcases n with n | n
  · obtain ⟨d, ds, hds⟩ := List.exists_cons_of_ne_nil (Nat.toDigits_ne_nil (n := n) (b := 10))
    have hd : d.isDigit = true := toDigits_isDigit n d (hds ▸ List.mem_cons_self ..)
    have hn := readNat_toDigits n h
    rw [dumps]
    rw [hds, List.cons_append] at hn ⊢
    have hlit : d ∉ ['n', 't', 'f'] := fun hm =>
      absurd ((show ∀ c ∈ ['n', 't', 'f'], c.isDigit = false by simp) d hm) (by rw [hd]; decide)
    have hminus : (d :: (ds ++ cs)).head? ≠ some '-' := fun hm => by
      obtain rfl := Option.some.inj hm
      exact absurd hd (by decide)
    rw [readScalar, find?_literals hlit]
    dsimp only
    rw [if_neg hminus, hn]
    rfl
  · rw [dumps, List.cons_append, readScalar, find?_literals (by decide)]
    dsimp only
    rw [if_pos (by rw [List.head?_cons]), List.tail_cons, readNat_toDigits (n + 1) h]
    rfl

/-! ### Arrays and objects -/

/-- A text whose first character is neither white space nor a closing bracket. -/
def Starts (close : Char) (text : List Char) : Prop :=
  ∃ c cs, text = c :: cs ∧ space c = false ∧ c ≠ close

theorem Starts.append {close : Char} {text : List Char} (h : Starts close text) (cs : List Char) :
    Starts close (text ++ cs) := by
  obtain ⟨c, rest, rfl, hc⟩ := h
  exact ⟨c, rest ++ cs, rfl, hc⟩

theorem Starts.skip {close : Char} {text : List Char} (h : Starts close text) : skip text = text := by
  obtain ⟨c, rest, rfl, hc, -⟩ := h
  rw [Json.skip, List.dropWhile_cons_of_neg (by rw [hc]; exact Bool.false_ne_true)]

theorem Starts.head? {close : Char} {text : List Char} (h : Starts close text) :
    text.head? ≠ some close := by
  obtain ⟨c, rest, rfl, -, hc⟩ := h
  exact fun heq => hc (Option.some.inj heq)

theorem skip_cons {c : Char} (h : space c = false) (cs : List Char) : skip (c :: cs) = c :: cs := by
  rw [skip, List.dropWhile_cons_of_neg (by rw [h]; exact Bool.false_ne_true)]

section

variable {α : Type} {item : List Char → Option (α × List Char)} {close : Char} {text : α → List Char}

/-- The items start as the first of them does. -/
theorem starts_intercalate {x : α} (xs : List α) (h : Starts close (text x)) :
    Starts close (", ".toList.intercalate ((x :: xs).map text)) := by
  rcases xs with _ | ⟨y, ys⟩
  · rw [List.map_cons, List.map_nil, List.intercalate_singleton]
    exact h
  · rw [List.map_cons, List.map_cons, List.intercalate_cons_cons, List.append_assoc]
    exact h.append _

/-- **Items between commas are read back**, where each is. -/
theorem readItems_intercalate (hclose : space close = false) (hcomma : close ≠ ',') (xs : List α)
    (cs : List Char) {n : ℕ} (hn : xs.length ≤ n) (hne : xs ≠ []) (hstarts : ∀ x ∈ xs, Starts close (text x))
    (hitem : ∀ x ∈ xs, ∀ c ∈ [close, ','], ∀ cs, item (text x ++ c :: cs) = some (x, c :: cs)) :
    readItems item close n (", ".toList.intercalate (xs.map text) ++ close :: cs) = some (xs, cs) := by
  induction xs generalizing n with
  | nil => exact absurd rfl hne
  | cons x xs ih =>
    rw [List.length_cons] at hn
    obtain ⟨n, rfl⟩ := Nat.exists_eq_add_one.2 (Nat.zero_lt_of_lt hn)
    have hx := hitem x (List.mem_cons_self ..)
    rcases xs with _ | ⟨y, ys⟩
    · rw [List.map_cons, List.map_nil, List.intercalate_singleton, readItems, hx close (by simp),
        Option.bind_some]
      dsimp only
      rw [skip_cons hclose]
      exact if_pos rfl
    · have htail := ih (n := n) (by omega) (List.cons_ne_nil y ys)
        (fun z hz => hstarts z (List.mem_cons_of_mem _ hz)) fun z hz => hitem z (List.mem_cons_of_mem _ hz)
      have hskip : skip (' ' :: (", ".toList.intercalate ((y :: ys).map text) ++ close :: cs)) =
          ", ".toList.intercalate ((y :: ys).map text) ++ close :: cs := by
        have hy := starts_intercalate ys (hstarts y (List.mem_cons_of_mem _ (List.mem_cons_self ..)))
        rw [skip, List.dropWhile_cons_of_pos rfl]
        exact (hy.append _).skip
      rw [List.map_cons, List.map_cons, List.intercalate_cons_cons, List.append_assoc, List.append_assoc,
        ← List.map_cons, readItems]
      show (item (text x ++ ',' :: ' ' :: _)).bind _ = _
      rw [hx ',' (by simp), Option.bind_some]
      dsimp only
      rw [skip_cons (by decide)]
      dsimp only
      rw [if_neg (Ne.symm hcomma), if_pos rfl]
      show Option.map _ (readItems item close n
        (skip (' ' :: (", ".toList.intercalate ((y :: ys).map text) ++ close :: cs)))) = _
      rw [hskip, htail]
      rfl

end

/-! ### Values -/

theorem dumpsElems_eq (elems : List Json) : dumpsElems elems = elems.map dumps := by
  induction elems with
  | nil => rfl
  | cons j elems ih => rw [dumpsElems, ih, List.map_cons]

/-- The text of a member. -/
def dumpsMember (p : List Char × Json) : List Char := quote p.1 ++ (": ".toList ++ dumps p.2)

theorem dumpsMembers_eq (members : List (List Char × Json)) :
    dumpsMembers members = members.map dumpsMember := by
  induction members with
  | nil => rfl
  | cons p members ih => rw [dumpsMembers, ih, List.map_cons, dumpsMember]

/-- The first character of an integer. -/
theorem dumps_int (n : ℤ) : ∃ c cs, dumps (int n) = c :: cs ∧ (c.isDigit = true ∨ c = '-') := by
  rcases n with n | n
  · obtain ⟨d, ds, hds⟩ := List.exists_cons_of_ne_nil (Nat.toDigits_ne_nil (n := n) (b := 10))
    rw [dumps]
    exact ⟨d, ds, hds, Or.inl (toDigits_isDigit n d (hds ▸ List.mem_cons_self ..))⟩
  · rw [dumps]
    exact ⟨_, _, rfl, Or.inr rfl⟩

/-- A text of a value starts one. -/
theorem starts_dumps {close : Char} (hclose : close ∈ [']', '}']) (j : Json) : Starts close (dumps j) := by
  have hne : ∀ c ∈ ['n', 't', 'f', '\"', '[', '{', '-'], space c = false ∧ c ∉ [']', '}'] := by
    simp [space]
  have hhead : ∀ c ∈ ['n', 't', 'f', '\"', '[', '{', '-'], space c = false ∧ c ≠ close := fun c hc =>
    ⟨(hne c hc).1, fun h => (hne c hc).2 (h ▸ hclose)⟩
  cases j with
  | null => exact ⟨_, _, rfl, hhead 'n' (by decide)⟩
  | bool b =>
    cases b with
    | true => exact ⟨_, _, rfl, hhead 't' (by decide)⟩
    | false => exact ⟨_, _, rfl, hhead 'f' (by decide)⟩
  | int n =>
    obtain ⟨c, cs, hcs, hc⟩ := dumps_int n
    refine ⟨c, cs, hcs, ?_⟩
    rcases hc with hc | rfl
    · constructor
      · by_contra hs
        rw [Bool.not_eq_false, space, decide_eq_true_iff] at hs
        rcases hs with rfl | rfl | rfl | rfl <;> exact absurd hc (by decide)
      · rintro rfl
        rw [List.mem_cons, List.mem_singleton] at hclose
        rcases hclose with rfl | rfl <;> exact absurd hc (by decide)
    · exact hhead '-' (by decide)
  | str s => exact ⟨_, _, rfl, hhead '\"' (by decide)⟩
  | arr elems => exact ⟨_, _, rfl, hhead '[' (by decide)⟩
  | obj members => exact ⟨_, _, rfl, hhead '{' (by decide)⟩

/-- A text of a member starts with a quotation mark. -/
theorem starts_dumpsMember {close : Char} (hclose : close ∈ [']', '}']) (p : List Char × Json) :
    Starts close (dumpsMember p) :=
  (starts_dumps hclose (str p.1)).append _

/-- The lengths of items between commas. -/
theorem length_intercalate (sep : List Char) (texts : List (List Char)) :
    (∀ t ∈ texts, t.length ≤ (sep.intercalate texts).length) ∧
      ((∀ t ∈ texts, t ≠ []) → texts.length ≤ (sep.intercalate texts).length) := by
  induction texts with
  | nil => exact ⟨fun t ht => absurd ht List.not_mem_nil, fun _ => Nat.zero_le _⟩
  | cons t texts ih =>
    rcases texts with _ | ⟨u, us⟩
    · rw [List.intercalate_singleton]
      refine ⟨fun v hv => (List.mem_singleton.1 hv ▸ le_rfl), fun h => ?_⟩
      exact List.length_pos_iff.2 (h t (List.mem_cons_self ..))
    · rw [List.intercalate_cons_cons, List.length_append, List.length_append, List.length_cons]
      constructor
      · intro v hv
        rcases List.mem_cons.1 hv with rfl | hv
        · omega
        · have := ih.1 v hv
          omega
      · intro h
        have h₁ := List.length_pos_iff.2 (h t (List.mem_cons_self ..))
        have h₂ := ih.2 fun v hv => h v (List.mem_cons_of_mem _ hv)
        omega

theorem readValue_scalar {c : Char} (h : c ∉ ['\"', '[', '{']) (n : ℕ) (cs : List Char) :
    readValue (n + 1) (c :: cs) = readScalar (c :: cs) := by
  rw [List.mem_cons, List.mem_cons, List.mem_singleton, not_or, not_or] at h
  obtain ⟨hquote, harr, hobj⟩ := h
  rw [readValue, List.head?_cons, if_neg fun h => hquote (Option.some.inj h),
    if_neg fun h => harr (Option.some.inj h), if_neg fun h => hobj (Option.some.inj h)]

/-- A string is not longer than its text between quotation marks. -/
theorem length_quote (s : List Char) : s.length + 2 ≤ (quote s).length := by
  have hpos : ∀ c, 0 < (escape c).length := by
    intro c
    rw [escape]
    rcases letters.lookup c with _ | l
    · dsimp only
      rw [units]
      split_ifs
      · exact Nat.one_pos
      · exact Nat.succ_pos _
      · exact Nat.succ_pos _
    · exact Nat.succ_pos _
  have hlen : s.length ≤ (s.flatMap escape).length := by
    induction s with
    | nil => exact le_rfl
    | cons c s ih =>
      rw [List.flatMap_cons, List.length_append, List.length_cons]
      have := hpos c
      omega
  rw [quote, List.length_cons, List.length_append, List.length_singleton]
  omega

/-- A string between quotation marks is read back. -/
theorem readStr_quote (s cs : List Char) {n : ℕ} (hn : (quote s).length ≤ n + 1) :
    readStr n (quote s ++ cs).tail = some (s, cs) := by
  have := length_quote s
  rw [quote, List.cons_append, List.tail_cons, List.append_assoc]
  exact readStr_flatMap s cs (by omega)

/-- **A member is read back**, where its value is. -/
theorem readMember_dumpsMember {n : ℕ} {value : List Char → Option (Json × List Char)}
    (p : List Char × Json) (cs : List Char) (hn : (dumpsMember p).length ≤ n)
    (hvalue : (dumps p.2).length ≤ n → value (dumps p.2 ++ cs) = some (p.2, cs)) :
    readMember n value (dumpsMember p ++ cs) = some (p, cs) := by
  have hlen : (quote p.1).length + (dumps p.2).length ≤ n := by
    rw [dumpsMember, List.length_append, List.length_append] at hn
    omega
  have hskip : skip (' ' :: (dumps p.2 ++ cs)) = dumps p.2 ++ cs := by
    rw [skip, List.dropWhile_cons_of_pos rfl]
    exact ((starts_dumps (show ']' ∈ [']', '}'] by decide) p.2).append cs).skip
  have hquote : after ['\"'] (dumpsMember p ++ cs) =
      some (quote p.1 ++ ([':'] ++ ' ' :: (dumps p.2 ++ cs))).tail := by
    rw [dumpsMember, List.append_assoc]
    exact after_append ['\"'] _
  rw [readMember, hquote, Option.bind_some, readStr_quote p.1 _ (by omega), Option.bind_some]
  dsimp only
  rw [List.singleton_append, skip_cons (by decide)]
  show ((after [':'] ([':'] ++ ' ' :: (dumps p.2 ++ cs))).bind _) = _
  rw [after_append, Option.bind_some, hskip, hvalue (by omega)]
  rfl

/-- **Items between brackets are read back**, where each of their lengths is. -/
theorem readClosed_intercalate {α : Type} {item : List Char → Option (α × List Char)} {close : Char}
    {text : α → List Char} (hclose : close ∈ [']', '}']) (xs : List α) (cs : List Char) {n : ℕ}
    (hn : (", ".toList.intercalate (xs.map text)).length ≤ n)
    (hstarts : ∀ x ∈ xs, Starts close (text x))
    (hitem : ∀ x ∈ xs, (text x).length ≤ n → ∀ cs, Stops cs →
      item (text x ++ cs) = some (x, cs)) :
    readClosed item close n (", ".toList.intercalate (xs.map text) ++ close :: cs) = some (xs, cs) := by
  have hbracket : ∀ c ∈ [']', '}'], space c = false ∧ c ≠ ',' ∧ c.isDigit = false := by
    simp [space]
  obtain ⟨hspace, hcomma, hdigit⟩ := hbracket close hclose
  rcases xs with _ | ⟨x, xs⟩
  · show readClosed item close n (close :: cs) = _
    rw [readClosed, skip_cons hspace]
    exact if_pos rfl
  · have hstart := starts_intercalate xs (hstarts x (List.mem_cons_self ..))
    obtain ⟨hlen, hcount⟩ := length_intercalate ", ".toList ((x :: xs).map text)
    have hne : ∀ t ∈ (x :: xs).map text, t ≠ [] := by
      intro t ht
      obtain ⟨y, hy, rfl⟩ := List.mem_map.1 ht
      obtain ⟨c, rest, htext, -⟩ := hstarts y hy
      exact htext ▸ List.cons_ne_nil c rest
    rw [readClosed, (hstart.append _).skip, if_neg (hstart.append _).head?]
    refine readItems_intercalate hspace hcomma (x :: xs) cs ?_ (List.cons_ne_nil x xs) hstarts
      fun y hy c hc cs => hitem y hy ((hlen _ (List.mem_map_of_mem hy)).trans hn) _ fun d hd => ?_
    · rw [← List.length_map text]
      exact (hcount hne).trans hn
    · obtain rfl := Option.mem_some.1 hd
      rw [List.mem_cons, List.mem_singleton] at hc
      rcases hc with rfl | rfl
      · exact hdigit
      · decide

/-- A text between brackets. -/
theorem length_brackets (c close : Char) (text : List Char) :
    (c :: (text ++ [close])).length = text.length + 2 := by
  rw [List.length_cons, List.length_append, List.length_singleton]

/-- **A value is read back.** -/
theorem readValue_dumps {n : ℕ} (j : Json) {cs : List Char} (hn : (dumps j).length ≤ n) (h : Stops cs) :
    readValue n (dumps j ++ cs) = some (j, cs) := by
  induction n generalizing j cs with
  | zero =>
    obtain ⟨c, text, htext, -⟩ := starts_dumps (show ']' ∈ [']', '}'] by decide) j
    rw [htext] at hn
    exact absurd hn (Nat.not_succ_le_zero _)
  | succ n ih =>
    cases j with
    | null =>
      rw [← readScalar_literal (p := ("null".toList, null)) (by simp [literals]) cs]
      exact readValue_scalar (by decide) n _
    | bool b =>
      cases b with
      | true =>
        rw [← readScalar_literal (p := ("true".toList, bool true)) (by simp [literals]) cs]
        exact readValue_scalar (by decide) n _
      | false =>
        rw [← readScalar_literal (p := ("false".toList, bool false)) (by simp [literals]) cs]
        exact readValue_scalar (by decide) n _
    | int m =>
      obtain ⟨c, text, htext, hc⟩ := dumps_int m
      have hscalar : c ∉ ['\"', '[', '{'] := by
        intro hm
        rw [List.mem_cons, List.mem_cons, List.mem_singleton] at hm
        rcases hm with rfl | rfl | rfl <;> exact absurd hc (by decide)
      rw [← readScalar_int m h, htext]
      exact readValue_scalar hscalar n _
    | str s =>
      rw [dumps] at hn ⊢
      rw [readValue, if_pos (by rw [quote, List.cons_append, List.head?_cons]), readStr_quote s cs hn]
      rfl
    | arr elems =>
      rw [dumps, dumpsElems_eq, length_brackets] at hn
      rw [readValue, dumps, dumpsElems_eq, List.cons_append, List.append_assoc, List.head?_cons,
        if_neg (by decide), if_pos rfl, List.tail_cons, List.singleton_append,
        readClosed_intercalate (by decide) elems cs (by omega) (fun x _ => starts_dumps (by decide) x)
          fun x _ hx cs hcs => ih x hx hcs]
      rfl
    | obj members =>
      rw [dumps, dumpsMembers_eq, length_brackets] at hn
      rw [readValue, dumps, dumpsMembers_eq, List.cons_append, List.append_assoc, List.head?_cons,
        if_neg (by decide), if_neg (by decide), if_pos rfl, List.tail_cons, List.singleton_append,
        readClosed_intercalate (by decide) members cs (by omega)
          (fun p _ => starts_dumpsMember (by decide) p)
          fun p _ hp cs hcs => readMember_dumpsMember p cs hp fun hj => ih p.2 hj hcs]
      rfl

/-- **What `dumps` writes, `loads` reads back**: every value, of strings of any characters. -/
theorem loads_dumps (j : Json) : loads (dumps j) = some j := by
  have hread := readValue_dumps j le_rfl (show Stops [] from fun c hc => absurd hc (by simp))
  rw [List.append_nil] at hread
  rw [loads, (starts_dumps (show ']' ∈ [']', '}'] by decide) j).skip, hread]
  rfl

/-! ### One line of printable characters -/

theorem escape_printable (c : Char) : ∀ d ∈ escape c, printable d = true := by
  have hhex : ∀ v, printable (Nat.digitChar (v % 16)) = true := fun v =>
    (show ∀ u < 16, printable (Nat.digitChar u) = true by decide) _ (Nat.mod_lt v (by decide))
  rw [escape]
  rcases hl : letters.lookup c with _ | l
  · dsimp only
    by_cases hp : printable c = true
    · rw [if_pos hp]
      exact fun d hd => List.mem_singleton.1 hd ▸ hp
    · rw [if_neg hp]
      intro d hd
      obtain ⟨u, -, hd⟩ := List.mem_flatMap.1 hd
      rw [hex] at hd
      simp only [List.map_cons, List.map_nil, List.mem_cons, List.not_mem_nil, or_false] at hd
      rcases hd with rfl | rfl | rfl | rfl | rfl | rfl
      · decide
      · decide
      all_goals exact hhex _
  · obtain ⟨before, after, hletters, -⟩ := List.lookup_eq_some_iff.1 hl
    have hmem : (c, l) ∈ letters := hletters ▸ List.mem_append_right _ (List.mem_cons_self ..)
    obtain ⟨-, -, -, hprint⟩ := letters_spec _ hmem
    intro d hd
    rw [List.mem_cons, List.mem_singleton] at hd
    rcases hd with rfl | rfl
    · decide
    · exact hprint

theorem quote_printable (s : List Char) : ∀ c ∈ quote s, printable c = true := by
  intro c hc
  rw [quote, List.mem_cons, List.mem_append, List.mem_singleton, List.mem_flatMap] at hc
  rcases hc with rfl | ⟨d, -, hd⟩ | rfl
  · decide
  · exact escape_printable d c hd
  · decide

theorem mem_intercalate {c : Char} {sep : List Char} {texts : List (List Char)}
    (h : c ∈ sep.intercalate texts) :
    c ∈ sep ∨ ∃ t ∈ texts, c ∈ t := by
  induction texts with
  | nil => exact absurd h List.not_mem_nil
  | cons t texts ih =>
    rcases texts with _ | ⟨u, us⟩
    · rw [List.intercalate_singleton] at h
      exact Or.inr ⟨t, List.mem_cons_self .., h⟩
    · rw [List.intercalate_cons_cons, List.mem_append, List.mem_append] at h
      rcases h with (h | h) | h
      · exact Or.inr ⟨t, List.mem_cons_self .., h⟩
      · exact Or.inl h
      · exact (ih h).imp_right fun ⟨v, hv, hc⟩ => ⟨v, List.mem_cons_of_mem _ hv, hc⟩

/-- Items between brackets are printable, where each of their lengths is. -/
theorem brackets_printable {α : Type} {text : α → List Char} {first close : Char} {xs : List α} {n : ℕ}
    (hfirst : printable first = true) (hclose : printable close = true)
    (hn : (first :: (", ".toList.intercalate (xs.map text) ++ [close])).length ≤ n + 1)
    (hitem : ∀ x ∈ xs, (text x).length ≤ n → ∀ c ∈ text x, printable c = true) :
    ∀ c ∈ first :: (", ".toList.intercalate (xs.map text) ++ [close]), printable c = true := by
  rw [length_brackets] at hn
  intro c hc
  rw [List.mem_cons, List.mem_append, List.mem_singleton] at hc
  rcases hc with rfl | hc | rfl
  · exact hfirst
  · rcases mem_intercalate hc with hc | ⟨t, ht, hc⟩
    · exact List.all_eq_true.1 (show ", ".toList.all printable = true from rfl) c hc
    · have hlen := (length_intercalate ", ".toList (xs.map text)).1 t ht
      obtain ⟨x, hx, rfl⟩ := List.mem_map.1 ht
      exact hitem x hx (by omega) c hc
  · exact hclose

/-- **What is written is printable ASCII**, so it is one line. -/
theorem dumps_printable {n : ℕ} (j : Json) (hn : (dumps j).length ≤ n) :
    ∀ c ∈ dumps j, printable c = true := by
  induction n generalizing j with
  | zero =>
    rw [List.length_eq_zero_iff.1 (Nat.le_zero.1 hn)]
    exact fun c hc => absurd hc List.not_mem_nil
  | succ n ih =>
    cases j with
    | null => exact List.all_eq_true.1 rfl
    | bool b =>
      cases b with
      | true => exact List.all_eq_true.1 rfl
      | false => exact List.all_eq_true.1 rfl
    | int m =>
      have hdigits : ∀ k, ∀ c ∈ Nat.toDigits 10 k, printable c = true := by
        intro k c hc
        obtain ⟨hlo, hhi⟩ := Char.isDigit_iff_toNat.1 (toDigits_isDigit k c hc)
        rw [printable, decide_eq_true_iff]
        exact ⟨(show ' '.toNat ≤ '0'.toNat by decide).trans hlo, hhi.trans (by decide)⟩
      rcases m with m | m
      · rw [dumps]
        exact hdigits m
      · rw [dumps]
        intro c hc
        rcases List.mem_cons.1 hc with rfl | hc
        · decide
        · exact hdigits _ c hc
    | str s =>
      rw [dumps]
      exact quote_printable s
    | arr elems =>
      rw [dumps, dumpsElems_eq] at hn ⊢
      exact brackets_printable (by decide) (by decide) hn fun x _ => ih x
    | obj members =>
      rw [dumps, dumpsMembers_eq] at hn ⊢
      refine brackets_printable (by decide) (by decide) hn fun p _ hp c hc => ?_
      rw [dumpsMember, List.length_append, List.length_append] at hp
      rw [dumpsMember, List.mem_append, List.mem_append] at hc
      rcases hc with hc | hc | hc
      · exact quote_printable p.1 c hc
      · exact List.all_eq_true.1 (show ": ".toList.all printable = true from rfl) c hc
      · exact ih p.2 (by omega) c hc

end Json
