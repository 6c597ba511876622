/-
# Decoding with replacement, and texts put together by length

A code (`LossyCode`) gives each character a word, such that no word begins inside another
one.  The decoder goes through the input once, holding back the beginning of a word that
may still be completed; a beginning that cannot be completed, or that the input ends in,
is replaced by one replacement character.

The decoding of a prefix of the input is a prefix of the decoding of the whole unless the
cut falls inside the word of a character, which is then still a replacement character
before the cut (`decode_prefix_iff`).

A text that is put together from decodings of longer and longer prefixes, each cut at the
length of what was put together so far (`cut`), is the decoding of the whole iff no
character other than the replacement is split between two pieces (`cut_texts_iff`).
-/

import Mathlib.Data.List.Induction
import Mathlib.Tactic.Common

/-- What a list of symbols is: the word of a character, the beginning of one, or neither. -/
inductive Status (C : Type)
  | done (c : C)
  | more
  | bad

/-- A code whose words are recognised symbol by symbol, and whose first symbols stand
nowhere else in a word. -/
structure LossyCode (B C : Type) where
  enc : C → List B
  status : List B → Status C
  repl : C
  status_eq_done : ∀ {l c}, status l = .done c ↔ l = enc c
  status_eq_more : ∀ {c l q}, l ≠ [] → q ≠ [] → l ++ q = enc c → status l = .more
  status_lead : ∀ {c l b t}, l ≠ [] → b :: t = enc c → status (l ++ [b]) = .bad

namespace LossyCode

variable {B C : Type} (K : LossyCode B C)

/-! ### The decoder -/

/-- A symbol with nothing held back: the characters decoded, and what is held back. -/
def start (b : B) : List C × List B :=
  match K.status [b] with
  | .done c => ([c], [])
  | .more => ([], [b])
  | .bad => ([K.repl], [])

/-- A symbol after `p`, which is held back. -/
def feed (p : List B) (b : B) : List C × List B :=
  match p with
  | [] => K.start b
  | _ :: _ =>
    match K.status (p ++ [b]) with
    | .done c => ([c], [])
    | .more => ([], p ++ [b])
    | .bad => (K.repl :: (K.start b).1, (K.start b).2)

/-- A list of symbols after `p`. -/
def scan (p : List B) : List B → List C × List B
  | [] => ([], p)
  | b :: l => ((K.feed p b).1 ++ (scan (K.feed p b).2 l).1, (scan (K.feed p b).2 l).2)

/-- What is held back when the input ends. -/
def flush : List B → List C
  | [] => []
  | _ :: _ => [K.repl]

/-- The decoding of what comes after `p`. -/
def decodeFrom (p l : List B) : List C := (K.scan p l).1 ++ K.flush (K.scan p l).2

/-- **Decoding with replacement.** -/
def decode (l : List B) : List C := K.decodeFrom [] l

variable {K}

theorem scan_append (p u v : List B) :
    K.scan p (u ++ v) =
      ((K.scan p u).1 ++ (K.scan (K.scan p u).2 v).1, (K.scan (K.scan p u).2 v).2) := by
  induction u generalizing p with
  | nil => rfl
  | cons b u ih =>
    rw [List.cons_append, scan, scan, ih]
    simp only [List.append_assoc]

theorem decodeFrom_cons (p : List B) (b : B) (l : List B) :
    K.decodeFrom p (b :: l) = (K.feed p b).1 ++ K.decodeFrom (K.feed p b).2 l := by
  rw [decodeFrom, decodeFrom, scan, List.append_assoc]

/-- The decoding of a longer input starts with what the shorter one decodes for good. -/
theorem decode_append (u v : List B) :
    K.decode (u ++ v) = (K.scan [] u).1 ++ K.decodeFrom (K.scan [] u).2 v := by
  rw [decode, decodeFrom, decodeFrom, scan_append, List.append_assoc]

theorem decode_eq (u : List B) : K.decode u = (K.scan [] u).1 ++ K.flush (K.scan [] u).2 := rfl

/-! ### What is held back -/

/-- A symbol is decoded, held back, or replaced. -/
theorem start_eq (b : B) :
    (∃ c, [b] = K.enc c ∧ K.start b = ([c], [])) ∨ K.start b = ([], [b]) ∨ K.start b = ([K.repl], []) := by
  unfold start
  cases h : K.status [b] with
  | done c => exact Or.inl ⟨c, K.status_eq_done.1 h, rfl⟩
  | more => exact Or.inr (Or.inl rfl)
  | bad => exact Or.inr (Or.inr rfl)

/-- A symbol completes what is held back, is held back too, or shows that it is to be replaced. -/
theorem feed_eq {p : List B} (hp : p ≠ []) (b : B) :
    (∃ c, p ++ [b] = K.enc c ∧ K.feed p b = ([c], [])) ∨ K.feed p b = ([], p ++ [b]) ∨
      K.feed p b = (K.repl :: (K.start b).1, (K.start b).2) := by
  cases p with
  | nil => exact absurd rfl hp
  | cons a p =>
    unfold feed
    simp only
    cases h : K.status (a :: p ++ [b]) with
    | done c => exact Or.inl ⟨c, K.status_eq_done.1 h, rfl⟩
    | more => exact Or.inr (Or.inl rfl)
    | bad => exact Or.inr (Or.inr rfl)

/-- What is held back is the end of the input. -/
theorem scan_suffix (p u : List B) : ∃ w, p ++ u = w ++ (K.scan p u).2 := by
  induction u generalizing p with
  | nil => exact ⟨[], by rw [List.append_nil]; rfl⟩
  | cons b u ih =>
    obtain ⟨w, hw⟩ := ih (K.feed p b).2
    have hfeed : ∃ x, p ++ [b] = x ++ (K.feed p b).2 := by
      have hstart : ∃ x, [b] = x ++ (K.start b).2 := by
        rcases K.start_eq b with ⟨c, -, h⟩ | h | h <;> rw [h]
        · exact ⟨[b], rfl⟩
        · exact ⟨[], rfl⟩
        · exact ⟨[b], rfl⟩
      obtain ⟨x, hx⟩ := hstart
      cases p with
      | nil => exact ⟨x, hx⟩
      | cons a p =>
        rcases K.feed_eq (List.cons_ne_nil a p) b with ⟨c, -, h⟩ | h | h <;> rw [h]
        · exact ⟨a :: p ++ [b], (List.append_nil _).symm⟩
        · exact ⟨[], rfl⟩
        · exact ⟨a :: p ++ x, by rw [List.append_assoc, ← hx]⟩
    obtain ⟨x, hx⟩ := hfeed
    refine ⟨x ++ w, ?_⟩
    rw [scan, List.append_assoc, ← hw, ← List.append_assoc, ← hx, List.append_assoc]
    rfl

/-- **A word is found wherever it stands**: its beginning is held back, and nothing else. -/
theorem scan_word {c : C} {q : List B} (p₀ p : List B) (hp : p ≠ []) (hq : q ≠ [])
    (h : p ++ q = K.enc c) : (K.scan p₀ p).2 = p := by
  induction p using List.reverseRecOn generalizing q with
  | nil => exact absurd rfl hp
  | append_singleton p b ih =>
    rw [scan_append, scan, scan]
    simp only
    cases p with
    | nil =>
      have hmore : K.status [b] = .more := K.status_eq_more (List.cons_ne_nil _ _) hq h
      have hstart : K.start b = ([], [b]) := by rw [start, hmore]
      rw [scan]
      cases p₀ with
      | nil => rw [feed, hstart]; rfl
      | cons a p₀ =>
        rw [feed, K.status_lead (List.cons_ne_nil a p₀) h, hstart]
        rfl
    | cons a p =>
      rw [ih (List.cons_ne_nil _ _) (List.cons_ne_nil b q) (by rw [← h, List.append_assoc]; rfl), feed,
        K.status_eq_more hp hq h]

/-- A word whose beginning is held back is decoded. -/
theorem decodeFrom_word {c : C} {p q : List B} (hp : p ≠ []) (hq : q ≠ []) (h : p ++ q = K.enc c)
    (v : List B) : ∃ t, K.decodeFrom p (q ++ v) = c :: t := by
  induction q generalizing p with
  | nil => exact absurd rfl hq
  | cons b q ih =>
    rw [List.cons_append, decodeFrom_cons]
    cases p with
    | nil => exact absurd rfl hp
    | cons a p =>
      cases q with
      | nil =>
        rw [feed, K.status_eq_done.2 h]
        exact ⟨_, rfl⟩
      | cons b' q =>
        have h' : a :: p ++ [b] ++ b' :: q = K.enc c := by rw [← h, List.append_assoc]; rfl
        have hne : a :: p ++ [b] ≠ [] := List.cons_ne_nil _ _
        rw [feed, K.status_eq_more hne (List.cons_ne_nil _ _) h']
        exact ih hne (List.cons_ne_nil _ _) h'

/-- What is held back is completed to a word, or replaced. -/
theorem decodeFrom_head {p : List B} (hp : p ≠ []) (l : List B) :
    (∃ c q v, q ≠ [] ∧ l = q ++ v ∧ p ++ q = K.enc c) ∨ ∃ t, K.decodeFrom p l = K.repl :: t := by
  induction l generalizing p with
  | nil =>
    cases p with
    | nil => exact absurd rfl hp
    | cons a p => exact Or.inr ⟨[], rfl⟩
  | cons b l ih =>
    rw [decodeFrom_cons]
    rcases K.feed_eq hp b with ⟨c, hc, -⟩ | h | h
    · exact Or.inl ⟨c, [b], l, List.cons_ne_nil _ _, rfl, hc⟩
    · rw [h]
      rcases ih (List.append_ne_nil_of_left_ne_nil hp [b]) with ⟨c, q, v, -, rfl, hc⟩ | ht
      · exact Or.inl ⟨c, b :: q, v, List.cons_ne_nil _ _, rfl, by rw [← hc, List.append_assoc]; rfl⟩
      · exact Or.inr ht
    · rw [h]
      exact Or.inr ⟨_, rfl⟩

/-! ### Prefixes of the input -/

/-- The cut after `w` falls inside the word of a character other than the replacement. -/
def Splits (K : LossyCode B C) (w v : List B) : Prop :=
  ∃ u c x, c ≠ K.repl ∧ w ++ v = u ++ K.enc c ++ x ∧ u.length < w.length ∧
    w.length < u.length + (K.enc c).length

/-- A word that is split is held back before the cut and completed after it. -/
theorem Splits.held {w v : List B} (h : Splits K w v) :
    ∃ c p q x, c ≠ K.repl ∧ p ≠ [] ∧ q ≠ [] ∧ p ++ q = K.enc c ∧ v = q ++ x ∧ (K.scan [] w).2 = p := by
  obtain ⟨u, c, x, hc, heq, hlt, hgt⟩ := h
  rw [List.append_assoc] at heq
  obtain ⟨p, rfl⟩ : u <+: w := List.prefix_of_prefix_length_le ⟨_, heq.symm⟩ ⟨v, rfl⟩ (by omega)
  rw [List.append_assoc, List.append_cancel_left_eq] at heq
  rw [List.length_append] at hlt hgt
  obtain ⟨q, hq⟩ : p <+: K.enc c := List.prefix_of_prefix_length_le ⟨v, heq⟩ ⟨x, rfl⟩ (by omega)
  have hlen := congrArg List.length hq
  rw [List.length_append] at hlen
  have hp : p ≠ [] := List.length_pos_iff.1 (by omega)
  have hq' : q ≠ [] := List.length_pos_iff.1 (by omega)
  refine ⟨c, p, q, x, hc, hp, hq', hq, ?_, ?_⟩
  · rw [← hq, List.append_assoc, List.append_cancel_left_eq] at heq
    exact heq
  · rw [scan_append]
    exact scan_word _ p hp hq' hq

/-- **The decoding of a prefix is a prefix of the decoding**, unless a character is split. -/
theorem decode_prefix_iff (w v : List B) : K.decode w <+: K.decode (w ++ v) ↔ ¬ Splits K w v := by
  rw [decode_append, decode_eq, List.prefix_append_right_inj]
  constructor
  · intro hpre hsplit
    obtain ⟨c, p, q, x, hc, hp, hq, h, rfl, hheld⟩ := hsplit.held
    obtain ⟨t, ht⟩ := decodeFrom_word hp hq h x
    rw [hheld, ht] at hpre
    cases p with
    | nil => exact hp rfl
    | cons a p => exact hc (List.cons_prefix_cons.1 hpre).1.symm
  · intro hsplit
    obtain ⟨u, hu⟩ := K.scan_suffix [] w
    rw [List.nil_append] at hu
    generalize (K.scan [] w).2 = p at hu ⊢
    cases p with
    | nil => exact List.nil_prefix
    | cons a p =>
      have hp : a :: p ≠ [] := List.cons_ne_nil a p
      obtain ⟨t, ht⟩ : ∃ t, K.decodeFrom (a :: p) v = K.repl :: t := by
        rcases decodeFrom_head hp v with ⟨c, q, x, hq, rfl, h⟩ | ht
        · obtain ⟨t, ht⟩ := decodeFrom_word hp hq h x
          refine ⟨t, ht.trans (congrArg (· :: t) (by_contra fun hc => hsplit ⟨u, c, x, hc, ?_, ?_, ?_⟩))⟩
          · rw [hu, ← h, List.append_assoc, List.append_assoc, List.append_assoc]
          · rw [hu, List.length_append, List.length_cons]
            omega
          · have := List.length_pos_iff.2 hq
            rw [hu, ← h, List.length_append, List.length_append]
            omega
        · exact ht
      rw [ht]
      exact List.cons_prefix_cons.2 ⟨rfl, List.nil_prefix⟩

/-! ### Texts put together by length -/

/-- The text put together from texts each of which is cut at the length so far. -/
def cut (ds : List (List C)) : List C := ds.foldl (fun s d => s ++ d.drop s.length) []

theorem cut_concat (ds : List (List C)) (d : List C) :
    cut (ds ++ [d]) = cut ds ++ d.drop (cut ds).length := by
  rw [cut, List.foldl_append]
  rfl

/-- What was put together stays. -/
theorem cut_prefix_append (ds ds' : List (List C)) : cut ds <+: cut (ds ++ ds') := by
  induction ds' using List.reverseRecOn with
  | nil =>
    rewrite [List.append_nil]
    exact List.prefix_refl _
  | append_singleton ds' d ih =>
    rw [← List.append_assoc, cut_concat]
    exact ih.trans (List.prefix_append _ _)

/-- From prefixes of one text comes a prefix of it. -/
theorem cut_prefix {ds : List (List C)} {t : List C} (h : ∀ d ∈ ds, d <+: t) : cut ds <+: t := by
  induction ds using List.reverseRecOn with
  | nil => exact List.nil_prefix
  | append_singleton ds d ih =>
    obtain ⟨x, hx⟩ := ih fun d hd => h d (List.mem_append_left _ hd)
    obtain ⟨y, hy⟩ := h d (List.mem_append_right _ (List.mem_singleton_self d))
    rw [cut_concat]
    rcases Nat.le_total (cut ds).length d.length with hle | hle
    · obtain ⟨z, rfl⟩ := List.prefix_of_prefix_length_le ⟨x, hx⟩ ⟨y, hy⟩ hle
      rw [List.drop_left]
      exact ⟨y, hy⟩
    · rw [List.drop_of_length_le hle, List.append_nil]
      exact ⟨x, hx⟩

/-- Each text is as short as what is put together. -/
theorem length_le_cut {ds : List (List C)} {d : List C} (h : d ∈ ds) : d.length ≤ (cut ds).length := by
  induction ds using List.reverseRecOn with
  | nil => exact absurd h List.not_mem_nil
  | append_singleton ds d' ih =>
    rw [cut_concat, List.length_append, List.length_drop]
    rcases List.mem_append.1 h with h | h
    · have := ih h
      omega
    · obtain rfl := List.mem_singleton.1 h
      omega

/-- What is put together comes from the texts, place by place. -/
theorem getElem?_cut {ds : List (List C)} {i : ℕ} {c : C} (h : (cut ds)[i]? = some c) :
    ∃ d ∈ ds, d[i]? = some c := by
  induction ds using List.reverseRecOn with
  | nil => exact absurd h (by simp [cut])
  | append_singleton ds d ih =>
    rw [cut_concat] at h
    rcases Nat.lt_or_ge i (cut ds).length with hi | hi
    · rw [List.getElem?_append_left hi] at h
      obtain ⟨d', hd', hc⟩ := ih h
      exact ⟨d', List.mem_append_left _ hd', hc⟩
    · rw [List.getElem?_append_right hi, List.getElem?_drop, Nat.add_sub_cancel' hi] at h
      exact ⟨d, List.mem_append_right _ (List.mem_singleton_self d), h⟩

/-- The decodings of the prefixes of an input that comes in pieces. -/
def texts (K : LossyCode B C) (pieces : List (List B)) : List (List C) :=
  (List.range pieces.length).map fun k => K.decode (pieces.take (k + 1)).flatten

/-- A place of the text put together is one of a shorter prefix's decoding, which a replacement
ends if the place is beyond what the prefix decodes for good. -/
theorem texts_getElem? {pieces : List (List B)} {j k : ℕ} (hjk : j ≤ k) {c : C}
    (h : (K.decode (pieces.take j).flatten)[(K.scan [] (pieces.take k).flatten).1.length]? = some c) :
    c = K.repl := by
  obtain ⟨v, hv⟩ : (pieces.take j).flatten <+: (pieces.take k).flatten := by
    obtain ⟨x, hx⟩ := List.take_prefix_take_left hjk (l := pieces)
    exact ⟨x.flatten, by rw [← hx, List.flatten_append]⟩
  rw [← hv, scan_append, decode_eq, List.length_append, List.getElem?_append_right (by omega)] at h
  generalize (K.scan [] (pieces.take j).flatten).2 = p at h
  cases p with
  | nil => exact absurd h (by simp [flush])
  | cons a p =>
    obtain ⟨hlt, hc⟩ := List.getElem?_eq_some_iff.1 h
    exact (List.mem_singleton.1 (hc ▸ List.getElem_mem hlt : c ∈ [K.repl]))

/-- If the text put together is the decoding of the whole, every prefix's decoding is a prefix of it. -/
theorem prefix_of_cut {pieces : List (List B)} (h : cut (K.texts pieces) = K.decode pieces.flatten) {k : ℕ}
    (hk : k + 1 < pieces.length) :
    K.decode (pieces.take (k + 1)).flatten <+: K.decode pieces.flatten := by
  have hwhole : pieces.flatten = (pieces.take (k + 1)).flatten ++ (pieces.drop (k + 1)).flatten := by
    rw [← List.flatten_append, List.take_append_drop]
  -- what the first `k + 1` texts put together
  set A := (List.range (k + 1)).map fun i => K.decode (pieces.take (i + 1)).flatten with hA
  have hcut : cut A <+: K.decode pieces.flatten := by
    obtain ⟨m, hm⟩ := Nat.exists_eq_add_of_lt hk
    rw [← h, texts, hm, Nat.add_assoc, List.range_add, List.map_append]
    exact cut_prefix_append _ _
  have hlen : (K.decode (pieces.take (k + 1)).flatten).length ≤ (cut A).length :=
    length_le_cut (List.mem_map.2 ⟨k, List.mem_range.2 (Nat.lt_succ_self k), rfl⟩)
  have hplace : ∀ i c, (cut A)[i]? = some c → i = (K.scan [] (pieces.take (k + 1)).flatten).1.length →
      c = K.repl := by
    rintro i c hc rfl
    obtain ⟨d, hd, hdc⟩ := getElem?_cut hc
    obtain ⟨j, hj, rfl⟩ := List.mem_map.1 hd
    exact texts_getElem? (List.mem_range.1 hj) hdc
  rw [hwhole, decode_append] at hcut ⊢
  rw [decode_eq, List.length_append] at hlen
  rw [decode_eq, List.prefix_append_right_inj]
  generalize K.decodeFrom (K.scan [] (pieces.take (k + 1)).flatten).2 (pieces.drop (k + 1)).flatten = t
    at hcut ⊢
  generalize (K.scan [] (pieces.take (k + 1)).flatten).2 = p at hlen ⊢
  generalize (K.scan [] (pieces.take (k + 1)).flatten).1 = out at hcut hlen hplace
  cases p with
  | nil => exact List.nil_prefix
  | cons a p =>
    have hlt : out.length < (cut A).length := by
      rw [flush, List.length_singleton] at hlen
      omega
    obtain ⟨y, hy⟩ := hcut
    have hc := hplace out.length _ (List.getElem?_eq_getElem hlt) rfl
    have hat : (cut A ++ y)[out.length]? = some K.repl := by
      rw [List.getElem?_append_left hlt, List.getElem?_eq_getElem hlt, hc]
    rw [hy, List.getElem?_append_right (Nat.le_refl _), Nat.sub_self] at hat
    cases t with
    | nil => cases hat
    | cons c t =>
      obtain rfl := Option.some.inj hat
      exact List.cons_prefix_cons.2 ⟨rfl, List.nil_prefix⟩

/-- **Put together from its prefixes a text is the decoding of the whole** iff no character
other than the replacement is split between two pieces. -/
theorem cut_texts_iff (pieces : List (List B)) :
    cut (K.texts pieces) = K.decode pieces.flatten ↔
      ∀ k, ¬ Splits K (pieces.take k).flatten (pieces.drop k).flatten := by
  have hwhole : ∀ k, (pieces.take k).flatten ++ (pieces.drop k).flatten = pieces.flatten := fun k => by
    rw [← List.flatten_append, List.take_append_drop]
  have hiff : ∀ k, K.decode (pieces.take k).flatten <+: K.decode pieces.flatten ↔
      ¬ Splits K (pieces.take k).flatten (pieces.drop k).flatten := fun k => by
    rw [← decode_prefix_iff, hwhole]
  constructor
  · intro h k
    rw [← hiff]
    rcases Nat.lt_or_ge k pieces.length with hk | hk
    · cases k with
      | zero => exact List.nil_prefix
      | succ k => exact prefix_of_cut h hk
    · rewrite [List.take_of_length_le hk]
      exact List.prefix_refl _
  · intro h
    have hpre : cut (K.texts pieces) <+: K.decode pieces.flatten := cut_prefix fun d hd => by
      obtain ⟨k, -, rfl⟩ := List.mem_map.1 hd
      exact (hiff _).2 (h _)
    refine hpre.eq_of_length_le ?_
    rcases List.eq_nil_or_concat pieces with rfl | ⟨l, x, rfl⟩
    · exact Nat.le_refl _
    · refine length_le_cut (List.mem_map.2 ⟨l.length, ?_, ?_⟩)
      · rw [List.mem_range, List.length_concat]
        omega
      · rw [List.take_of_length_le (Nat.le_of_eq List.length_concat)]

end LossyCode
