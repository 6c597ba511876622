/-
# Insertion-ordered dictionaries with counted values

A dictionary keeps its keys in insertion order and overwrites in place.  It is
Mathlib's `AList`, whose entry list runs from the newest key to the oldest one,
so `Dict.items` reverses it.  Two facts are added to Mathlib's lookup lemmas.

`Dict.total` adds a weight over all entries, in any commutative monoid, and
taking one entry out or putting one in changes the total by the weight of that
entry alone (`Dict.total_eq`, `Dict.total_insert`).

`AList.replace` overwrites a value without moving its key; its lookups are those
of `insert` (`Dict.lookup_replace`, `Dict.lookup_replace_ne`).
-/

import Mathlib.Data.List.AList
import Mathlib.Algebra.BigOperators.Group.List.Basic
import Mathlib.Algebra.Order.Group.Multiset

/-- A dictionary from `κ` to `ν`: an association list without repeated keys. -/
abbrev Dict (κ ν : Type) : Type := AList fun _ : κ => ν

namespace Dict

variable {κ ν : Type}

/-- The key/value pairs in insertion order. -/
def items (d : Dict κ ν) : List (κ × ν) := d.entries.reverse.map fun e => (e.1, e.2)

/-- The sum of a weight over all entries. -/
def total {M : Type} [AddCommMonoid M] (w : κ → ν → M) (d : Dict κ ν) : M :=
  (d.entries.map fun e => w e.1 e.2).sum

section Total

/-- A member of a sum of multisets comes from one of the entries. -/
theorem mem_entries_of_mem_total {β : Type} {w : κ → ν → Multiset β} {d : Dict κ ν} {b : β}
    (h : b ∈ total w d) : ∃ e ∈ d.entries, b ∈ w e.1 e.2 := by
  unfold total at h
  generalize d.entries = l at h
  induction l with
  | nil => exact absurd h (Multiset.notMem_zero b)
  | cons e l ih =>
    rw [List.map_cons, List.sum_cons, Multiset.mem_add] at h
    rcases h with h | h
    · exact ⟨e, List.mem_cons_self, h⟩
    · obtain ⟨e', he', hb⟩ := ih h
      exact ⟨e', List.mem_cons_of_mem _ he', hb⟩

variable {M N : Type} [AddCommMonoid M] [AddCommMonoid N]

/-- A homomorphism goes through the sum. -/
theorem map_total (f : M →+ N) (w : κ → ν → M) (d : Dict κ ν) :
    f (total w d) = total (fun k v => f (w k v)) d := by
  rw [total, map_list_sum, List.map_map]
  rfl

end Total

variable [DecidableEq κ]

/-- Erasing a key that is not there changes nothing. -/
theorem erase_of_notMem {d : Dict κ ν} {k : κ} (h : k ∉ d) : d.erase k = d :=
  AList.ext (List.kerase_of_notMem_keys h)

/-- A key looked up with a value is a key. -/
theorem mem_of_lookup {d : Dict κ ν} {k : κ} {v : ν} (h : d.lookup k = some v) : k ∈ d :=
  AList.lookup_isSome.1 (by rw [h]; rfl)

/-- A pair is an entry iff looking its key up gives its value. -/
theorem mem_entries_iff {d : Dict κ ν} {k : κ} {v : ν} :
    (⟨k, v⟩ : Sigma fun _ : κ => ν) ∈ d.entries ↔ d.lookup k = some v :=
  (AList.mem_lookup_iff (s := d)).symm

theorem mem_items_iff {d : Dict κ ν} {k : κ} {v : ν} :
    (k, v) ∈ d.items ↔ d.lookup k = some v := by
  rw [← mem_entries_iff, items, List.mem_map]
  constructor
  · rintro ⟨⟨k', v'⟩, he, h⟩
    obtain ⟨rfl, rfl⟩ := Prod.mk.inj h
    exact List.mem_reverse.1 he
  · intro h
    exact ⟨⟨k, v⟩, List.mem_reverse.2 h, rfl⟩

omit [DecidableEq κ] in
/-- The items come in the order of insertion, the keys with the newest first. -/
theorem map_fst_items (d : Dict κ ν) : d.items.map Prod.fst = d.keys.reverse := by
  rw [items, List.map_map, AList.keys, List.keys, ← List.map_reverse]
  rfl

omit [DecidableEq κ] in
/-- No key is listed twice. -/
theorem nodup_items (d : Dict κ ν) : (d.items.map Prod.fst).Nodup := by
  rw [map_fst_items, List.nodup_reverse]
  exact d.keys_nodup

section Total

variable {M : Type} [AddCommMonoid M]

/-- **An entry taken out takes its weight out.** -/
theorem total_eq (w : κ → ν → M) {d : Dict κ ν} {k : κ} {v : ν} (h : d.lookup k = some v) :
    total w d = w k v + total w (d.erase k) := by
  obtain ⟨v', l₁, l₂, h₁, hd, he⟩ := List.exists_of_kerase (AList.mem_keys.1 (mem_of_lookup h))
  have hv : (⟨k, v'⟩ : Sigma fun _ : κ => ν) ∈ d.entries := by rw [hd]; simp
  rw [mem_entries_iff, h] at hv
  obtain rfl := Option.some.inj hv
  have he' : (d.erase k).entries = l₁ ++ l₂ := he
  rw [total, total, hd, he']
  simp only [List.map_append, List.map_cons, List.sum_append, List.sum_cons]
  exact add_left_comm _ _ _

/-- **An entry put in replaces the weight of the one it overwrites.** -/
theorem total_insert (w : κ → ν → M) (d : Dict κ ν) (k : κ) (v : ν) :
    total w (d.insert k v) = w k v + total w (d.erase k) := by
  rw [total, AList.entries_insert, List.map_cons, List.sum_cons]
  rfl

theorem total_insert_of_notMem (w : κ → ν → M) {d : Dict κ ν} {k : κ} (h : k ∉ d) (v : ν) :
    total w (d.insert k v) = w k v + total w d := by
  rw [total_insert, erase_of_notMem h]

/-- Overwriting a value in place by one of the same weight keeps the total. -/
theorem total_replace (w : κ → ν → M) {d : Dict κ ν} {k : κ} {v v' : ν} (h : d.lookup k = some v)
    (hw : w k v' = w k v) : total w (d.replace k v') = total w d := by
  have hl : ∀ l : List (Sigma fun _ : κ => ν), List.dlookup k l = some v →
      ((List.kreplace k v' l).map fun e => w e.1 e.2).sum = (l.map fun e => w e.1 e.2).sum := by
    intro l
    induction l with
    | nil => intro hk; exact absurd hk (by simp)
    | cons e l ih =>
      intro hk
      by_cases hke : k = e.1
      · subst hke
        rw [List.dlookup_cons_eq] at hk
        rw [List.kreplace, List.lookmap_cons_some (b := ⟨e.1, v'⟩) _ _ (by simp)]
        simp only [List.map_cons, List.sum_cons, hw, ← Option.some.inj hk]
      · rw [List.dlookup_cons_ne _ _ hke] at hk
        rw [List.kreplace, List.lookmap_cons_none _ _ (by simp [hke])]
        simp only [List.map_cons, List.sum_cons]
        exact congrArg _ (ih hk)
  exact hl d.entries h

end Total

/-- Overwriting in place is found by the next lookup of that key. -/
theorem lookup_replace {d : Dict κ ν} {k : κ} (h : k ∈ d) (v : ν) :
    (d.replace k v).lookup k = some v := by
  have hl : ∀ l : List (Sigma fun _ : κ => ν), k ∈ l.keys →
      List.dlookup k (List.kreplace k v l) = some v := by
    intro l
    induction l with
    | nil => intro hk; exact absurd hk List.not_mem_nil
    | cons e l ih =>
      intro hk
      by_cases hke : k = e.1
      · rw [List.kreplace, List.lookmap_cons_some (b := ⟨k, v⟩) _ _ (by simp [hke])]
        exact List.dlookup_cons_eq l k v
      · rw [List.kreplace, List.lookmap_cons_none _ _ (by simp [hke]),
          List.dlookup_cons_ne _ _ hke]
        rw [List.keys_cons, List.mem_cons] at hk
        exact ih (hk.resolve_left hke)
  exact hl d.entries (AList.mem_keys.1 h)

/-- Overwriting in place leaves every other key alone. -/
theorem lookup_replace_ne {d : Dict κ ν} {k k' : κ} (h : k' ≠ k) (v : ν) :
    (d.replace k v).lookup k' = d.lookup k' := by
  have hl : ∀ l : List (Sigma fun _ : κ => ν),
      List.dlookup k' (List.kreplace k v l) = List.dlookup k' l := by
    intro l
    induction l with
    | nil => rfl
    | cons e l ih =>
      by_cases hke : k = e.1
      · rw [List.kreplace, List.lookmap_cons_some (b := ⟨k, v⟩) _ _ (by simp [hke]),
          List.dlookup_cons_ne _ _ h, List.dlookup_cons_ne _ _ (hke ▸ h)]
      · rw [List.kreplace, List.lookmap_cons_none _ _ (by simp [hke])]
        by_cases hke' : k' = e.1
        · subst hke'
          rw [List.dlookup_cons_eq, List.dlookup_cons_eq]
        · rw [List.dlookup_cons_ne _ _ hke', List.dlookup_cons_ne _ _ hke']
          exact ih
  exact hl d.entries

end Dict
