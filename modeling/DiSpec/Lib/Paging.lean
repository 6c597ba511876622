/-
# Paged address translation

A page table `ids` lists the physical pages of a logical sequence, pages having
`bs` slots.  Logical position `p` lives in page number `p / bs` of the table, at
offset `p % bs`; its slot is a flat index.  Over a table without repetition the
translation is injective, and tables without a common page share no slot.
-/

import Mathlib.Data.List.Nodup
import Mathlib.Data.List.GetD

namespace Paging

/-- The flat slot of logical position `p` (`0` is the page of a position past the
table, which no caller translates). -/
def slotAt (bs : ℕ) (ids : List ℕ) (p : ℕ) : ℕ := ids.getD (p / bs) 0 * bs + p % bs

variable {bs : ℕ} {ids ids' : List ℕ} {p q : ℕ}

theorem div_lt (hbs : 0 < bs) (h : p < ids.length * bs) : p / bs < ids.length :=
  (Nat.div_lt_iff_lt_mul hbs).2 h

/-- The page of a slot. -/
theorem slotAt_div (hbs : 0 < bs) (ids : List ℕ) (p : ℕ) :
    slotAt bs ids p / bs = ids.getD (p / bs) 0 := by
  rw [slotAt, Nat.mul_comm, Nat.mul_add_div hbs, Nat.div_eq_of_lt (Nat.mod_lt _ hbs), Nat.add_zero]

/-- The offset of a slot. -/
theorem slotAt_mod (ids : List ℕ) (p : ℕ) : slotAt bs ids p % bs = p % bs := by
  rw [slotAt, Nat.mul_comm, Nat.mul_add_mod, Nat.mod_mod]

/-- The page of a slot within the table is one of its pages. -/
theorem slotAt_div_mem (hbs : 0 < bs) (h : p < ids.length * bs) : slotAt bs ids p / bs ∈ ids := by
  rw [slotAt_div hbs, List.getD_eq_getElem _ _ (div_lt hbs h)]
  exact List.getElem_mem _

theorem slotAt_of_getElem? {b : ℕ} (h : ids[p / bs]? = some b) : slotAt bs ids p = b * bs + p % bs := by
  rw [slotAt, List.getD_eq_getElem?_getD, h]
  rfl

/-- **The translation is injective** over a table without repetition. -/
theorem slotAt_inj (hbs : 0 < bs) (hn : ids.Nodup) (hp : p < ids.length * bs)
    (hq : q < ids.length * bs) (h : slotAt bs ids p = slotAt bs ids q) : p = q := by
  have hdiv : p / bs = q / bs := by
    have := congrArg (· / bs) h
    simp only [slotAt_div hbs, List.getD_eq_getElem _ _ (div_lt hbs hp),
      List.getD_eq_getElem _ _ (div_lt hbs hq)] at this
    exact (List.Nodup.getElem_inj_iff hn).1 this
  have hmod : p % bs = q % bs := by
    have := congrArg (· % bs) h
    simpa only [slotAt_mod] using this
  rw [← Nat.div_add_mod p bs, ← Nat.div_add_mod q bs, hdiv, hmod]

/-- **Tables without a common page share no slot.** -/
theorem slotAt_ne (hbs : 0 < bs) (hd : ∀ b ∈ ids, b ∉ ids') (hp : p < ids.length * bs)
    (hq : q < ids'.length * bs) : slotAt bs ids p ≠ slotAt bs ids' q := by
  intro h
  refine hd _ (slotAt_div_mem hbs hp) ?_
  rw [h]
  exact slotAt_div_mem hbs hq

/-- A slot lies in the pool if its page does. -/
theorem slotAt_lt {n : ℕ} (hbs : 0 < bs) (hb : ∀ b ∈ ids, b < n) (hp : p < ids.length * bs) :
    slotAt bs ids p < n * bs := by
  have h := hb _ (slotAt_div_mem hbs hp)
  exact (Nat.div_lt_iff_lt_mul hbs).1 h

/-- Pages appended to a table move no position. -/
theorem slotAt_append (hbs : 0 < bs) (new : List ℕ) (hp : p < ids.length * bs) :
    slotAt bs (ids ++ new) p = slotAt bs ids p := by
  rw [slotAt, slotAt, List.getD_append _ _ _ _ (div_lt hbs hp)]

/-- Pages dropped past a position do not move it. -/
theorem slotAt_take (hbs : 0 < bs) {k : ℕ} (hp : p < k * bs) :
    slotAt bs (ids.take k) p = slotAt bs ids p := by
  have hk : p / bs < k := (Nat.div_lt_iff_lt_mul hbs).2 hp
  rw [slotAt, slotAt, List.getD_eq_getElem?_getD, List.getD_eq_getElem?_getD,
    List.getElem?_take_of_lt hk]

end Paging
