/-
# Runners that stand in for the native one

A runner stands for a model (`StandsFor`) if on the batches that a scheduler builds its forward is the native
one, results and pool alike.  The batches are those that pack (`Packs`): room for every token, blocks of the
pool, distinct new slots.

The Triton backend is one, in exact arithmetic (`forwardTriton_packs`): a batch of single tokens that packs is
an all-decode batch, in which each sequence writes its token to the last slot of its context.
-/

import DiSpec.Engine.Causal
import DiSpec.Engine.TritonDecode

namespace DiSpec

open Transformer Segment

section

variable {X D R : Type} [Zero D] [Add X]

/-- **A runner that does what the native one does** with every batch that packs. -/
structure ModelRunner.StandsFor (runner : ModelRunner X D R) (T : Transformer X D R) : Prop where
  forward : ∀ (c : PagedKVCache D) (segs : List (Segment D)), c.numKvHeads = T.numKvHeads → Packs c segs →
    runner.forward (tokens segs) (positions segs) (slots c.blockSize segs) (segs.map info) c =
      T.forward (tokens segs) (positions segs) (slots c.blockSize segs) (segs.map info) c
  logits : ∀ hidden, runner.logits hidden = T.logits hidden

end

variable {D : Type}

/-- The slots of a batch of single tokens are the last ones of their contexts. -/
theorem slots_of_single (bs : ℕ) {segs : List (Segment D)} (h : ∀ s ∈ segs, s.len = 1) :
    slots bs segs = (segs.map info).map (SeqMeta.lastSlot bs) := by
  induction segs with
  | nil => rfl
  | cons s segs ih =>
    have hs := h s List.mem_cons_self
    have hlast : SeqMeta.lastSlot bs s.info = Paging.slotAt bs s.blockIds s.start := by
      rw [SeqMeta.lastSlot, info, hs, Nat.add_sub_cancel]
    rw [List.map_cons, List.map_cons, ← ih fun s' hs' => h s' (List.mem_cons_of_mem _ hs'), hlast, slots,
      entries_cons, hs, List.map_append]
    rfl

/-- A batch of single tokens that packs is an all-decode batch. -/
theorem decodes_of_single {c : PagedKVCache D} {segs : List (Segment D)} (hpacks : Packs c segs)
    (h : ∀ s ∈ segs, s.len = 1) : Decodes c (segs.map info) := by
  have hinfo : ∀ x ∈ segs.map info, ∃ s ∈ segs, x = s.info := fun x hx => by
    obtain ⟨s, hs, rfl⟩ := List.mem_map.1 hx
    exact ⟨s, hs, rfl⟩
  refine ⟨hpacks.blockSize_pos, fun x hx => ?_, fun x hx => ?_, fun x hx => ?_, fun x hx => ?_⟩
  all_goals obtain ⟨s, hs, rfl⟩ := hinfo x hx
  · exact h s hs
  · exact (h s hs).ge.trans (Nat.le_add_left _ _)
  · exact hpacks.room s hs
  · exact hpacks.inPool s hs

/-- **The forward on the Triton backend** is the native one on every batch that packs. -/
theorem forwardTriton_packs {d : ℕ} {X R : Type} [Add X] (T : Transformer X (Fin d → ℝ) R)
    (hattn : T.attn = sdpa) (hgqa : T.numKvHeads ∣ T.numHeads) {c : PagedKVCache (Fin d → ℝ)}
    {segs : List (Segment (Fin d → ℝ))} (hshape : c.numKvHeads = T.numKvHeads) (hpacks : Packs c segs) :
    T.forwardTriton (tokens segs) (positions segs) (slots c.blockSize segs) (segs.map info) c =
      some (T.forward (tokens segs) (positions segs) (slots c.blockSize segs) (segs.map info) c) := by
  by_cases h : ∀ s ∈ segs, s.len = 1
  · have hslots := slots_of_single c.blockSize h
    rw [hslots]
    exact forwardTriton_eq T hattn hgqa hshape (decodes_of_single hpacks h) (hslots ▸ hpacks.distinct) _ _
  · -- some sequence has no single token: no batch of single tokens
    rw [Transformer.forwardTriton, if_neg]
    rintro ⟨-, hall⟩
    exact h fun s hs => hall _ (List.mem_map_of_mem hs)

end DiSpec
