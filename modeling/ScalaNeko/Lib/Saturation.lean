import Mathlib.Data.Finset.Card
import Mathlib.Logic.Function.Iterate
import Mathlib.Logic.Relation

/-!
Passes over a finite set that add successors of its elements, and what repeating them ends with.
-/

open Relation (ReflTransGen)

namespace Saturation

variable {α : Type}

-- `b` can be reached from an element of `s`.
def From (r : α → α → Prop) (s : Finset α) (b : α) : Prop := ∃ a, a ∈ s ∧ ReflTransGen r a b

/--
A pass adds nothing that cannot be reached. If it adds nothing at all, the set is closed.
-/
structure Pass (r : α → α → Prop) (pass : Finset α → Finset α) : Prop where
  grows : ∀ s, s ⊆ pass s
  sound : ∀ s b, b ∈ pass s → From r s b
  closed : ∀ s, pass s = s → ∀ a b, a ∈ s → r a b → b ∈ s

variable {r : α → α → Prop} {s t u : Finset α} {pass : Finset α → Finset α}

theorem From.of_mem {b : α} (h : b ∈ s) : From r s b := ⟨b, h, .refl⟩

theorem From.trans {b : α} (h : ∀ a, a ∈ t → From r s a) (hb : From r t b) : From r s b := by
  obtain ⟨a, ha, hab⟩ := hb
  obtain ⟨c, hc, hca⟩ := h a ha
  exact ⟨c, hc, hca.trans hab⟩

-- A closed set holds what can be reached from it.
theorem From.mem {b : α} (h : From r s b) (hst : s ⊆ t) (hclosed : ∀ a b, a ∈ t → r a b → b ∈ t)
    : b ∈ t := by
  obtain ⟨a, ha, hab⟩ := h
  induction hab with
  | refl => exact hst ha
  | tail _ hbc ih => exact hclosed _ _ ih hbc

namespace Pass

theorem sound_iterate (h : Pass r pass) (k : Nat) {b : α} (hb : b ∈ pass^[k] s) : From r s b := by
  induction k generalizing b with
  | zero => exact .of_mem hb
  | succ k ih =>
    rw [Function.iterate_succ_apply'] at hb
    exact From.trans (fun a => ih) (h.sound _ b hb)

theorem grows_iterate (h : Pass r pass) (k : Nat) : s ⊆ pass^[k] s := by
  induction k with
  | zero => exact Finset.Subset.refl s
  | succ k ih =>
    rw [Function.iterate_succ_apply']
    exact ih.trans (h.grows _)

/--
Repeated until nothing changes, a pass collects exactly what can be reached.
-/
theorem mem_iff_of_fixed (h : Pass r pass) {k : Nat} (hfixed : pass (pass^[k] s) = pass^[k] s) (b : α)
    : b ∈ pass^[k] s ↔ From r s b := by
  constructor
  . exact h.sound_iterate k
  . intro hb
    exact hb.mem (h.grows_iterate k) (h.closed _ hfixed)

-- Once nothing changes, nothing changes any more.
theorem iterate_of_fixed {k n : Nat} (hfixed : pass (pass^[k] s) = pass^[k] s) (hle : k ≤ n)
    : pass^[n] s = pass^[k] s := by
  obtain ⟨d, rfl⟩ := Nat.exists_eq_add_of_le' hle
  rw [Function.iterate_add_apply]
  exact Function.iterate_fixed hfixed d

variable [DecidableEq α]

/--
Each pass that changes something takes an element from those that are missing in a closed set.
-/
theorem exists_fixed (h : Pass r pass) (hsu : s ⊆ u) (hclosed : ∀ a b, a ∈ u → r a b → b ∈ u)
    : ∃ k, k ≤ (u \ s).card ∧ pass (pass^[k] s) = pass^[k] s := by
  induction hn : (u \ s).card using Nat.strongRecOn generalizing s with
  | ind n ih =>
    by_cases hfixed : pass s = s
    . exact ⟨0, Nat.zero_le _, hfixed⟩
    . have hpass : pass s ⊆ u := fun b hb => (h.sound s b hb).mem hsu hclosed
      obtain ⟨b, hb, hnew⟩ := Finset.exists_of_ssubset
        ((Finset.ssubset_iff_subset_ne).mpr ⟨h.grows s, Ne.symm hfixed⟩)
      have hlt : (u \ pass s).card < n := by
        rw [← hn]
        apply Finset.card_lt_card
        rw [Finset.ssubset_iff_of_subset (Finset.sdiff_subset_sdiff (Finset.Subset.refl u) (h.grows s))]
        exact ⟨b, Finset.mem_sdiff.mpr ⟨hpass hb, hnew⟩, fun hmem => (Finset.mem_sdiff.mp hmem).2 hb⟩
      obtain ⟨k, hk, hfixed'⟩ := ih _ hlt hpass rfl
      exact ⟨k + 1, by omega, hfixed'⟩

end Pass

end Saturation
