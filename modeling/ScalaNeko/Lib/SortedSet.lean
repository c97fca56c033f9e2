import Mathlib.Data.List.Nodup
import Mathlib.Order.Defs.LinearOrder
import Mathlib.Order.Lattice

/-!
Sets that are sorted by a key, given as lists. Of two elements with the same key only the first is
kept.
-/

namespace SortedSet

variable {α κ : Type} [LinearOrder κ]

def insert (key : α → κ) (a : α) : List α → List α
  | [] => [a]
  | b :: set =>
    if key a < key b then
      a :: b :: set
    else if key b < key a then
      b :: insert key a set
    else
      b :: set

def Sorted (key : α → κ) (set : List α) : Prop := set.Pairwise (fun a b => key a < key b)

variable {key : α → κ} {a b : α} {set : List α}

theorem mem_of_mem_insert (h : b ∈ insert key a set) : b = a ∨ b ∈ set := by
  induction set with
  | nil => simpa [insert] using h
  | cons c set ih =>
    unfold insert at h
    split at h
    . simpa using h
    . split at h
      . rw [List.mem_cons] at h
        cases h with
        | inl h => exact .inr (by simp [h])
        | inr h =>
          cases ih h with
          | inl h => exact .inl h
          | inr h => exact .inr (List.mem_cons_of_mem _ h)
      . exact .inr h

theorem mem_insert_of_mem (h : b ∈ set) : b ∈ insert key a set := by
  induction set with
  | nil => cases h
  | cons c set ih =>
    unfold insert
    split
    . exact List.mem_cons_of_mem _ h
    . split
      . rw [List.mem_cons] at h ⊢
        rcases h with rfl | h
        . exact .inl rfl
        . exact .inr (ih h)
      . exact h

theorem Sorted.insert (h : Sorted key set) (a : α) : Sorted key (SortedSet.insert key a set) := by
  unfold Sorted at *
  induction set with
  | nil => exact List.pairwise_singleton _ _
  | cons b set ih =>
    have htail := List.pairwise_cons.mp h
    unfold SortedSet.insert
    split
    . next hlt =>
      rw [List.pairwise_cons]
      refine ⟨?_, h⟩
      intro c hc
      rw [List.mem_cons] at hc
      rcases hc with rfl | hc
      . exact hlt
      . exact lt_trans hlt (htail.1 c hc)
    . split
      . next hgt =>
        rw [List.pairwise_cons]
        refine ⟨?_, ih htail.2⟩
        intro c hc
        rcases mem_of_mem_insert hc with rfl | hc
        . exact hgt
        . exact htail.1 c hc
      . exact h

theorem insert_perm (hnew : ∀ b, b ∈ set → key b ≠ key a)
    : (SortedSet.insert key a set).Perm (a :: set) := by
  induction set with
  | nil => exact .refl _
  | cons b set ih =>
    unfold SortedSet.insert
    split
    . exact .refl _
    . next hge =>
      have hne := hnew b (by simp)
      rw [if_pos (lt_of_le_of_ne (not_lt.mp hge) hne)]
      exact ((ih (fun c hc => hnew c (List.mem_cons_of_mem _ hc))).cons b).trans (.swap a b set)

theorem Sorted.filter (h : Sorted key set) (p : α → Bool) : Sorted key (set.filter p) :=
  List.Pairwise.filter p h

end SortedSet
