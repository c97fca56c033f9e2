import Mathlib.Data.Finset.Basic
import Mathlib.Logic.Relation

/-!
Finite sets that a relation connects.
-/

open Relation (ReflTransGen)

def Linked {V : Type} (nodes : Finset V) (adj : V → V → Prop) : Prop :=
  ∀ a, a ∈ nodes → ∀ b, b ∈ nodes → ReflTransGen adj a b

namespace Linked

variable {V : Type} {nodes : Finset V} {adj adj' : V → V → Prop}

theorem mono (h : Linked nodes adj) (hadj : ∀ a b, adj a b → adj' a b) : Linked nodes adj' :=
  fun a ha b hb => ReflTransGen.mono hadj _ _ (h a ha b hb)

/--
A set is connected if each element but one is next to an element of lower rank.
-/
theorem of_rank (root : V) (rank : V → Nat) (hsymm : ∀ a b, adj a b → adj b a)
    (h : ∀ a, a ∈ nodes → a ≠ root → ∃ b, b ∈ nodes ∧ adj a b ∧ rank b < rank a)
    : Linked nodes adj := by
  have hroot : ∀ n a, rank a = n → a ∈ nodes → ReflTransGen adj a root := by
    intro n
    induction n using Nat.strongRecOn with
    | ind n ih =>
      rintro a rfl ha
      by_cases heq : a = root
      . rw [heq]
      . obtain ⟨b, hb, hab, hlt⟩ := h a ha heq
        exact .head hab (ih (rank b) hlt b rfl hb)
  intro a ha b hb
  have hback : Std.Symm (ReflTransGen adj) := @ReflTransGen.stdSymm _ adj ⟨hsymm⟩
  exact (hroot _ a rfl ha).trans (hback.symm _ _ (hroot _ b rfl hb))

end Linked
