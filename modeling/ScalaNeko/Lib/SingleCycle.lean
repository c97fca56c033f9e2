import Mathlib.Data.Finset.Card
import Mathlib.Data.Set.Function
import Mathlib.Dynamics.PeriodicPts.Defs

/-!
Maps that turn a finite set by one position, and the single cycle that they run through.
-/

open Function (minimalPeriod)

/--
From each element, the map visits all of them once before it comes back.
-/
structure SingleCycle {α : Type} (s : Finset α) (f : α → α) : Prop where
  visits : ∀ a, a ∈ s → ∀ b, b ∈ s → ∃! k, k < s.card ∧ f^[k] a = b
  returns : ∀ a, a ∈ s → minimalPeriod f a = s.card

/--
One map runs through the cycle, and the other one runs back.
-/
structure CyclePair {α : Type} (s : Finset α) (next prev : α → α) : Prop where
  bijOn_next : Set.BijOn next s s
  bijOn_prev : Set.BijOn prev s s
  invOn : Set.InvOn prev next s s
  next : SingleCycle s next
  prev : SingleCycle s prev

theorem CyclePair.symm {α : Type} {s : Finset α} {next prev : α → α} (h : CyclePair s next prev)
    : CyclePair s prev next where
  bijOn_next := h.bijOn_prev
  bijOn_prev := h.bijOn_next
  invOn := h.invOn.symm
  next := h.prev
  prev := h.next

structure Rotation {α : Type} (s : Finset α) (f : α → α) (pos : α → Nat) : Prop where
  mem : ∀ a, a ∈ s → f a ∈ s
  pos_lt : ∀ a, a ∈ s → pos a < s.card
  pos_inj : ∀ a, a ∈ s → ∀ b, b ∈ s → pos a = pos b → a = b
  next : ∀ a, a ∈ s → pos (f a) = (pos a + 1) % s.card

namespace Rotation

variable {α : Type} {s : Finset α} {f g : α → α} {pos : α → Nat} {a b : α}

theorem succ_mod {p n : Nat} (h : p < n) : (p + 1) % n = if p + 1 = n then 0 else p + 1 := by
  split
  . next hlast => rw [hlast, Nat.mod_self]
  . next hinner => exact Nat.mod_eq_of_lt (by omega)

theorem iterate_mem (h : Rotation s f pos) (ha : a ∈ s) (k : Nat) : f^[k] a ∈ s := by
  induction k with
  | zero => exact ha
  | succ k ih =>
    rw [Function.iterate_succ_apply']
    exact h.mem _ ih

theorem pos_iterate (h : Rotation s f pos) (ha : a ∈ s) (k : Nat)
    : pos (f^[k] a) = (pos a + k) % s.card := by
  induction k with
  | zero => exact (Nat.mod_eq_of_lt (h.pos_lt a ha)).symm
  | succ k ih =>
    rw [Function.iterate_succ_apply', h.next _ (h.iterate_mem ha k), ih, Nat.mod_add_mod, Nat.add_assoc]

theorem iterate_eq_iff (h : Rotation s f pos) (ha : a ∈ s) (hb : b ∈ s) (k : Nat)
    : f^[k] a = b ↔ (pos a + k) % s.card = pos b := by
  rw [← h.pos_iterate ha]
  exact ⟨congrArg pos, h.pos_inj _ (h.iterate_mem ha k) _ hb⟩

theorem singleCycle (h : Rotation s f pos) : SingleCycle s f := by
  have hvisits : ∀ a, a ∈ s → ∀ b, b ∈ s → ∃! k, k < s.card ∧ f^[k] a = b := by
    intro a ha b hb
    have hlta := h.pos_lt a ha
    have hltb := h.pos_lt b hb
    simp only [h.iterate_eq_iff ha hb]
    refine ⟨(pos b + s.card - pos a) % s.card, ⟨Nat.mod_lt _ (by omega), ?_⟩, ?_⟩
    . show (pos a + (pos b + s.card - pos a) % s.card) % s.card = pos b
      rw [Nat.add_mod_mod, Nat.add_sub_of_le (by omega), Nat.add_mod_right, Nat.mod_eq_of_lt hltb]
    . rintro k ⟨hk, hpos⟩
      rcases Nat.lt_or_ge (pos a + k) s.card with hlt | hge
      . rw [Nat.mod_eq_of_lt hlt] at hpos
        have hsum : pos b + s.card - pos a = k + s.card := by omega
        rw [hsum, Nat.add_mod_right, Nat.mod_eq_of_lt hk]
      . rw [Nat.mod_eq_sub_mod hge, Nat.mod_eq_of_lt (by omega)] at hpos
        rw [Nat.mod_eq_of_lt (by omega)]
        omega
  refine ⟨hvisits, ?_⟩
  intro a ha
  have hlt := h.pos_lt a ha
  have hperiodic : Function.IsPeriodicPt f s.card a := by
    refine (h.iterate_eq_iff ha ha _).mpr ?_
    rw [Nat.add_mod_right, Nat.mod_eq_of_lt hlt]
  apply Nat.le_antisymm (hperiodic.minimalPeriod_le (by omega))
  by_contra hshort
  have hpos := hperiodic.minimalPeriod_pos (by omega)
  have hstart : 0 < s.card ∧ f^[0] a = a := ⟨by omega, rfl⟩
  have hback : minimalPeriod f a < s.card ∧ f^[minimalPeriod f a] a = a :=
    ⟨by omega, Function.iterate_minimalPeriod⟩
  have hzero := (hvisits a ha a ha).unique hstart hback
  omega

theorem injOn (h : Rotation s f pos) : Set.InjOn f s := by
  intro a ha b hb heq
  have hpos := congrArg pos heq
  rw [h.next a ha, h.next b hb, succ_mod (h.pos_lt a ha), succ_mod (h.pos_lt b hb)] at hpos
  apply h.pos_inj a ha b hb
  split at hpos
  . split at hpos
    . omega
    . omega
  . split at hpos
    . omega
    . omega

-- A right inverse of a rotation is its inverse.
theorem invOn (h : Rotation s f pos) (hmem : ∀ a, a ∈ s → g a ∈ s) (hinv : ∀ a, a ∈ s → f (g a) = a)
    : Set.InvOn g f s s := by
  refine ⟨?_, fun a ha => hinv a ha⟩
  intro a ha
  exact h.injOn (hmem _ (h.mem a ha)) ha (hinv (f a) (h.mem a ha))

theorem inverse (h : Rotation s f pos) (hmem : ∀ a, a ∈ s → g a ∈ s) (hinv : ∀ a, a ∈ s → f (g a) = a)
    : Rotation s g (fun a => s.card - 1 - pos a) where
  mem := hmem
  pos_lt := by
    intro a ha
    have := h.pos_lt a ha
    show s.card - 1 - pos a < s.card
    omega
  pos_inj := by
    intro a ha b hb heq
    have := h.pos_lt a ha
    have := h.pos_lt b hb
    apply h.pos_inj a ha b hb
    have heq : s.card - 1 - pos a = s.card - 1 - pos b := heq
    omega
  next := by
    intro a ha
    have hnext := h.next (g a) (hmem a ha)
    have hlt := h.pos_lt (g a) (hmem a ha)
    rw [hinv a ha, succ_mod hlt] at hnext
    show s.card - 1 - pos (g a) = (s.card - 1 - pos a + 1) % s.card
    rw [succ_mod (by omega)]
    split at hnext
    . rw [if_pos (by omega)]
      omega
    . rw [if_neg (by omega)]
      omega

theorem cyclePair (h : Rotation s f pos) (hmem : ∀ a, a ∈ s → g a ∈ s) (hinv : ∀ a, a ∈ s → f (g a) = a)
    : CyclePair s f g where
  bijOn_next := (h.invOn hmem hinv).bijOn h.mem hmem
  bijOn_prev := (h.invOn hmem hinv).symm.bijOn hmem h.mem
  invOn := h.invOn hmem hinv
  next := h.singleCycle
  prev := (h.inverse hmem hinv).singleCycle

end Rotation
