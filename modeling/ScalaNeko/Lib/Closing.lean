import Mathlib.Data.Nat.Find

/-!
Batches that are closed in their order, at most one at a time: when a batch closes that is completed
at a given time.
-/

namespace Closing

variable (complete : Nat → Nat → Prop) [∀ k t, Decidable (complete k t)]

/--
The number of batches closed at time `t`. `complete k t` says that batch `k` is complete by then.
-/
def closed : Nat → Nat
  | 0 => 0
  | t + 1 => if complete (closed t) (t + 1) then closed t + 1 else closed t

variable {complete} {T : Nat → Nat} {R t : Nat}

theorem closed_le (hnone : ∀ t, ¬ complete R t) (t : Nat) : closed complete t ≤ R := by
  induction t with
  | zero => exact Nat.zero_le _
  | succ t ih =>
    unfold closed
    split
    . next hcomplete =>
      rcases Nat.lt_or_eq_of_le ih with hlt | heq
      . exact hlt
      . rw [heq] at hcomplete
        exact absurd hcomplete (hnone _)
    . exact ih

theorem succ_le_closed_succ {j : Nat} (hj : j ≤ closed complete t) (hcomplete : complete j (t + 1))
    : j + 1 ≤ closed complete (t + 1) := by
  unfold closed
  rcases Nat.lt_or_eq_of_le hj with hlt | rfl
  . split
    . omega
    . exact hlt
  . rw [if_pos hcomplete]

theorem complete_of_closed_succ {j : Nat} (hnot : ¬ j + 1 ≤ closed complete t)
    (hj : j + 1 ≤ closed complete (t + 1))
    : closed complete t = j ∧ complete j (t + 1) := by
  unfold closed at hj
  split at hj
  . next hcomplete =>
    have hcur : closed complete t = j := by omega
    rw [hcur] at hcomplete
    exact ⟨hcur, hcomplete⟩
  . exact absurd hj hnot

/--
Batch `j - 1` is closed when `j - 1 - i` ticks have passed since batch `i` was complete, for all `i`
up to `j - 1`.
-/
theorem le_closed_iff (hT : ∀ k t, k < R → (complete k t ↔ T k ≤ t)) (hpos : ∀ k, k < R → 0 < T k)
    {j : Nat} (hj : j ≤ R)
    : j ≤ closed complete t ↔ ∀ i, i < j → T i + (j - 1 - i) ≤ t := by
  induction t generalizing j with
  | zero =>
    constructor
    . intro hle i hi
      exact absurd hi (Nat.not_lt.mpr (Nat.le_trans hle (Nat.zero_le i)))
    . intro hall
      cases j with
      | zero => exact Nat.le_refl 0
      | succ j =>
        have hlast := hall j (Nat.lt_succ_self j)
        have := hpos j hj
        omega
  | succ t ih =>
    cases j with
    | zero => exact ⟨nofun, fun _ => Nat.zero_le _⟩
    | succ j =>
      have hself := ih hj
      have hpred := ih (Nat.le_of_succ_le hj)
      have hlast := hT j (t + 1) hj
      constructor
      . intro hle i hi
        by_cases hbefore : j + 1 ≤ closed complete t
        . exact Nat.le_succ_of_le (hself.mp hbefore i hi)
        . obtain ⟨hcur, hcomplete⟩ := complete_of_closed_succ hbefore hle
          rw [hlast] at hcomplete
          rcases Nat.lt_or_eq_of_le (Nat.le_of_lt_succ hi) with hlt | rfl
          . have := hpred.mp (Nat.le_of_eq hcur.symm) i hlt
            omega
          . omega
      . intro hall
        have hcur : j ≤ closed complete t := by
          rw [hpred]
          intro i hi
          have := hall i (Nat.lt_succ_of_lt hi)
          omega
        apply succ_le_closed_succ hcur
        rw [hlast]
        have := hall j (Nat.lt_succ_self j)
        omega

theorem closed_succ_le (t : Nat) : closed complete (t + 1) ≤ closed complete t + 1 := by
  rw [closed]
  split
  . exact Nat.le_refl _
  . exact Nat.le_succ _

theorem add_le_of_increasing (h : ∀ k, k + 1 < R → T k < T (k + 1)) {i c : Nat} (hi : i ≤ c)
    (hc : c < R)
    : T i + (c - i) ≤ T c := by
  induction c with
  | zero =>
    rw [Nat.le_zero.mp hi]
    exact Nat.le_refl _
  | succ c ih =>
    rcases Nat.lt_or_eq_of_le hi with hlt | rfl
    . have := ih (Nat.le_of_lt_succ hlt) (Nat.lt_of_succ_lt hc)
      have := h c hc
      omega
    . omega

/--
No complete batch is waiting at any time up to `L` if and only if the batches are completed in their
order.
-/
theorem settled_iff {L : Nat} (hT : ∀ k t, k < R → (complete k t ↔ T k ≤ t))
    (hpos : ∀ k, k < R → 0 < T k) (hle : ∀ k, k < R → T k ≤ L) (hnone : ∀ t, ¬ complete R t)
    : (∀ t, t ≤ L → ¬ complete (closed complete t) t) ↔ ∀ k, k + 1 < R → T k < T (k + 1) := by
  constructor
  . intro hsettled k hk
    have hend : k + 1 ≤ closed complete L := by
      by_contra hlt
      have hcur : closed complete L < R := by omega
      exact hsettled L (Nat.le_refl L) ((hT _ _ hcur).mpr (hle _ hcur))
    -- the time at which batch `k` closes
    have hex : ∃ t, k + 1 ≤ closed complete t := ⟨L, hend⟩
    obtain ⟨t, ht⟩ : ∃ t, t = Nat.find hex := ⟨_, rfl⟩
    have hreached := Nat.find_spec hex
    have hfirst := fun s => Nat.find_min (m := s) hex
    have htL := Nat.find_min' hex hend
    rw [← ht] at hreached hfirst htL
    have hcur : closed complete t = k + 1 := by
      cases t with
      | zero => exact absurd hreached (Nat.not_succ_le_zero k)
      | succ t =>
        have := hfirst t (Nat.lt_succ_self t)
        have := @closed_succ_le complete _ t
        omega
    have hclosed := (le_closed_iff hT hpos (Nat.le_of_lt hk)).mp hreached k (Nat.lt_succ_self k)
    have hnot := hsettled t htL
    rw [hcur, hT _ _ hk] at hnot
    omega
  . intro hincreasing t _ hcomplete
    rcases Nat.lt_or_eq_of_le (closed_le hnone t) with hlt | heq
    . rw [hT _ _ hlt] at hcomplete
      have hmore : closed complete t + 1 ≤ closed complete t := by
        rw [le_closed_iff hT hpos hlt]
        intro i hi
        have := add_le_of_increasing hincreasing (Nat.le_of_lt_succ hi) hlt
        omega
      omega
    . rw [heq] at hcomplete
      exact hnone t hcomplete

end Closing
