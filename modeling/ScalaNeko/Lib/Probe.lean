import Mathlib.Algebra.BigOperators.Group.Finset.Basic
import Mathlib.Algebra.BigOperators.Group.Finset.Piecewise
import Mathlib.Algebra.Order.Group.Int

/-!
Termination detection with a token that visits the processes of a ring from the last to the first
and adds up their message counters. A process that receives a message turns black.
-/

namespace Probe

/--
What the detection sees of the computation. `count p` is the number of messages that `p` sent less
the number of those that it received.
-/
structure Computation (P : Type) where
  count : P → Int
  active : P → Prop
  black : P → Prop

theorem sum_of_update {P : Type} [DecidableEq P] {f g : P → Int} {p : P} {k : Int}
    (hp : g p = f p + k) (hne : ∀ i, i ≠ p → g i = f i)
    (s : Finset P)
    : ∑ i ∈ s, g i = (∑ i ∈ s, f i) + if p ∈ s then k else 0 := by
  have hg : ∀ i, g i = f i + if i = p then k else 0 := by
    intro i
    by_cases hi : i = p
    . rw [hi, hp, if_pos rfl]
    . rw [hne i hi, if_neg hi, Int.add_zero]
  simp only [hg, Finset.sum_add_distrib, Finset.sum_ite_eq']

variable {P : Type} [LinearOrder P] [Fintype P]

def Computation.inFlight (c : Computation P) : Int := ∑ p, c.count p

/--
The invariant for a token with the count `q` that is at or on its way to the process `t`, which means
that the processes after `t` have been visited.
-/
inductive Probed (c : Computation P) (t : P) (q : Int) (black : Prop) : Prop where
  | quiet : (∀ p, t < p → ¬ c.active p) → q = ∑ p with t < p, c.count p → Probed c t q black
  | positive : 0 < (∑ p with p ≤ t, c.count p) + q → Probed c t q black
  | blackProcess (p : P) : p ≤ t → c.black p → Probed c t q black
  | blackToken : black → Probed c t q black

variable {c c' : Computation P} {t t' p : P} {q : Int} {black black' : Prop}

theorem sum_split (f : P → Int) (t : P)
    : ∑ p, f p = (∑ p with p ≤ t, f p) + ∑ p with t < p, f p := by
  rw [← Finset.sum_filter_add_sum_filter_not Finset.univ (· ≤ t)]
  simp only [not_le]

theorem sum_after_pred (f : P → Int) (ht : ∀ p, p ≤ t' ↔ p < t)
    : ∑ p with t' < p, f p = f t + ∑ p with t < p, f p := by
  have hgt : Finset.univ.filter (t' < ·) = insert t (Finset.univ.filter (t < ·)) := by
    ext p
    rw [Finset.mem_insert, Finset.mem_filter, Finset.mem_filter, ← not_le, ht, not_lt,
      le_iff_eq_or_lt, eq_comm]
    simp
  rw [hgt, Finset.sum_insert (by simp)]

theorem sum_after_first (f : P → Int) (ht : ∀ p, t ≤ p)
    : ∑ p, f p = f t + ∑ p with t < p, f p := by
  have hle : Finset.univ.filter (· ≤ t) = {t} := by
    ext p
    simp only [Finset.mem_filter, Finset.mem_univ, true_and, Finset.mem_singleton]
    exact ⟨fun hp => le_antisymm hp (ht p), fun hp => hp.le⟩
  rw [sum_split f t, hle, Finset.sum_singleton]

theorem sum_after_last (f : P → Int) (ht : ∀ p, p ≤ t) : ∑ p with t < p, f p = 0 := by
  apply Finset.sum_eq_zero
  intro p hp
  rw [Finset.mem_filter] at hp
  exact absurd (ht p) (not_le.mpr hp.2)

theorem Probed.start (ht : ∀ p, p ≤ t) : Probed c t 0 black := by
  apply Probed.quiet
  . intro p hp
    exact absurd (ht p) (not_le.mpr hp)
  . exact (sum_after_last _ ht).symm

theorem Probed.send {k : Int} (h : Probed c t q black) (hactive : c.active p) (hk : 0 ≤ k)
    (hcount : c'.count p = c.count p + k) (hcount' : ∀ i, i ≠ p → c'.count i = c.count i)
    (hact : ∀ i, c'.active i → c.active i) (hblack : ∀ i, c.black i → c'.black i)
    : Probed c' t q black := by
  cases h with
  | quiet hquiet hq =>
    have hp : ¬ t < p := fun hlt => hquiet p hlt hactive
    apply Probed.quiet
    . intro i hi h
      exact hquiet i hi (hact i h)
    . rw [sum_of_update hcount hcount', if_neg (by simpa using hp), Int.add_zero]
      exact hq
  | positive hpos =>
    apply Probed.positive
    rw [sum_of_update hcount hcount']
    split
    . omega
    . omega
  | blackProcess i hi hb => exact .blackProcess i hi (hblack i hb)
  | blackToken hb => exact .blackToken hb

theorem Probed.receive (h : Probed c t q black) (hflight : 0 < c.inFlight)
    (hcount : c'.count p = c.count p + -1) (hcount' : ∀ i, i ≠ p → c'.count i = c.count i)
    (hself : c'.black p) (hblack : ∀ i, c.black i → c'.black i)
    : Probed c' t q black := by
  by_cases hp : p ≤ t
  . exact .blackProcess p hp hself
  . have hsum : ∑ i with i ≤ t, c'.count i = ∑ i with i ≤ t, c.count i := by
      rw [sum_of_update hcount hcount', if_neg (by simpa using hp), Int.add_zero]
    cases h with
    | quiet hquiet hq =>
      apply Probed.positive
      rw [hsum, hq, ← sum_split]
      exact hflight
    | positive hpos =>
      apply Probed.positive
      rw [hsum]
      exact hpos
    | blackProcess i hi hb => exact .blackProcess i hi (hblack i hb)
    | blackToken hb => exact .blackToken hb

theorem Probed.passivate (h : Probed c t q black) (hcount : ∀ i, c'.count i = c.count i)
    (hact : ∀ i, c'.active i → c.active i) (hblack : ∀ i, c.black i → c'.black i)
    : Probed c' t q black := by
  cases h with
  | quiet hquiet hq =>
    apply Probed.quiet
    . intro i hi h
      exact hquiet i hi (hact i h)
    . simp only [hcount]
      exact hq
  | positive hpos =>
    apply Probed.positive
    simp only [hcount]
    exact hpos
  | blackProcess i hi hb => exact .blackProcess i hi (hblack i hb)
  | blackToken hb => exact .blackToken hb

theorem Probed.pass (h : Probed c t q black) (ht : ∀ p, p ≤ t' ↔ p < t)
    (hpassive : ¬ c'.active t) (hcount : ∀ i, c'.count i = c.count i)
    (hact : ∀ i, c'.active i → c.active i) (hblack : ∀ i, i ≠ t → c.black i → c'.black i)
    (htoken : black ∨ c.black t → black')
    : Probed c' t' (c.count t + q) black' := by
  have hlt : ∀ p, t' < p ↔ p = t ∨ t < p := by
    intro p
    rw [← not_le, ht, not_lt, le_iff_eq_or_lt, eq_comm]
  have hsplit : ∑ p with p ≤ t, c.count p = (∑ p with p ≤ t', c.count p) + c.count t := by
    have hle : Finset.univ.filter (· ≤ t) = insert t (Finset.univ.filter (· ≤ t')) := by
      ext p
      simp [ht, le_iff_eq_or_lt]
    rw [hle, Finset.sum_insert (by simp [ht]), Int.add_comm]
  cases h with
  | quiet hquiet hq =>
    apply Probed.quiet
    . intro p hp
      rcases (hlt p).mp hp with rfl | hp
      . exact hpassive
      . intro h
        exact hquiet p hp (hact p h)
    . simp only [hcount]
      rw [sum_after_pred _ ht, hq]
  | positive hpos =>
    apply Probed.positive
    simp only [hcount]
    omega
  | blackProcess p hp hb =>
    by_cases heq : p = t
    . subst heq
      exact .blackToken (htoken (.inr hb))
    . apply Probed.blackProcess p
      . rw [ht]
        exact lt_of_le_of_ne hp heq
      . exact hblack p heq hb
  | blackToken hb => exact .blackToken (htoken (.inl hb))

theorem Probed.terminated (h : Probed c t q black) (ht : ∀ p, t ≤ p) (hpassive : ¬ c.active t)
    (hwhite : ¬ c.black t) (htoken : ¬ black) (hsum : c.count t + q = 0)
    : (∀ p, ¬ c.active p) ∧ c.inFlight = 0 := by
  have hle : Finset.univ.filter (· ≤ t) = {t} := by
    ext p
    simp only [Finset.mem_filter, Finset.mem_univ, true_and, Finset.mem_singleton]
    constructor
    . intro hp
      exact le_antisymm hp (ht p)
    . rintro rfl
      exact le_refl p
  cases h with
  | quiet hquiet hq =>
    constructor
    . intro p
      rcases lt_or_eq_of_le (ht p) with hlt | rfl
      . exact hquiet p hlt
      . exact hpassive
    . rw [Computation.inFlight, sum_after_first _ ht, ← hq]
      exact hsum
  | positive hpos =>
    rw [hle, Finset.sum_singleton] at hpos
    omega
  | blackProcess p hp hb =>
    have hpt := le_antisymm hp (ht p)
    rw [hpt] at hb
    exact absurd hb hwhite
  | blackToken hb => exact absurd hb htoken

end Probe
