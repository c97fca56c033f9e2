import Mathlib.Data.Fintype.Card
import ScalaNeko.Lib.SingleCycle
import ScalaNeko.Protocol.Impl.SafraTerminationDetection
import ScalaNeko.Topology.Lemmas.Range

/-!
The functions that give the next and the previous process of a ring, and that of the ring of the
tokens in Safra's algorithm.
-/

namespace ProcessRange

variable {range : ProcessRange} {i : Int}

theorem rotation (range : ProcessRange)
    : Rotation range.toSet range.nextOf (fun i => (i - range.min).toNat) where
  mem := by
    intro i hi
    rw [nextOf_eq hi]
    exact mem_following hi
  pos_lt := by
    intro i hi
    rw [mem_toSet] at hi
    rw [card_toSet]
    omega
  pos_inj := by
    intro i hi j hj heq
    rw [mem_toSet] at hi hj
    have heq : (i - range.min).toNat = (j - range.min).toNat := heq
    omega
  next := by
    intro i hi
    show (range.nextOf i - range.min).toNat = ((i - range.min).toNat + 1) % range.toSet.card
    rw [nextOf_eq hi, card_toSet]
    rw [mem_toSet] at hi
    rw [Rotation.succ_mod (by omega), following]
    unfold last
    split
    . rw [if_neg (by omega)]
      omega
    . rw [if_pos (by omega)]
      omega

theorem mem_prevOf (hfits : range.Fits) (hi : i ∈ range.toSet) : range.prevOf i ∈ range.toSet := by
  have := range.one_le
  rw [prevOf_eq hfits hi]
  rw [mem_toSet] at hi ⊢
  unfold last
  split
  . omega
  . omega

theorem nextOf_prevOf (hfits : range.Fits) (hi : i ∈ range.toSet)
    : range.nextOf (range.prevOf i) = i := by
  rw [nextOf_eq (mem_prevOf hfits hi), prevOf_eq hfits hi]
  rw [mem_toSet] at hi
  unfold following last
  split
  . rw [if_pos (by omega)]
    omega
  . rw [if_neg (by omega)]
    omega

end ProcessRange

namespace SafraTerminationDetection

variable {N : Nat}

-- The process of which a process is the predecessor.
def following (p : PID N) : PID N := ⟨(p + 1) % N, Nat.mod_lt _ (Nat.zero_lt_of_lt p.isLt)⟩

theorem rotation (N : Nat) : Rotation Finset.univ (following (N := N)) (fun p => p.val) where
  mem := fun _ _ => Finset.mem_univ _
  pos_lt := by
    intro p _
    rw [Finset.card_fin]
    exact p.isLt
  pos_inj := fun _ _ _ _ heq => Fin.ext heq
  next := by
    intro p _
    rw [Finset.card_fin]
    rfl

theorem nextProcess_eq (p : PID N) : (nextProcess p).val = if p.val = 0 then N - 1 else p.val - 1 := by
  have hlt := p.isLt
  show (p.val + N - 1) % N = _
  split
  . next hzero => rw [hzero, Nat.zero_add, Nat.mod_eq_of_lt (by omega)]
  . rw [show p.val + N - 1 = p.val - 1 + N by omega, Nat.add_mod_right, Nat.mod_eq_of_lt (by omega)]

theorem following_nextProcess (p : PID N) : following (nextProcess p) = p := by
  have hlt := p.isLt
  apply Fin.ext
  show ((nextProcess p).val + 1) % N = p.val
  rw [Rotation.succ_mod (nextProcess p).isLt, nextProcess_eq]
  split
  . split
    . omega
    . omega
  . split
    . omega
    . omega

end SafraTerminationDetection

namespace ProcessRange

/--
In both kinds of rings, and for the tokens of Safra's algorithm, which go to the predecessor.
-/
theorem cycles_of_fits (range : ProcessRange) (hfits : range.Fits)
    : (range.toSet.card = range.size ∧ CyclePair range.toSet range.nextOf range.prevOf)
        ∧ ∀ N, CyclePair Finset.univ (SafraTerminationDetection.nextProcess (N := N))
              SafraTerminationDetection.following
            ∧ ∀ p : PID N,
              (SafraTerminationDetection.nextProcess p).val = if p.val = 0 then N - 1 else p.val - 1 := by
  refine ⟨⟨card_toSet, ?_⟩, ?_⟩
  . apply range.rotation.cyclePair
    . exact fun _ => mem_prevOf hfits
    . exact fun _ => nextOf_prevOf hfits
  . intro N
    refine ⟨?_, SafraTerminationDetection.nextProcess_eq⟩
    apply CyclePair.symm
    apply (SafraTerminationDetection.rotation N).cyclePair
    . exact fun p _ => Finset.mem_univ _
    . exact fun p _ => SafraTerminationDetection.following_nextProcess p

theorem size_lt_of_add {first size : Nat} (h : first + size < 2 ^ 31) : size < 2 ^ 31 := by omega

theorem neg_le_cast (first : Nat) : -2 ^ 31 ≤ (first : Int) := by omega

theorem cast_add_le {first size : Nat} (h : first + size < 2 ^ 31) : (first : Int) + size ≤ 2 ^ 31 := by omega

-- `first until first + size`
def rangeFrom (first size : Nat) (hsize : 1 ≤ size) (hlt : first + size < 2 ^ 31) : ProcessRange where
  min := first
  size := size
  one_le := hsize
  size_lt := size_lt_of_add hlt
  min_le := neg_le_cast first
  last_lt := cast_add_le hlt

theorem cycles_of_fits_three
    : CyclePair (rangeFrom 5 3 (by decide) (by decide)).toSet
        (rangeFrom 5 3 (by decide) (by decide)).nextOf (rangeFrom 5 3 (by decide) (by decide)).prevOf :=
  (cycles_of_fits (rangeFrom 5 3 (by decide) (by decide)) (by decide)).1.2

end ProcessRange
