import Mathlib.Algebra.Order.Ring.Int
import Mathlib.Data.Finset.Card
import Mathlib.Data.Fintype.Basic
import Mathlib.Data.List.FinRange

/-!
Processes, events and messages, after `neko.PID`, `neko.Event` and the subclasses of `neko.Message`.
-/

abbrev PID (N : Nat) := Fin N

def PID.name {N : Nat} (p : PID N) : String := "p" ++ toString p.val

inductive Event (S M : Type) where
  | signal (s : S)
  | message (m : M)
  deriving DecidableEq

/--
What the trait `Message` promises. `isBroadcast` is the run-time test
`isInstanceOf[BroadcastMessage]`.
-/
class Message (N : outParam Nat) (M : Type) where
  fromPID : M → PID N
  destinations : M → Finset (PID N)
  isBroadcast : M → Bool

namespace Message

variable {N : Nat} {M W : Type}

/--
The class `Wrapper`: sender and destinations are those of the wrapped message, and the result is
not a `BroadcastMessage`, whatever is wrapped.
-/
@[reducible]
def wrapper [Message N M] (unwrap : W → M) : Message N W where
  fromPID := fun w => fromPID (unwrap w)
  destinations := fun w => destinations (unwrap w)
  isBroadcast := fun _ => false

variable [Message N M]

def destList (m : M) : List (PID N) := (List.finRange N).filter (· ∈ destinations m)

@[simp]
theorem mem_destList {m : M} {q : PID N} : q ∈ destList m ↔ q ∈ destinations m := by
  simp [destList]

theorem nodup_destList (m : M) : (destList m).Nodup :=
  (List.nodup_finRange N).filter _

theorem destList_singleton {m : M} {q : PID N} (h : destinations m = {q}) : destList m = [q] := by
  rw [← List.perm_singleton, List.perm_ext_iff_of_nodup (nodup_destList m) (List.nodup_singleton q)]
  intro p
  rw [mem_destList, h]
  simp

theorem length_destList (m : M) : (destList m).length = (destinations m).card := by
  rw [← List.toFinset_card_of_nodup (nodup_destList m)]
  congr 1
  ext q
  simp

end Message

inductive AppMessage (N : Nat) (α : Type) where
  | unicast (fromPID dest : PID N) (body : α)
  | multicast (fromPID : PID N) (dests : Finset (PID N)) (body : α)
  | broadcast (fromPID : PID N) (body : α)
  deriving DecidableEq

namespace AppMessage

variable {N : Nat} {α : Type}

def fromPID : AppMessage N α → PID N
  | unicast p _ _ => p
  | multicast p _ _ => p
  | broadcast p _ => p

def destinations : AppMessage N α → Finset (PID N)
  | unicast _ dest _ => {dest}
  | multicast _ dests _ => dests
  | broadcast _ _ => ∅

def isBroadcast : AppMessage N α → Bool
  | broadcast _ _ => true
  | _ => false

instance : Message N (AppMessage N α) where
  fromPID := fromPID
  destinations := destinations
  isBroadcast := isBroadcast

end AppMessage
