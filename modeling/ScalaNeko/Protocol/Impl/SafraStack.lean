import ScalaNeko.NekoSimSystem.Impl
import ScalaNeko.Protocol.Impl.SafraTerminationDetection

/-!
Processes that use `SafraTerminationDetection` on top of the network.
-/

namespace SafraTerminationDetection

variable {N : Nat} {S M : Type}

/--
A process with all that its client has been delivered.
-/
structure Party (S M : Type) where
  node : Node
  delivered : List (Event (TerminationSignal S) M) := []

def process [Message N M] [NeZero N]
    : NekoProcess N (Party S M) (Event (TerminationSignal S) M) Unit (TerminationSignal S)
      (SafraMessage N M) where
  init := fun me => { node := { safra := init me } }
  input := fun me e ⟨node, delivered⟩ => do
    let (safra, effects) ← node.safra.onSend me e
    let copies := match e with
      | .signal _ => 0
      | .message m => (Message.destinations m).card
    return (⟨{ node with safra, sent := node.sent + copies }, delivered ++ effects.delivers⟩, effects.sends)
  deliver := fun me m _ ⟨node, delivered⟩ =>
    let (safra, effects) := node.safra.onReceive me m
    let copies := match m with
      | .payload _ => 1
      | _ => 0
    some (⟨{ node with safra, received := node.received + copies }, delivered ++ effects.delivers⟩,
      effects.sends)

end SafraTerminationDetection
