import ScalaNeko.NekoSimSystem.Impl
import ScalaNeko.Protocol.Impl.RoundBased

/-!
Processes that use `RoundBased` on top of the network.
-/

namespace RoundBased

variable {N : Nat} {S M : Type}

def process [Message N M] [DecidableEq M]
    : NekoProcess N (Node N M) (Input S M) (List M) S (Round M) where
  init := fun _ => {}
  input := fun me i node =>
    match i with
    | .preStart reaction =>
      if node.isStarted then none else some (node.preStart reaction, [])
    | .handOver => node.handOver S me
    | .signal ie =>
      let (party, sends) := node.party.onSend me (.signal ie)
      some ({ node with party }, sends)
  deliver := fun _ e reaction node => some (node.onReceive e reaction, [])

end RoundBased
