import ScalaNeko.NekoSimSystem.Impl
import ScalaNeko.Protocol.Impl.ChandyLamport

/-!
The processes of `ChandyLamportMain`, without the `FIFOChannel` below.
-/

namespace ChandyLamport

variable {N : Nat} {M : Type} [Message N M] [DecidableEq M]

/--
The client sends messages of its own process, and none while it handles `SaveState`, as
`MultiTokenRotation` does.
-/
def process (neighborsFor : PID N → Option (Finset (PID N)))
    : NekoProcess N (Node N M) (Event Initiate M) Unit Initiate (Wire N M) where
  init := fun me => { snap := new ((neighborsFor me).getD ∅) }
  input := fun me e node =>
    let (snap, deliveries, sends) := node.snap.onSend me ((neighborsFor me).getD ∅) [] e
    let node := { snap, log := node.log ++ Entry.handOver e ++ deliveries.flatMap (Entry.deliver me []) }
    match e with
    | .signal _ => some (node, sends)
    | .message m => if Message.fromPID m = me then some (node, sends) else none
  deliver := fun me w _ node =>
    let q := Message.fromPID w
    let (snap, deliveries, sends) := node.snap.onReceive me ((neighborsFor me).getD ∅) [] w
    let entries := deliveries.flatMap (Entry.deliver q [])
    some ({ snap, log := node.log ++ Entry.arrive q w ++ entries }, sends)

end ChandyLamport
