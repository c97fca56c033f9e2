import ScalaNeko.Protocol.Impl.RoundBased

/-!
Rounds of an active protocol, after `neko.protocol.SynchronousRounds` and the queue of
`neko.ActiveProtocol`, and the runs of processes that use them.
-/

open AsyncNetwork
open RoundBased (Party)

namespace SynchronousRounds

variable {N : Nat} {S M : Type} [Message N M]

inductive ClientSignal (S : Type) where
  | done
  | other (ie : S)

inductive Control where
  -- before `run`
  | new
  -- at the test of the loop
  | loop
  -- in `Receive`
  | receive
  | ended
  -- stopped by the exception about an older round
  | failed
  deriving DecidableEq

structure Node (N : Nat) (M : Type) extends RoundBased.Node N M where
  isDone : Bool := false
  queue : List (Round M) := []
  control : Control := .new

inductive Input (S M : Type) where
  | run (reaction : List M)
  | test
  | take (reaction : List M)
  | handOver
  | signal (ie : ClientSignal S)

namespace Node

def onSend [DecidableEq M] (node : Node N M) (me : PID N)
    : Event (ClientSignal S) M → Node N M × List (Event (ClientSignal S) (Round M))
  | .signal .done => ({ node with isDone := true }, [])
  -- as in `RoundBased`
  | e =>
    let (party, sends) := node.party.onSend me e
    ({ node with party }, sends)

def handOver [DecidableEq M] (S : Type) (node : Node N M) (me : PID N)
    : Option (Node N M × List (Event (ClientSignal S) (Round M))) :=
  match node.outbox with
  | [] => none
  | m :: outbox =>
    some (({ node with outbox, handed := node.handed ++ [m] } : Node N M).onSend me (.message m))

def run (node : Node N M) (reaction : List M) : Node N M :=
  { node with toNode := node.toNode.preStart reaction, control := .loop }

def test (node : Node N M) : Node N M :=
  { node with control := if node.isDone then .ended else .receive }

/--
`Receive` handles the next event in the queue as `RoundBased` does, except that a message from an
older round stops the thread.
-/
def take (node : Node N M) (e : Round M) (queue : List (Round M)) (reaction : List M) : Node N M :=
  { node with
      toNode := node.toNode.onReceive e reaction
      queue
      control := if (node.party.rounds.onReceive e).isSome then .loop else .failed }

end Node

def program [DecidableEq M] : Program (PID N) (Node N M) (Input S M) Unit (Round M) where
  init := fun _ => {}
  input := fun me i node =>
    match i with
    | .run reaction => if node.control = .new then some (node.run reaction, []) else none
    | .test => if node.control = .loop then some (node.test, []) else none
    | .take reaction =>
      match node.control, node.queue with
      | .receive, e :: queue => some (node.take e queue reaction, [])
      | _, _ => none
    | .handOver => (node.handOver S me).map (fun (node, sends) => (node, transmit sends))
    | .signal ie =>
      let (node, sends) := node.onSend me (.signal ie)
      some (node, transmit sends)
  receive := fun _ e _ node => some ({ node with queue := node.queue ++ [e] }, [])

end SynchronousRounds
