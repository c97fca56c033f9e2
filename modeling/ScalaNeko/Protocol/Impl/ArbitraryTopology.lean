import ScalaNeko.Network.Impl
import ScalaNeko.Topology.Impl

/-!
The emulation of a topology on a fully connected network, after `neko.protocol.ArbitraryTopology`.
-/

structure MessageShell (N : Nat) (M : Type) where
  fromPID : PID N
  dests : Finset (PID N)
  content : M
  deriving DecidableEq

instance {N : Nat} {M : Type} : Message N (MessageShell N M) where
  fromPID := MessageShell.fromPID
  destinations := MessageShell.dests
  isBroadcast := fun _ => false

-- The processes with the given numbers.
def PID.ofSet {N : Nat} (set : Finset Int) : Finset (PID N) :=
  Finset.univ.filter (fun p : PID N => (p.val : Int) ∈ set)

-- `neighborsFor` of a topology.
def Topology.neighborsForPID {N : Nat} (t : Topology) (p : PID N) : Option (Finset (PID N)) :=
  (t.neighborsFor p.val).map PID.ofSet

structure ArbitraryTopology (N : Nat) where
  me : PID N
  neighborhood : Finset Int

namespace ArbitraryTopology

variable {N : Nat} {S M τ : Type}

-- `topology.get` fails if the process is not a node.
def create (topology : FinGraph Int) (me : PID N) : Option (ArbitraryTopology N) :=
  if (me.val : Int) ∈ topology.nodes then some ⟨me, topology.neighbors me.val⟩ else none

variable [Message N M]

/--
What is sent and what is delivered.
-/
def onSend (a : ArbitraryTopology N) : Event S M → List (Event S (MessageShell N M)) × List M
  | .signal ie => ([.signal ie], [])
  | .message m =>
    ([.message ⟨a.me, Message.destinations m ∩ PID.ofSet a.neighborhood, m⟩],
      if a.me ∈ Message.destinations m then [m] else [])

def onReceive (shell : MessageShell N M) : List M := [shell.content]

/--
What the processes deliver when the process of `a` has sent `sends` over `net`.
-/
def delivered (a : ArbitraryTopology N) (net : Network N (MessageShell N M) τ)
    (sends : List (Event S M)) : List (PID N × M) :=
  (sends.flatMap fun e => (a.onSend e).2.map (fun m => (a.me, m)))
    ++ (net.delivered (sends.flatMap fun e => (a.onSend e).1)).flatMap
      fun d => (onReceive d.2).map (fun m => (d.1, m))

end ArbitraryTopology
