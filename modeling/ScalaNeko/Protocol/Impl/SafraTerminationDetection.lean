import ScalaNeko.Network.Impl

/-!
Safra's termination detection, after `neko.protocol.SafraTerminationDetection`, and the runs of
processes that use it.
-/

open AsyncNetwork

inductive TerminationSignal (S : Type) where
  | initiate
  | becomePassive
  | terminate
  | other (s : S)
  deriving DecidableEq

namespace SafraTerminationDetection

inductive StateColor where
  | black
  | white
  deriving DecidableEq

inductive State where
  | active
  | passive
  deriving DecidableEq

structure Token where
  color : StateColor
  count : Int64
  deriving DecidableEq

inductive SafraMessage (N : Nat) (M : Type) where
  | payload (m : M)
  | announce (fromPID : PID N) (dests : Finset (PID N))
  | tokenHolder (fromPID dest : PID N) (token : Token)
  deriving DecidableEq

namespace SafraMessage

variable {N : Nat} {M : Type} [Message N M]

def fromPID : SafraMessage N M → PID N
  | payload m => Message.fromPID m
  | announce p _ => p
  | tokenHolder p _ _ => p

def destinations : SafraMessage N M → Finset (PID N)
  | payload m => Message.destinations m
  | announce _ dests => dests
  | tokenHolder _ dest _ => {dest}

instance : Message N (SafraMessage N M) where
  fromPID := fromPID
  destinations := destinations
  isBroadcast := fun _ => false

end SafraMessage

end SafraTerminationDetection

open SafraTerminationDetection in
structure SafraTerminationDetection where
  msgCount : Int32 := 0
  state : State := .active
  color : StateColor := .white
  token : Option Token

namespace SafraTerminationDetection

variable {N : Nat} {S M : Type}

def initiator [NeZero N] : PID N := 0

def nextProcess (me : PID N) : PID N :=
  ⟨(me + N - 1) % N, Nat.mod_lt _ (Nat.zero_lt_of_lt me.isLt)⟩

def init [NeZero N] (me : PID N) : SafraTerminationDetection where
  token := if me = initiator then some ⟨.white, 0⟩ else none

-- What is handed to the layer below and to the layer above.
structure Effects (N : Nat) (S M : Type) where
  sends : List (Event (TerminationSignal S) (SafraMessage N M)) := []
  delivers : List (Event (TerminationSignal S) M) := []

def transmitToken [NeZero N] (me : PID N) (s : SafraTerminationDetection) (token : Option Token)
    : SafraTerminationDetection × Effects N S M :=
  match token with
  | some ⟨col, q⟩ =>
    if me = initiator then
      ({ s with color := .white, token := none },
        { sends := [.message (.tokenHolder me (nextProcess me) ⟨.white, 0⟩)] })
    else
      match s.color with
      | .white =>
        ({ s with token := none },
          { sends := [.message (.tokenHolder me (nextProcess me) ⟨col, s.msgCount.toInt64 + q⟩)] })
      | .black =>
        ({ s with color := .white, token := none },
          { sends :=
              [.message (.tokenHolder me (nextProcess me) ⟨.black, s.msgCount.toInt64 + q⟩)] })
  | none => ({ s with token := none }, {})

def onSend [Message N M] [NeZero N] (me : PID N) (s : SafraTerminationDetection)
    : Event (TerminationSignal S) M → Option (SafraTerminationDetection × Effects N S M)
  | .signal .initiate => some (s, {})
  | .signal .becomePassive =>
    match s.state with
    | .active => some (transmitToken me { s with state := .passive } s.token)
    -- an exception, as below
    | .passive => none
  | .signal ie =>
    match s.state with
    | .active => some (s, { sends := [.signal ie] })
    | .passive => none
  | .message m =>
    match s.state with
    | .active =>
      some ({ s with msgCount := s.msgCount + Int32.ofNat (Message.destinations m).card },
        { sends := [.message (.payload m)] })
    | .passive => none

def onReceive [NeZero N] (me : PID N) (s : SafraTerminationDetection)
    : SafraMessage N M → SafraTerminationDetection × Effects N S M
  | .announce _ _ => (s, { delivers := [.signal .terminate] })
  | .payload m =>
    ({ s with color := .black, state := .active, msgCount := s.msgCount - 1 },
      { delivers := [.message m] })
  | .tokenHolder _ _ tok =>
    if tok.color = .white ∧ me = initiator ∧ s.msgCount.toInt64 + tok.count = 0 ∧ s.color = .white
        ∧ s.state = .passive then
      (s, { sends := [.message (.announce me Finset.univ)] })
    else
      match s.state with
      | .active => ({ s with token := some tok }, {})
      | .passive => transmitToken me s (some tok)

/--
A process with the number of copies of application messages that it sent and that it received.
-/
structure Node where
  safra : SafraTerminationDetection
  sent : Nat := 0
  received : Nat := 0

def program [Message N M] [NeZero N]
    : Program (PID N) Node (Event (TerminationSignal S) M) Unit (SafraMessage N M) where
  init := fun me => { safra := init me }
  input := fun me e node => do
    let (safra, effects) ← node.safra.onSend me e
    let copies := match e with
      | .signal _ => 0
      | .message m => (Message.destinations m).card
    return ({ node with safra, sent := node.sent + copies }, transmit effects.sends)
  receive := fun me m _ node =>
    let (safra, effects) := node.safra.onReceive (S := S) me m
    let copies := match m with
      | .payload _ => 1
      | _ => 0
    some ({ node with safra, received := node.received + copies }, transmit effects.sends)

end SafraTerminationDetection
