import ScalaNeko.Network.Impl

/-!
Anonymous rounds with a coordinator, after `neko.protocol.FastAnonymousRounds`, and the runs of
processes that use them. The type `A` is that of the contents, the subclasses of `Anonymous`.
-/

open AsyncNetwork

inductive FastAnonymousMessage (N : Nat) (A : Type) where
  | round (fromPID : PID N) (dests : Finset (PID N)) (anons : List A) (round : Int32)
  | roundPropose (fromPID dest : PID N) (content : A) (round : Int32)
  deriving DecidableEq

namespace FastAnonymousMessage

variable {N : Nat} {A : Type}

def fromPID : FastAnonymousMessage N A → PID N
  | round p _ _ _ => p
  | roundPropose p _ _ _ => p

def destinations : FastAnonymousMessage N A → Finset (PID N)
  | round _ dests _ _ => dests
  | roundPropose _ dest _ _ => {dest}

instance : Message N (FastAnonymousMessage N A) where
  fromPID := fromPID
  destinations := destinations
  isBroadcast := fun _ => false

end FastAnonymousMessage

structure FastAnonymousRounds (A : Type) where
  roundNum : Int32 := 0
  anonList : List A := []
  sendRound : Int32 := 0

namespace FastAnonymousRounds

variable {N : Nat} {S M A : Type}

inductive ClientSignal (S A : Type) where
  | anonymous (a : A)
  | done
  | other (ie : S)

structure StartRound (A : Type) where
  round : Int32
  all : List A

inductive RoundSignal (A : Type) where
  | initRound
  | startRound (e : StartRound A)

-- The greatest of all processes.
def coordinator (me : PID N) : PID N := ⟨N - 1, by have := me.isLt; omega⟩

/--
`none` is the error of a partial function where it is not defined.
-/
def onSend (rounds : FastAnonymousRounds A) (me : PID N)
    : Event (ClientSignal S A) M → Option (List (Event (ClientSignal S A) (FastAnonymousMessage N A)))
  | .signal (.anonymous a) => some [.message (.roundPropose me (coordinator me) a rounds.sendRound)]
  | .signal .done => some []
  | .signal (.other ie) => some [.signal (.other ie)]
  | .message _ => none

structure Effects (N : Nat) (S A : Type) where
  sends : List (Event (ClientSignal S A) (FastAnonymousMessage N A)) := []
  delivers : List (RoundSignal A) := []

def onReceive (rounds : FastAnonymousRounds A) (me : PID N)
    : FastAnonymousMessage N A → Option (FastAnonymousRounds A × Effects N S A)
  | .roundPropose _ _ a r =>
    if me = coordinator me ∧ r = rounds.roundNum then
      let anonList := a :: rounds.anonList
      if anonList.length = N then
        let roundNum := rounds.roundNum + 1
        some ({ rounds with roundNum, anonList := [] },
          { sends := [.message (.round me Finset.univ anonList roundNum)] })
      else
        some ({ rounds with anonList }, {})
    else
      none
  | .round _ _ data r =>
    if r = rounds.sendRound + 1 then
      some ({ rounds with sendRound := r }, { delivers := [.startRound ⟨r, data⟩] })
    else
      none

/--
A process with the record of the signals that its client was delivered, of the contents that it
proposed for its client and of their rounds, and of the messages that `onReceive` does not match.
-/
structure Node (N : Nat) (A : Type) where
  rounds : FastAnonymousRounds A := {}
  isStarted : Bool := false
  signals : List (RoundSignal A) := []
  proposes : List (A × Int32) := []
  unmatched : List (FastAnonymousMessage N A) := []

inductive Input (S M A : Type) where
  -- the task that `preStart` schedules
  | timer
  | client (e : Event (ClientSignal S A) M)

def proposes (rounds : FastAnonymousRounds A) : Event (ClientSignal S A) M → List (A × Int32)
  | .signal (.anonymous a) => [(a, rounds.sendRound)]
  | _ => []

def program : Program (PID N) (Node N A) (Input S M A) Unit (FastAnonymousMessage N A) where
  init := fun _ => {}
  input := fun me i node =>
    match i with
    | .timer =>
      if node.isStarted then
        none
      else
        some ({ node with isStarted := true, signals := node.signals ++ [.initRound] }, [])
    | .client e =>
      (node.rounds.onSend me e).map fun sends =>
        ({ node with proposes := node.proposes ++ node.rounds.proposes e }, transmit sends)
  receive := fun me e _ node =>
    let result : Option (FastAnonymousRounds A × Effects N S A) := node.rounds.onReceive me e
    match result with
    | some (rounds, effects) =>
      some ({ node with rounds, signals := node.signals ++ effects.delivers },
        transmit effects.sends)
    | none => some ({ node with unmatched := node.unmatched ++ [e] }, [])

end FastAnonymousRounds
