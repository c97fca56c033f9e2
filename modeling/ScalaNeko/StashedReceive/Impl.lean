import ScalaNeko.Lib.Transition

/-!
Receiving with a stash, after `neko.StashedReceive` and the receive queue of `neko.ActiveProtocol`,
and the runs of a process that calls it. A partial function is given by its `isDefinedAt`.
-/

structure StashedReceive (E : Type) where
  blockingQueue : List E := []
  stash : List E := []

namespace StashedReceive

variable {E : Type}

def deliver (s : StashedReceive E) (e : E) : StashedReceive E :=
  { s with blockingQueue := s.blockingQueue ++ [e] }

def receive (s : StashedReceive E) : Option (E × StashedReceive E) :=
  match s.blockingQueue with
  -- the caller is blocked
  | [] => none
  | e :: queue => some (e, { s with blockingQueue := queue })

def stashForLater (s : StashedReceive E) (m : E) : StashedReceive E :=
  { s with stash := s.stash ++ [m] }

/--
`ReceiveOrStash` up to the loop. The event that it handles, or `none` when it enters the loop.
-/
def receiveOrStash [BEq E] (s : StashedReceive E) (pf : E → Bool) : StashedReceive E × Option E :=
  match s.stash.find? pf with
  | none => (s, none)
  | some m => ({ s with stash := s.stash.filter (fun x => !(x == m)) }, some m)

-- One turn of the loop, with the event that ends it.
def turn (s : StashedReceive E) (pf : E → Bool) : Option (StashedReceive E × E × Bool) := do
  let (m, s) ← s.receive
  if pf m then
    return (s, m, true)
  else
    return (s.stashForLater m, m, false)

structure Occurrence (E : Type) where
  arrival : Nat
  event : E

-- Equality of events does not tell two arrivals apart.
instance [BEq E] : BEq (Occurrence E) := ⟨fun a b => a.event == b.event⟩

/--
The record of one call: its partial function, the arrival that it handled and those that were
unhandled then, this one included.
-/
structure Handling (E : Type) where
  pf : E → Bool
  occ : Occurrence E
  unhandled : List (Occurrence E)

structure Run (E : Type) where
  code : StashedReceive (Occurrence E) := {}
  waiting : Option (E → Bool) := none
  arrived : List (Occurrence E) := []
  taken : List (Occurrence E) := []
  handled : List (Handling E) := []

inductive Action (E : Type) where
  | deliver (e : E)
  | call (pf : E → Bool)
  | turn

namespace Run

def unhandled (r : Run E) : List (Occurrence E) :=
  r.arrived.filter (fun o => o.arrival ∉ r.handled.map (·.occ.arrival))

def handle (r : Run E) (pf : E → Bool) (m : Occurrence E) : Run E :=
  { r with waiting := none, handled := r.handled ++ [⟨pf, m, r.unhandled⟩] }

def step [BEq E] (r : Run E) : Action E → Option (Run E)
  | .deliver e =>
    let o : Occurrence E := ⟨r.arrived.length, e⟩
    some { r with code := r.code.deliver o, arrived := r.arrived ++ [o] }
  | .call pf =>
    match r.waiting with
    | some _ => none
    | none =>
      match r.code.receiveOrStash (fun o => pf o.event) with
      | (code, none) => some { r with code, waiting := some pf }
      | (code, some m) => some { r.handle pf m with code }
  | .turn => do
    let pf ← r.waiting
    let (code, m, done) ← r.code.turn (fun o => pf o.event)
    if done then
      return { r.handle pf m with code, taken := r.taken ++ [m] }
    else
      return { r with code, taken := r.taken ++ [m] }

def lts (E : Type) [BEq E] : LTS (Run E) (Action E) where
  init := fun r => r = {}
  step := fun r a r' => r.step a = some r'

end Run

end StashedReceive
