import Mathlib.Data.Finset.Insert
import ScalaNeko.Lib.Transition

/-!
The manager of activities, after `neko.kernel.ActivityManager` and `neko.kernel.ManagedActivity`, with
the statuses of the activities and the barrier at which they meet.

An activity makes its calls one after the other. A step is what happens between two accesses to a
status or to the barrier.
-/

namespace ActivityManager

abbrev ActivityID := Nat

inductive Exception where
  | initializationError (message : String)
  | assertionError (message : String)
  deriving DecidableEq

inductive Status where
  | created
  | running
  | waiting
  | finished
  | aborted
  deriving DecidableEq

inductive Call where
  | willWait
  | willFinish
  deriving DecidableEq

def Call.status : Call → Status
  | willWait => .waiting
  | willFinish => .finished

/--
Where the thread of an activity is.
-/
inductive Control where
  -- not started yet or in its own code
  | idle
  -- the status is set and `barrier.await` is not called yet
  | entering (c : Call)
  | awaiting (c : Call)
  -- `barrier.await` has returned
  | released (c : Call)
  -- `willWait` has seen that the status is not `Aborted`
  | checked
  -- ended by an exception
  | dead
  deriving DecidableEq

def Control.isAwaiting : Control → Bool
  | awaiting _ => true
  | _ => false

def Control.release : Control → Control
  | awaiting c => released c
  | c => c

structure ActivityInfo where
  name : String
  status : Status := .created
  control : Control := .idle
  deriving DecidableEq

structure CyclicBarrier (B : Type) where
  parties : Nat
  actions : List B
  -- the actions that are still to be called, while the barrier action runs
  acting : Option (List B) := none

structure Manager (B : Type) where
  registeredActivities : List ActivityInfo := []
  started : Bool := false
  allFinished : Bool := false
  barrier : Option (CyclicBarrier B) := none
  barrierActions : List B := []

inductive Action (B : Type) where
  | registerActivity (name : String) (isErrorEnabled : Bool)
  | registerAction (action : B) (isErrorEnabled : Bool)
  | start
  | willStart (id : ActivityID)
  | call (id : ActivityID) (c : Call)
  | await (id : ActivityID)
  -- the next of the barrier actions, which may call `reset`
  | act (resets : Bool)
  | release
  | check (id : ActivityID)
  | resume (id : ActivityID)
  -- an exception in the code of the activity
  | die (id : ActivityID)

namespace Manager

variable {B : Type}

def registerActivity (m : Manager B) (name : String) (isErrorEnabled : Bool)
    : Except Exception (ActivityID × Manager B) :=
  if m.started && !isErrorEnabled then
    .error (.initializationError "Can't add activities dynamically after the manager has started")
  else
    -- after the start this is only logged as an error
    let id := m.registeredActivities.length
    let info : ActivityInfo := { name }
    .ok (id, { m with registeredActivities := m.registeredActivities ++ [info] })

def registerAction (m : Manager B) (action : B) (isErrorEnabled : Bool)
    : Except Exception (Manager B) :=
  if !m.started then
    .ok { m with barrierActions := action :: m.barrierActions }
  else if !isErrorEnabled then
    .error (.initializationError
      "Tried to register an action after ActivityManager has already started. (UNSUPPORTED)")
  else
    .ok m

def start (m : Manager B) : Except Exception (Manager B) :=
  if m.started then
    .ok m
  else if m.registeredActivities.all (fun a => decide (a.status = .created)) then
    match m.registeredActivities with
    | [] => .ok { m with started := true, allFinished := true }
    | _ =>
      .ok { m with
        started := true
        registeredActivities := m.registeredActivities.map fun a => { a with status := .running }
        barrier := some ⟨m.registeredActivities.length, m.barrierActions.reverse, none⟩ }
  else
    .error (.assertionError "assumption failed")

def abnormallyTerminated (m : Manager B) : Option (Finset String) :=
  let res := ((m.registeredActivities.filter (fun a => decide (a.status = .aborted))).map
    (fun a => a.name)).toFinset
  if res.Nonempty then some res else none

def reset (m : Manager B) : Manager B :=
  { m with
    registeredActivities := m.registeredActivities.map fun a =>
      if a.status = .finished then a else { a with status := .aborted }
    allFinished := true }

def update (m : Manager B) (id : ActivityID) (a : ActivityInfo) : Manager B :=
  { m with registeredActivities := m.registeredActivities.set id a }

def awaiting (m : Manager B) : Nat :=
  m.registeredActivities.countP (fun a => a.control.isAwaiting)

-- The last party of the barrier runs the barrier action.
def trip (m : Manager B) (b : CyclicBarrier B) : Manager B :=
  if m.awaiting = b.parties then
    { m with
      allFinished := m.allFinished
        || m.registeredActivities.all (fun a => decide (a.status = .finished))
      barrier := some { b with acting := some b.actions } }
  else
    m

def await (m : Manager B) (id : ActivityID) (a : ActivityInfo) (c : Call) : Option (Manager B) :=
  match m.barrier with
  -- the reference is `null`
  | none => some (m.update id { a with control := .dead }).reset
  | some b =>
    match b.acting with
    -- the barrier is locked
    | some _ => none
    | none => some ((m.update id { a with control := .awaiting c }).trip b)

def release (m : Manager B) : Manager B :=
  { m with
    registeredActivities := m.registeredActivities.map fun a =>
      { a with control := a.control.release }
    barrier := m.barrier.map fun b => { b with acting := none } }

def check (m : Manager B) (id : ActivityID) (a : ActivityInfo) : Call → Manager B
  | .willWait =>
    -- `ActivityAbortedError`
    if a.status = .aborted then m.update id { a with control := .dead }
    else m.update id { a with control := .checked }
  | .willFinish =>
    if m.allFinished then m.update id { a with control := .idle }
    else m.update id { a with control := .entering .willFinish }

def step (m : Manager B) : Action B → Option (Manager B)
  | .registerActivity name isErrorEnabled =>
    match m.registerActivity name isErrorEnabled with
    | .ok (_, m') => some m'
    | .error _ => some m
  | .registerAction action isErrorEnabled =>
    match m.registerAction action isErrorEnabled with
    | .ok m' => some m'
    | .error _ => some m
  | .start =>
    match m.start with
    | .ok m' => some m'
    | .error _ => some m
  | .willStart id => do
    let a ← m.registeredActivities[id]?
    if a.control = .idle then some (m.update id { a with status := .running }) else none
  | .call id c => do
    let a ← m.registeredActivities[id]?
    if a.control = .idle then
      some (m.update id { a with status := c.status, control := .entering c })
    else
      none
  | .await id => do
    let a ← m.registeredActivities[id]?
    match a.control with
    | .entering c => m.await id a c
    | _ => none
  | .act resets => do
    let b ← m.barrier
    match b.acting with
    | some (_ :: rest) =>
      let m := { m with barrier := some { b with acting := some rest } }
      some (if resets then m.reset else m)
    | _ => none
  | .release => do
    let b ← m.barrier
    match b.acting with
    | some [] => some m.release
    | _ => none
  | .check id => do
    let a ← m.registeredActivities[id]?
    match a.control with
    | .released c => some (m.check id a c)
    | _ => none
  | .resume id => do
    let a ← m.registeredActivities[id]?
    if a.control = .checked then
      some (m.update id { a with status := .running, control := .idle })
    else
      none
  | .die id => do
    let a ← m.registeredActivities[id]?
    if a.control = .idle then some (m.update id { a with control := .dead }).reset else none

def lts (B : Type) : LTS (Manager B) (Action B) where
  init := fun m => m = {}
  step := fun m a m' => m.step a = some m'

end Manager

end ActivityManager
