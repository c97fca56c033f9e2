import ScalaNeko.Event

/-!
Vector clocks, after `neko.protocol.VectorClock`. An `IndexedSeq` with one entry for each process is
a function on the processes.
-/

structure VCTimeStamped (N : Nat) (M : Type) where
  m : M
  ts : PID N → Int64
  deriving DecidableEq

instance {N : Nat} {M : Type} [Message N M] : Message N (VCTimeStamped N M) :=
  Message.wrapper VCTimeStamped.m

structure VectorClock (N : Nat) where
  vc : PID N → Int64 := fun _ => 0
  deriving DecidableEq

namespace VectorClock

variable {N : Nat} {S M : Type}

def updateClock (clock : VectorClock N) (f : (PID N → Int64) → (PID N → Int64)) : VectorClock N :=
  let update := f clock.vc
  { clock with vc := update }

def increment (me : PID N) (vec : PID N → Int64) : PID N → Int64 :=
  fun i => if i = me then vec i + 1 else vec i

def combine (v1 v2 : PID N → Int64) (f : Int64 → Int64 → Int64) : PID N → Int64 :=
  fun i => f (v1 i) (v2 i)

def time (clock : VectorClock N) : PID N → Int64 := clock.vc

def internal (me : PID N) (clock : VectorClock N) : VectorClock N :=
  clock.updateClock (fun vc => increment me vc)

def onSend (me : PID N) (clock : VectorClock N)
    : Event S M → VectorClock N × List (Event S (VCTimeStamped N M))
  | .signal ie =>
    let clock := clock.updateClock (fun vc => increment me vc)
    (clock, [.signal ie])
  | .message m =>
    let clock := clock.updateClock (fun vc => increment me vc)
    (clock, [.message ⟨m, clock.vc⟩])

def onReceive (me : PID N) (clock : VectorClock N) (e : VCTimeStamped N M) : VectorClock N × M :=
  let clock := clock.updateClock (fun vc => combine (increment me vc) e.ts (fun x y => max x y))
  (clock, e.m)

end VectorClock
