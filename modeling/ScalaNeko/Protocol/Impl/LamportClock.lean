import ScalaNeko.Event

/-!
Lamport clocks, after `neko.protocol.LamportClock`.
-/

structure LCTimeStamped (M : Type) where
  m : M
  ts : Int64
  deriving DecidableEq

instance {N : Nat} {M : Type} [Message N M] : Message N (LCTimeStamped M) :=
  Message.wrapper LCTimeStamped.m

structure LamportClock where
  lc : Int64 := 0
  deriving DecidableEq

namespace LamportClock

variable {S M : Type}

def update (clock : LamportClock) (f : Int64 → Int64) : LamportClock :=
  let update := f clock.lc
  if update > clock.lc then { clock with lc := update } else clock

def time (clock : LamportClock) : Int64 := clock.lc

def internal (clock : LamportClock) : LamportClock := clock.update (fun l => l + 1)

def onSend (clock : LamportClock) : Event S M → LamportClock × List (Event S (LCTimeStamped M))
  | .signal ie =>
    let clock := clock.update (fun l => l + 1)
    (clock, [.signal ie])
  | .message m =>
    let clock := clock.update (fun l => l + 1)
    (clock, [.message ⟨m, clock.lc⟩])

def onReceive (clock : LamportClock) (e : LCTimeStamped M) : LamportClock × M :=
  let clock := clock.update (fun l => 1 + max l e.ts)
  (clock, e.m)

end LamportClock
