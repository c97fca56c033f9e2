import Mathlib.Logic.Function.Basic
import ScalaNeko.Lib.Registry

/-!
Dispatchers of events to the protocols of a process, after `neko.kernel.Dispatcher`.
-/

namespace Kernel

/--
Receivers are objects: two of them can be equal by `equals` without being the same.
-/
class Receiver (R : Type) where
  equals : R → R → Bool

inductive Handler (R : Type) where
  | protocol (proto : R)
  -- `orphanEventHandler`, which prints a warning
  | orphan
  deriving DecidableEq

structure SimpleDispatcher (C R : Type) where
  protocolsForMessage : C → List R := fun _ => []

namespace SimpleDispatcher

variable {C R : Type} [DecidableEq C] [DecidableEq R] [Receiver R]

def registerFor (d : SimpleDispatcher C R) (clazz : C) (proto : R) : SimpleDispatcher C R :=
  let protocols := d.protocolsForMessage clazz
  if protocols.any (fun p => Receiver.equals p proto) then
    d
  else
    { d with
      protocolsForMessage := Function.update d.protocolsForMessage clazz (proto :: protocols) }

def unregisterFor (d : SimpleDispatcher C R) (clazz : C) (proto : R) : SimpleDispatcher C R :=
  let protocols := d.protocolsForMessage clazz
  if protocols.any (fun p => Receiver.equals p proto) then
    let excluding := protocols.filter (fun p => decide (p ≠ proto))
    { d with protocolsForMessage := Function.update d.protocolsForMessage clazz excluding }
  else
    d

def unregisterAllFor (d : SimpleDispatcher C R) (clazz : C) : SimpleDispatcher C R :=
  { d with protocolsForMessage := Function.update d.protocolsForMessage clazz [] }

def protocolsFor (d : SimpleDispatcher C R) (clazz : C) : List (Handler R) :=
  match d.protocolsForMessage clazz with
  | [] => [.orphan]
  | protocols => protocols.map .protocol

-- A receiver does to the state of the process whatever its own `deliver` does.
def deliver {E S : Type} (getClass : E → C) (receive : E → Handler R → S → S)
    (d : SimpleDispatcher C R) (ev : E) (s : S) : S :=
  let protocols := d.protocolsFor (getClass ev)
  protocols.foldl (fun s proto => receive ev proto s) s

def call (d : SimpleDispatcher C R) : Registry.Call C R → SimpleDispatcher C R
  | .register clazz proto => d.registerFor clazz proto
  | .unregister clazz proto => d.unregisterFor clazz proto
  | .unregisterAll clazz => d.unregisterAllFor clazz

-- The dispatcher of a process after the calls.
def after (calls : List (Registry.Call C R)) : SimpleDispatcher C R := calls.foldl call {}

end SimpleDispatcher

end Kernel
