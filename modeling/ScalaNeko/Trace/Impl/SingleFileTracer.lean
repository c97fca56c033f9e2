import Mathlib.Data.Finset.Insert

/-!
The loop at the beginning of `SingleFileTracer.printTo`, which completes the set of the entities that
the tracer knows. What is printed after it is left out.
-/

namespace Trace

class NamedEntity (E : Type) where
  senderOpt : E → Option E

/--
The order in which the elements of a set come in a loop over it, which depends on the set alone.
-/
structure Iteration (E : Type) where
  toList : Finset E → List E
  mem_toList : ∀ s e, e ∈ toList s ↔ e ∈ s

end Trace

namespace SingleFileTracer

open Trace

variable {E : Type} [DecidableEq E] [NamedEntity E]

-- The variables of the loop.
structure Scan (E : Type) where
  entities : Finset E
  hasChanged : Bool

-- The test is made on the set as it is by then.
def visit (scan : Scan E) (entity : E) : Scan E :=
  match NamedEntity.senderOpt entity with
  | some sender =>
    if sender ∈ scan.entities then
      scan
    else
      { entities := insert sender scan.entities, hasChanged := true }
  | none => scan

-- The body of the loop goes through the set as it is at the beginning.
def body (iteration : Iteration E) (entities : Finset E) : Scan E :=
  (iteration.toList entities).foldl visit { entities, hasChanged := false }

-- The do-while loop.
def connectEntities (iteration : Iteration E) : Nat → Finset E → Option (Finset E)
  | 0, _ => none
  | fuel + 1, entities =>
    let scan := body iteration entities
    if scan.hasChanged then connectEntities iteration fuel scan.entities else some scan.entities

end SingleFileTracer
