import Mathlib.Data.List.Induction
import Mathlib.Data.List.Nodup
import ScalaNeko.Kernel.Impl.Dispatcher

/-!
Which receivers a dispatcher calls after a sequence of registrations. Whether a receiver is there is a
question of equality, but only the receiver itself is taken out.
-/

namespace Kernel
namespace SimpleDispatcher

open Registry (Call Lists Stands)

section

variable {C R : Type} {d : SimpleDispatcher C R} {clazz : C}

variable [Receiver R]

end

variable {C R : Type} [DecidableEq C] [Receiver R] {d : SimpleDispatcher C R} {clazz : C} {proto : R}

variable [DecidableEq R] {calls : List (Call C R)} {c : Call C R}

instance : Receiver Twin where
  equals := fun _ _ => true

end SimpleDispatcher
end Kernel
