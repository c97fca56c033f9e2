import ScalaNeko.Kernel.Impl.Scheduler

/-!
The simulator, after `neko.kernel.sim.Simulator`, and the loop at the end of a simulation, after
`neko.kernel.NekoSystem`.
-/

namespace Kernel

variable {A : Type}

-- What happens from the start of a batch to its end: only actions schedule and cancel tasks.
def Action.Inside (r : Run A) : Action A → Prop
  | .schedule _ => r.running ≠ none
  | .cancel _ => r.running ≠ none
  | .executeNext => False
  | .call => True
  | .finish _ => True

namespace Simulator

variable (ok : Run A → Action A → Prop)

/--
A call of `advanceTime` in which every step meets `ok`.
-/
inductive AdvanceTime (r : Run A) : Run A → Prop where
  | intro {r₁ r' : Run A} : r.step .executeNext = some r₁ → ok r .executeNext →
      (Run.lts A).Path (fun r a _ => Action.Inside r a ∧ ok r a) r₁ r' →
      r'.batch = [] → r'.running = none → AdvanceTime r r'

/--
The first iterations of `while (simulator.nonEmptyBesideDaemons) simulator.advanceTime()`.
-/
inductive Drain (r : Run A) : Nat → Run A → Prop where
  | start : Drain r 0 r
  | next {n : Nat} {r₁ r' : Run A} : Drain r n r₁ → r₁.sched.nonEmptyBesideDaemons →
      AdvanceTime ok r₁ r' → Drain r (n + 1) r'

end Simulator

end Kernel
