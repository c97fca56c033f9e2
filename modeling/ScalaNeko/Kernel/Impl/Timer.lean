import ScalaNeko.Kernel.Impl.Scheduler

/-!
Timers, after `neko.Timer`, and runs of a scheduler with the results of the actions of its tasks.
-/

namespace Kernel

variable {A : Type}

def Timer.periodically (now delay period : Time) (action : A) (id : TaskID) : KernelTask A :=
  .periodic (now + delay) period action id false

structure Timed (A : Type) where
  run : Run A := {}
  -- every task whose action has ended, with the result
  answers : List (Stamped A × Bool) := []

namespace Timed

def answer (s : Timed A) : Action A → List (Stamped A × Bool)
  | .finish willReschedule => s.run.running.toList.map (fun t => (t, willReschedule))
  | _ => []

def step (s : Timed A) (a : Action A) : Option (Timed A) :=
  (s.run.step a).map (fun run => { run, answers := s.answers ++ s.answer a })

def lts (A : Type) : LTS (Timed A) (Action A) where
  init := fun s => s = {}
  step := fun s a s' => s.step a = some s'

end Timed

end Kernel
