import ScalaNeko.Kernel.Impl.ActivityManager
import ScalaNeko.Kernel.Lemmas.Pending

/-!
What holds in every run of the lockstep execution: the barrier meets activities that have arrived, and
the clock does not pass over the deadline of a call.
-/

namespace Lockstep

open Kernel (Time TaskID KernelTask Stamped)

variable {n : Nat} {E : Type}

def Control.status : Control E → Status
  | running => .running
  | polling _ => .running
  | waiting _ => .waiting
  | leaving _ => .running
  | finished => .finished

theorem Control.arrived_iff {k : Control E} : k.arrived ↔ (∃ c, k = .waiting c) ∨ k = .finished := by
  cases k with
  | running => simp [arrived]
  | polling c => simp [arrived]
  | waiting c => simp [arrived]
  | leaving c => simp [arrived]
  | finished => simp [arrived]

theorem Control.isBlockedInReceive_iff {k : Control E}
    : k.isBlockedInReceive ↔ ∃ c, k = .waiting c ∧ c.wait = .receive := by
  cases k with
  | waiting c =>
    rcases c with ⟨wait, since, start, pending⟩
    cases wait with
    | receive => simp [isBlockedInReceive]
    | receiveTimed u => simp [isBlockedInReceive]
    | sleep u => simp [isBlockedInReceive]
  | running => simp [isBlockedInReceive]
  | polling c => simp [isBlockedInReceive]
  | leaving c => simp [isBlockedInReceive]
  | finished => simp [isBlockedInReceive]

/--
Everything that a step can do.
-/
inductive Effect (s : System n E) : Action n E → System n E → Prop where
  | schedule {who : Actor n} {task : KernelTask Unit}
    : Effect s (.act who (.schedule task)) { s with run := s.run.schedule task }
  | cancel {who : Actor n} {taskID : TaskID}
    : Effect s (.act who (.cancel taskID)) (s.perform who (.cancel taskID))
  | deliver {who : Actor n} {dest : Fin n} {event : E} (hwho : s.mayAct who)
    : Effect s (.act who (.deliver dest event false)) (s.deliver who.isTask dest event)
  | handled {who : Actor n} {dest : Fin n} {event : E}
    : Effect s (.act who (.deliver dest event true)) s
  | receive {i : Fin n} (hrunning : (s.activities i).control = .running)
    : Effect s (.receive i) (s.enter i .receive)
  | receiveTimed {i : Fin n} {delay : Time} {taskID : TaskID}
    (hrunning : (s.activities i).control = .running)
    : Effect s (.receiveTimed i delay taskID) (s.enterTimed i .receiveTimed delay taskID)
  | sleep {i : Fin n} {delay : Time} {taskID : TaskID}
    (hrunning : (s.activities i).control = .running) (hdelay : 0 < delay)
    : Effect s (.sleep i delay taskID) (s.enterTimed i .sleep delay taskID)
  | nap {i : Fin n} {delay : Time} {taskID : TaskID}
    : Effect s (.sleep i delay taskID) s
  | block {i : Fin n} {c : Call E} (hpolling : (s.activities i).control = .polling c)
    (hblocks : c.wait.blocks s.currentTime (s.activities i).blockingQueue = true)
    : Effect s (.poll i)
        (s.update i { s.activities i with status := .waiting, control := .waiting c })
  | unblock {i : Fin n} {c : Call E} (hpolling : (s.activities i).control = .polling c)
    (hblocks : c.wait.blocks s.currentTime (s.activities i).blockingQueue = false)
    : Effect s (.poll i) (s.update i { s.activities i with control := .leaving c })
  | leave {i : Fin n} {c : Call E} {blockingQueue : List E} {result : Option E}
    (hleaving : (s.activities i).control = .leaving c)
    (htake : System.take (s.activities i).blockingQueue c.wait = some (blockingQueue, result))
    : Effect s (.leave i) (s.ret i c blockingQueue result)
  | finish {i : Fin n} (hrunning : (s.activities i).control = .running)
    : Effect s (.finish i)
        (s.update i { s.activities i with status := .finished, control := .finished })
  | ended (hphase : s.phase = .lockstep) (harrived : ∀ i, (s.activities i).control.arrived)
    (hfinished : ∀ i, (s.activities i).status = .finished)
    : Effect s .barrier { s with phase := .ended }
  | reset (hphase : s.phase = .lockstep) (harrived : ∀ i, (s.activities i).control.arrived)
    (hunfinished : ∃ i, (s.activities i).status ≠ .finished)
    (hqueue : s.run.sched.taskQueue = [])
    (hpending : ∀ i, (s.activities i).status = .waiting → ¬ (s.activities i).hasPendingMessages)
    : Effect s .barrier s.reset
  | advance {run : Kernel.Run Unit} (hphase : s.phase = .lockstep)
    (harrived : ∀ i, (s.activities i).control.arrived)
    (hunfinished : ∃ i, (s.activities i).status ≠ .finished)
    (hevents : s.run.sched.taskQueue ≠ []
      ∨ ∃ i, (s.activities i).status = .waiting ∧ (s.activities i).hasPendingMessages)
    (hrun : s.run.step .executeNext = some run)
    : Effect s .barrier { s with run, phase := .advancing }
  | call {run : Kernel.Run Unit} (hrun : s.run.step .call = some run)
    : Effect s .call { s with run }
  | finishTask {run : Kernel.Run Unit} {willReschedule : Bool}
    (hrun : s.run.step (.finish willReschedule) = some run)
    : Effect s (.finishTask willReschedule) { s with run }
  | release (hphase : s.phase = .advancing) (hbatch : s.run.batch = [])
    (hrunning : s.run.running = none)
    : Effect s .release s.release

variable {s s' : System n E} {a : Action n E}

theorem isRunning_iff {i : Fin n} : s.isRunning i ↔ (s.activities i).control = .running := by
  unfold System.isRunning
  split
  . next h => simp [h]
  . next h => simpa using h

theorem hasPendingMessages_iff
    : s.hasPendingMessages
      ↔ ∃ i, (s.activities i).status = .waiting ∧ (s.activities i).hasPendingMessages := by
  simp [System.hasPendingMessages]

theorem barrier_effect (hphase : s.phase = .lockstep)
    (harrived : ∀ i, (s.activities i).control.arrived) (h : s.barrierAction = some s')
    : Effect s .barrier s' := by
  unfold System.barrierAction at h
  split at h
  . next hfinished =>
    cases h
    exact .ended hphase harrived (by simpa using hfinished)
  . next hunfinished =>
    have hunfinished : ∃ i, (s.activities i).status ≠ .finished := by simpa using hunfinished
    split at h
    . next hempty =>
      cases h
      rw [Bool.and_eq_true, Bool.not_eq_true', ← Bool.not_eq_true, hasPendingMessages_iff] at hempty
      refine .reset hphase harrived hunfinished (List.isEmpty_iff.mp hempty.1) ?_
      intro i hwaiting hpending
      exact hempty.2 ⟨i, hwaiting, hpending⟩
    . next hevents =>
      obtain ⟨run, hrun, rfl⟩ := Option.map_eq_some_iff.mp h
      refine .advance hphase harrived hunfinished ?_ hrun
      by_contra hnone
      rw [not_or, not_not, ← hasPendingMessages_iff] at hnone
      apply hevents
      simp [Kernel.Scheduler.isEmpty, hnone.1, hnone.2]

theorem step_effect (h : s.step a = some s') : Effect s a s' := by
  cases a with
  | act who op =>
    simp only [System.step] at h
    split at h
    . next hwho =>
      cases h
      cases op with
      | schedule task => exact .schedule
      | cancel taskID => exact .cancel
      | deliver dest event isDefinedAt =>
        cases isDefinedAt with
        | false => exact .deliver hwho
        | true => exact .handled
    . cases h
  | receive i =>
    simp only [System.step] at h
    split at h
    . next hrunning =>
      cases h
      exact .receive (isRunning_iff.mp hrunning)
    . cases h
  | receiveTimed i delay taskID =>
    simp only [System.step] at h
    split at h
    . next hrunning =>
      cases h
      exact .receiveTimed (isRunning_iff.mp hrunning)
    . cases h
  | sleep i delay taskID =>
    simp only [System.step] at h
    split at h
    . next hrunning =>
      split at h
      . next hdelay =>
        cases h
        exact .sleep (isRunning_iff.mp hrunning) hdelay
      . cases h
        exact .nap
    . cases h
  | poll i =>
    simp only [System.step] at h
    split at h
    . next c hpolling =>
      cases h
      unfold System.poll
      dsimp only
      split
      . next hblocks => exact .block hpolling hblocks
      . next hblocks => exact .unblock hpolling (Bool.eq_false_iff.mpr hblocks)
    . cases h
  | leave i =>
    simp only [System.step] at h
    split at h
    . next c hleaving =>
      obtain ⟨⟨blockingQueue, result⟩, htake, rfl⟩ := Option.map_eq_some_iff.mp h
      exact .leave hleaving htake
    . cases h
  | finish i =>
    simp only [System.step] at h
    split at h
    . next hrunning =>
      cases h
      exact .finish (isRunning_iff.mp hrunning)
    . cases h
  | barrier =>
    simp only [System.step] at h
    split at h
    . next hbarrier => exact barrier_effect hbarrier.1 (by simpa using hbarrier.2) h
    . cases h
  | call =>
    obtain ⟨run, hrun, rfl⟩ := Option.map_eq_some_iff.mp h
    exact .call hrun
  | finishTask willReschedule =>
    obtain ⟨run, hrun, rfl⟩ := Option.map_eq_some_iff.mp h
    exact .finishTask hrun
  | release =>
    simp only [System.step] at h
    split at h
    . next hrelease =>
      cases h
      exact .release hrelease.1 (List.isEmpty_iff.mp hrelease.2.1)
        (Option.isNone_iff_eq_none.mp hrelease.2.2)
    . cases h

theorem activities_update (i j : Fin n) (x : Activity E)
    : (s.update i x).activities j = if j = i then x else s.activities j :=
  Function.update_apply s.activities i x j

section Deliver

variable {byTask : Bool} {dest : Fin n} {event : E}

/--
A delivery changes the activity it is for, and what is recorded about arrivals and about the hand-over.
-/
theorem deliver_frame
    : s.deliver byTask dest event = { s with
        activities := (s.deliver byTask dest event).activities
        arrivals := (s.deliver byTask dest event).arrivals
        handed := s.handed || !byTask && (s.activities dest).control.isBlockedInReceive } := by
  unfold System.deliver
  dsimp only
  split
  . rfl
  . rfl

@[simp]
theorem run_deliver : (s.deliver byTask dest event).run = s.run := by
  rw [deliver_frame]

@[simp]
theorem phase_deliver : (s.deliver byTask dest event).phase = s.phase := by
  rw [deliver_frame]

@[simp]
theorem returns_deliver : (s.deliver byTask dest event).returns = s.returns := by
  rw [deliver_frame]

theorem handed_deliver
    : (s.deliver byTask dest event).handed
      = (s.handed || !byTask && (s.activities dest).control.isBlockedInReceive) := by
  rw [deliver_frame]

theorem activities_deliver (i : Fin n)
    : (s.deliver byTask dest event).activities i
      = if i = dest then
          { s.activities i with
            messageCount := (s.activities i).messageCount + 1
            blockingQueue :=
              if (s.activities i).blockingQueue.length < capacity then
                (s.activities i).blockingQueue ++ [event]
              else
                (s.activities i).blockingQueue }
        else
          s.activities i := by
  unfold System.deliver
  dsimp only
  by_cases hi : i = dest
  . subst hi
    split
    . simp [System.update]
    . simp [System.update]
  . split
    . simp [System.update, hi]
    . simp [System.update, hi]

@[simp]
theorem control_deliver (i : Fin n)
    : ((s.deliver byTask dest event).activities i).control = (s.activities i).control := by
  rw [activities_deliver]
  split
  . rfl
  . rfl

@[simp]
theorem status_deliver (i : Fin n)
    : ((s.deliver byTask dest event).activities i).status = (s.activities i).status := by
  rw [activities_deliver]
  split
  . rfl
  . rfl

end Deliver

section CancelWakeup

variable {wait : Wait}

@[simp]
theorem activities_cancelWakeup : (s.cancelWakeup wait).activities = s.activities := by
  unfold System.cancelWakeup
  split
  . rfl
  . rfl

@[simp]
theorem phase_cancelWakeup : (s.cancelWakeup wait).phase = s.phase := by
  unfold System.cancelWakeup
  split
  . rfl
  . rfl

@[simp]
theorem arrivals_cancelWakeup : (s.cancelWakeup wait).arrivals = s.arrivals := by
  unfold System.cancelWakeup
  split
  . rfl
  . rfl

@[simp]
theorem returns_cancelWakeup : (s.cancelWakeup wait).returns = s.returns := by
  unfold System.cancelWakeup
  split
  . rfl
  . rfl

theorem run_cancelWakeup (s : System n E) (wait : Wait)
    : (s.cancelWakeup wait).run = s.run
      ∨ ∃ u, wait.wakeup = some u
          ∧ s.run.step (.cancel u.task) = some (s.cancelWakeup wait).run := by
  unfold System.cancelWakeup
  split
  . exact .inl rfl
  . next u hwakeup => exact .inr ⟨u, hwakeup, rfl⟩

end CancelWakeup

theorem take_eq {blockingQueue rest : List E} {wait : Wait} {result : Option E}
    (h : System.take blockingQueue wait = some (rest, result))
    : blockingQueue = result.toList ++ rest := by
  cases wait with
  | receive =>
    cases blockingQueue with
    | nil => cases h
    | cons event rest =>
      cases h
      rfl
  | receiveTimed u =>
    cases blockingQueue with
    | nil =>
      cases h
      rfl
    | cons event rest =>
      cases h
      rfl
  | sleep u =>
    cases h
    rfl

section Ret

variable {i : Fin n} {c : Call E} {blockingQueue : List E} {result : Option E}

@[simp]
theorem run_ret : (s.ret i c blockingQueue result).run = (s.cancelWakeup c.wait).run := rfl

@[simp]
theorem phase_ret : (s.ret i c blockingQueue result).phase = s.phase := phase_cancelWakeup

@[simp]
theorem arrivals_ret : (s.ret i c blockingQueue result).arrivals = s.arrivals :=
  arrivals_cancelWakeup

theorem returns_ret
    : (s.ret i c blockingQueue result).returns
      = s.returns ++ [⟨i, c, s.currentTime, s.arrivals.length, result⟩] := by
  unfold System.ret System.update
  dsimp only
  rw [returns_cancelWakeup]

theorem activities_ret (j : Fin n)
    : (s.ret i c blockingQueue result).activities j
      = if j = i then
          { s.activities i with
            control := .running
            blockingQueue
            messageCount := if result.isSome then (s.activities i).messageCount - 1
              else (s.activities i).messageCount }
        else
          s.activities j := by
  unfold System.ret System.update
  dsimp only
  rw [activities_cancelWakeup, Function.update_apply]

end Ret

@[simp]
theorem control_reset (i : Fin n)
    : (s.reset.activities i).control = (s.activities i).control := by
  unfold System.reset
  dsimp only
  split
  . rfl
  . rfl

theorem activities_release_of_waiting {i : Fin n} {c : Call E}
    (h : (s.activities i).control = .waiting c)
    : s.release.activities i
      = { s.activities i with status := .running, control := .polling c } := by
  simp [System.release, h]

theorem activities_release_of_finished {i : Fin n} (h : (s.activities i).control = .finished)
    : s.release.activities i = s.activities i := by
  simp [System.release, h]

/--
What a step does to the thread of the activity `i`.
-/
inductive Moved (s : System n E) (a : Action n E) (i : Fin n) : Control E → Control E → Prop where
  | stay (k : Control E) (hrelease : a = .release → ∀ c, k ≠ .waiting c) : Moved s a i k k
  | enter (c : Call E) : Moved s a i .running (.polling c)
  | block (c : Call E) (ha : a = .poll i)
    (hblocks : c.wait.blocks s.currentTime (s.activities i).blockingQueue = true)
    : Moved s a i (.polling c) (.waiting c)
  | unblock (c : Call E) (ha : a = .poll i)
    (hblocks : c.wait.blocks s.currentTime (s.activities i).blockingQueue = false)
    : Moved s a i (.polling c) (.leaving c)
  | leave (c : Call E) (ha : a = .leave i) : Moved s a i (.leaving c) .running
  | finish : Moved s a i .running .finished
  | wake (c : Call E) (ha : a = .release) : Moved s a i (.waiting c) (.polling c)

theorem moved_update {i j : Fin n} {x : Activity E} (ha : a ≠ .release)
    (hx : Moved s a i (s.activities i).control x.control)
    : Moved s a j (s.activities j).control ((s.update i x).activities j).control := by
  rw [activities_update]
  split
  . next hj =>
    subst hj
    exact hx
  . exact .stay _ (fun heq => absurd heq ha)

theorem moved_enter {i j : Fin n} {wait : Wait} (ha : a ≠ .release)
    (hrunning : (s.activities i).control = .running)
    : Moved s a j (s.activities j).control ((s.enter i wait).activities j).control := by
  apply moved_update ha
  rw [hrunning]
  exact .enter _

theorem Effect.moved (h : Effect s a s') (j : Fin n)
    : Moved s a j (s.activities j).control (s'.activities j).control := by
  cases h with
  | schedule => exact .stay _ nofun
  | cancel => exact .stay _ nofun
  | deliver =>
    rw [control_deliver]
    exact .stay _ nofun
  | handled => exact .stay _ nofun
  | receive hrunning => exact moved_enter (by nofun) hrunning
  | receiveTimed hrunning => exact moved_enter (by nofun) hrunning
  | sleep hrunning => exact moved_enter (by nofun) hrunning
  | nap => exact .stay _ nofun
  | block hpolling hblocks =>
    refine moved_update (by nofun) ?_
    rw [hpolling]
    exact .block _ rfl hblocks
  | unblock hpolling hblocks =>
    refine moved_update (by nofun) ?_
    rw [hpolling]
    exact .unblock _ rfl hblocks
  | @leave i c blockingQueue result hleaving =>
    rw [activities_ret]
    split
    . next hj =>
      subst hj
      rw [hleaving]
      exact .leave _ rfl
    . exact .stay _ nofun
  | finish hrunning =>
    refine moved_update (by nofun) ?_
    rw [hrunning]
    exact .finish
  | ended => exact .stay _ nofun
  | reset =>
    rw [control_reset]
    exact .stay _ nofun
  | advance => exact .stay _ nofun
  | call => exact .stay _ nofun
  | finishTask => exact .stay _ nofun
  | release =>
    unfold System.release
    dsimp only
    split
    . next c hwaiting =>
      rw [hwaiting]
      exact .wake c rfl
    . next hother => exact .stay _ (fun _ => hother)

-- What is enqueued for `i`.
def eventsFor (i : Fin n) (arrivals : List (Arrival n E)) : List E :=
  (arrivals.filter (fun x => x.dest = i)).map Arrival.event

@[simp]
theorem eventsFor_nil (i : Fin n) : eventsFor i ([] : List (Arrival n E)) = [] := rfl

theorem eventsFor_append (i : Fin n) (l l' : List (Arrival n E))
    : eventsFor i (l ++ l') = eventsFor i l ++ eventsFor i l' := by
  simp [eventsFor]

/--
What a step enqueues, at the clock value at which it is taken.
-/
structure Enqueues (s : System n E) (a : Action n E) (l : List (Arrival n E)) (s' : System n E)
    : Prop where
  arrivals : s'.arrivals = s.arrivals ++ l
  queue : ∀ i, a ≠ .leave i →
    (s'.activities i).blockingQueue = (s.activities i).blockingQueue ++ eventsFor i l
  deliver : ∀ x, x ∈ l → x.clock = s.currentTime
    ∧ ∃ who, a = .act who (.deliver x.dest x.event false) ∧ s.mayAct who ∧ x.byTask = who.isTask

theorem Enqueues.none (harrivals : s'.arrivals = s.arrivals)
    (hqueue : ∀ i, a ≠ .leave i →
      (s'.activities i).blockingQueue = (s.activities i).blockingQueue)
    : Enqueues s a [] s' where
  arrivals := by simp [harrivals]
  queue := fun i hi => by simp [hqueue i hi]
  deliver := by simp

theorem eventsFor_eq_nil {i : Fin n} {l : List (Arrival n E)}
    : eventsFor i l = [] ↔ ∀ x, x ∈ l → x.dest ≠ i := by
  simp [eventsFor, List.filter_eq_nil_iff]

theorem Enqueues.queue_eq {i : Fin n} {l : List (Arrival n E)} (h : Enqueues s a l s')
    (hleave : a ≠ .leave i) (hdeliver : ∀ who event, a = .act who (.deliver i event false) → ¬ s.mayAct who)
    : (s'.activities i).blockingQueue = (s.activities i).blockingQueue := by
  have hnil : eventsFor i l = [] := by
    rw [eventsFor_eq_nil]
    rintro x hx rfl
    obtain ⟨-, who, ha, hwho, -⟩ := h.deliver x hx
    exact hdeliver who x.event ha hwho
  rw [h.queue i hleave, hnil, List.append_nil]

theorem Enqueues.queue_poll {i j : Fin n} {l : List (Arrival n E)} (h : Enqueues s (.poll j) l s')
    : (s'.activities i).blockingQueue = (s.activities i).blockingQueue := by
  apply h.queue_eq
  . simp
  . simp

theorem queue_update {i : Fin n} {x : Activity E} (j : Fin n)
    (hx : x.blockingQueue = (s.activities i).blockingQueue)
    : ((s.update i x).activities j).blockingQueue = (s.activities j).blockingQueue := by
  rw [activities_update]
  split
  . next hj => rw [hx, hj]
  . rfl

theorem arrivals_deliver {byTask : Bool} {dest : Fin n} {event : E}
    : (s.deliver byTask dest event).arrivals
      = s.arrivals ++ if (s.activities dest).blockingQueue.length < capacity then
          [⟨dest, s.currentTime, event, byTask⟩] else [] := by
  unfold System.deliver
  dsimp only
  split
  . rfl
  . simp [System.update]

theorem enqueues_deliver {who : Actor n} {dest : Fin n} {event : E} (hwho : s.mayAct who)
    : ∃ l, Enqueues s (.act who (.deliver dest event false)) l (s.deliver who.isTask dest event) := by
  refine ⟨_, arrivals_deliver, ?_, ?_⟩
  . intro i _
    rw [activities_deliver]
    split
    . next hi =>
      subst hi
      split
      . simp [eventsFor]
      . simp
    . next hi =>
      split
      . simp [eventsFor, Ne.symm hi]
      . simp
  . intro x hx
    split at hx
    . rw [List.mem_singleton] at hx
      subst hx
      exact ⟨rfl, who, rfl, hwho, rfl⟩
    . cases hx

theorem Effect.enqueues (h : Effect s a s') : ∃ l, Enqueues s a l s' := by
  cases h with
  | deliver hwho => exact enqueues_deliver hwho
  | schedule => exact ⟨[], .none rfl (fun _ _ => rfl)⟩
  | cancel => exact ⟨[], .none rfl (fun _ _ => rfl)⟩
  | handled => exact ⟨[], .none rfl (fun _ _ => rfl)⟩
  | receive => exact ⟨[], .none rfl (fun j _ => queue_update j rfl)⟩
  | receiveTimed => exact ⟨[], .none rfl (fun j _ => queue_update j rfl)⟩
  | sleep => exact ⟨[], .none rfl (fun j _ => queue_update j rfl)⟩
  | nap => exact ⟨[], .none rfl (fun _ _ => rfl)⟩
  | block => exact ⟨[], .none rfl (fun j _ => queue_update j rfl)⟩
  | unblock => exact ⟨[], .none rfl (fun j _ => queue_update j rfl)⟩
  | @leave i c blockingQueue result =>
    refine ⟨[], .none arrivals_ret ?_⟩
    intro j hj
    have hne : j ≠ i := by
      rintro rfl
      exact hj rfl
    rw [activities_ret, if_neg hne]
  | finish => exact ⟨[], .none rfl (fun j _ => queue_update j rfl)⟩
  | ended => exact ⟨[], .none rfl (fun _ _ => rfl)⟩
  | reset =>
    refine ⟨[], .none rfl ?_⟩
    intro j _
    unfold System.reset
    dsimp only
    split
    . rfl
    . rfl
  | advance => exact ⟨[], .none rfl (fun _ _ => rfl)⟩
  | call => exact ⟨[], .none rfl (fun _ _ => rfl)⟩
  | finishTask => exact ⟨[], .none rfl (fun _ _ => rfl)⟩
  | release =>
    refine ⟨[], .none rfl ?_⟩
    intro j _
    unfold System.release
    dsimp only
    split
    . rfl
    . rfl

/--
Where the barrier and the batch find the activities.
-/
structure Placed (s : System n E) : Prop where
  idle : s.phase ≠ .advancing → s.run.batch = [] ∧ s.run.running = none
  arrived : s.phase ≠ .lockstep → ∀ i, (s.activities i).control.arrived
  status : s.phase ≠ .aborted → ∀ i, (s.activities i).status = (s.activities i).control.status

theorem Placed.init : Placed ({} : System n E) where
  idle := by simp
  arrived := by simp
  status := by simp [Control.status]

theorem Placed.lockstep {i : Fin n} (h : Placed s) (hi : ¬ (s.activities i).control.arrived)
    : s.phase = .lockstep := by
  by_contra hphase
  exact hi (h.arrived hphase i)

theorem Placed.idle_of_lockstep (h : Placed s) (hphase : s.phase = .lockstep)
    : s.run.batch = [] ∧ s.run.running = none := by
  apply h.idle
  simp [hphase]

theorem Placed.status_of_lockstep (h : Placed s) (hphase : s.phase = .lockstep)
    : ∀ i, (s.activities i).status = (s.activities i).control.status := by
  apply h.status
  simp [hphase]

theorem Placed.not_mayAct_task (h : Placed s) (hphase : s.phase = .lockstep)
    : ¬ s.mayAct .task := by
  simp [System.mayAct, (h.idle_of_lockstep hphase).2]

theorem Placed.status_eq {i : Fin n} (h : Placed s) (hi : ¬ (s.activities i).control.arrived)
    : (s.activities i).status = (s.activities i).control.status :=
  h.status_of_lockstep (h.lockstep hi) i

theorem Placed.update {i : Fin n} {x : Activity E} (h : Placed s)
    (hi : ¬ (s.activities i).control.arrived) (hx : x.status = x.control.status)
    : Placed (s.update i x) := by
  constructor
  . exact h.idle
  . intro hphase
    exact absurd (h.lockstep hi) hphase
  . intro hphase j
    rw [activities_update]
    split
    . exact hx
    . exact h.status hphase j

theorem Placed.withRun {run : Kernel.Run Unit} (h : Placed s) (hbatch : run.batch = s.run.batch)
    (hrunning : run.running = s.run.running)
    : Placed { s with run } := by
  refine ⟨?_, h.arrived, h.status⟩
  dsimp only
  rw [hbatch, hrunning]
  exact h.idle

theorem Placed.enter {i : Fin n} {wait : Wait} (h : Placed s)
    (hrunning : (s.activities i).control = .running)
    : Placed (s.enter i wait) := by
  have hi : ¬ (s.activities i).control.arrived := by simp [hrunning, Control.arrived]
  apply h.update hi
  rw [h.status_eq hi, hrunning]
  rfl

theorem Placed.ret {i : Fin n} {c : Call E} {blockingQueue : List E} {result : Option E}
    (h : Placed s) (hleaving : (s.activities i).control = .leaving c)
    : Placed (s.ret i c blockingQueue result) := by
  have hi : ¬ (s.activities i).control.arrived := by simp [hleaving, Control.arrived]
  have hphase := h.lockstep hi
  constructor
  . rw [phase_ret, run_ret]
    intro hne
    rcases run_cancelWakeup s c.wait with heq | ⟨u, -, hrun⟩
    . rw [heq]
      exact h.idle hne
    . rw [← Option.some.inj hrun]
      exact h.idle hne
  . intro hne
    rw [phase_ret] at hne
    exact absurd hphase hne
  . intro _ j
    rw [activities_ret]
    split
    . have hstatus := h.status_eq hi
      rw [hleaving] at hstatus
      exact hstatus
    . exact h.status_of_lockstep hphase j

theorem Placed.release (h : Placed s) (hphase : s.phase = .advancing) (hbatch : s.run.batch = [])
    (hrunning : s.run.running = none)
    : Placed s.release := by
  refine ⟨fun _ => ⟨hbatch, hrunning⟩, fun hne => absurd rfl hne, ?_⟩
  intro _ i
  have harrived := h.arrived (by simp [hphase]) i
  rcases Control.arrived_iff.mp harrived with ⟨c, hwaiting⟩ | hfinished
  . rw [activities_release_of_waiting hwaiting]
    rfl
  . rw [activities_release_of_finished hfinished]
    exact h.status (by simp [hphase]) i

theorem Placed.step (h : Placed s) (heff : Effect s a s') : Placed s' := by
  cases heff with
  | schedule => exact h.withRun rfl rfl
  | cancel => exact h.withRun rfl rfl
  | deliver =>
    constructor
    . simpa using h.idle
    . simpa using h.arrived
    . simpa using h.status
  | handled => exact h
  | receive hrunning => exact h.enter hrunning
  | receiveTimed hrunning => exact (h.enter hrunning).withRun rfl rfl
  | sleep hrunning => exact (h.enter hrunning).withRun rfl rfl
  | nap => exact h
  | block hpolling => exact h.update (by simp [hpolling, Control.arrived]) rfl
  | @unblock i c hpolling =>
    have hi : ¬ (s.activities i).control.arrived := by simp [hpolling, Control.arrived]
    apply h.update hi
    rw [h.status_eq hi, hpolling]
    rfl
  | leave hleaving => exact h.ret hleaving
  | finish hrunning => exact h.update (by simp [hrunning, Control.arrived]) rfl
  | ended hphase harrived =>
    exact ⟨fun _ => h.idle_of_lockstep hphase, fun _ => harrived,
      fun _ => h.status_of_lockstep hphase⟩
  | reset hphase harrived =>
    refine ⟨fun _ => h.idle_of_lockstep hphase, ?_, fun hne => absurd rfl hne⟩
    intro _ i
    rw [control_reset]
    exact harrived i
  | advance hphase harrived _ _ hrun =>
    exact ⟨fun hne => absurd rfl hne, fun _ => harrived, fun _ => h.status_of_lockstep hphase⟩
  | call hrun =>
    obtain ⟨t, batch, hbatch, -, rfl⟩ := Kernel.step_call hrun
    refine ⟨?_, h.arrived, h.status⟩
    intro hphase
    rw [(h.idle hphase).1] at hbatch
    cases hbatch
  | finishTask hrun =>
    obtain ⟨t, hrunning, -⟩ := Kernel.step_finish hrun
    refine ⟨?_, h.arrived, h.status⟩
    intro hphase
    rw [(h.idle hphase).2] at hrunning
    cases hrunning
  | release hphase hbatch hrunning => exact h.release hphase hbatch hrunning

end Lockstep
