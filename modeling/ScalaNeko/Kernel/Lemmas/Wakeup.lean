import ScalaNeko.Kernel.Lemmas.ActivityManager

/-!
As long as a call of `receive` or `sleep` has a deadline ahead, its wake-up task is in the queue, and
the clock does not pass over it.
-/

namespace Lockstep

open Kernel (Time TaskID KernelTask Stamped Held)

variable {n : Nat} {E : Type}

/--
The wake-up task gets a new identifier and a time in range.
-/
structure NewWakeup (s : System n E) (delay : Time) (taskID : TaskID) : Prop where
  fresh : ∀ t, t ∈ s.run.scheduled → t.task.id ≠ taskID
  range : (s.currentTime + delay).toInt = s.currentTime.toInt + delay.toInt

structure System.Waits (s : System n E) (i : Fin n) (c : Call E) (u : Wakeup) : Prop where
  call : (s.activities i).control.call = some c
  wakeup : c.wait.wakeup = some u

/--
Identifiers of tasks are new, the clock does not overflow, and a wake-up task is cancelled by the call
that it belongs to only.
-/
def Regular (s : System n E) : Action n E → Prop
  | .act _ (.schedule task) => ∀ t, t ∈ s.run.scheduled → t.task.id ≠ task.id
  | .act _ (.cancel taskID) => ∀ i c u, s.Waits i c u → u.task ≠ taskID
  | .receiveTimed _ delay taskID => NewWakeup s delay taskID
  | .sleep _ delay taskID => 0 < delay → NewWakeup s delay taskID
  | .barrier => s.run.sched.taskQueue ≠ [] → s.currentTime < Int64.maxValue
  | _ => True

def Wakeup.stamped (u : Wakeup) (since : Time) : Stamped Unit :=
  ⟨.simple u.deadline () u.task false, since⟩

structure Awaits (r : Kernel.Run Unit) (c : Call E) (u : Wakeup) : Prop where
  scheduled : u.stamped c.since ∈ r.scheduled
  held : Held r (u.stamped c.since)
  deadline : u.deadline.toInt = c.since.toInt + u.delay.toInt
  past : c.since.toInt ≤ r.sched.currentTime.toInt
  due : c.since.toInt < u.deadline.toInt → r.sched.currentTime.toInt ≤ u.deadline.toInt

structure Timed (s : System n E) : Prop where
  awaits : ∀ i c u, s.Waits i c u → Awaits s.run c u
  distinct : ∀ i j c d u v, s.Waits i c u → s.Waits j d v → i ≠ j → u.task ≠ v.task
  blocked : s.phase = .lockstep → ∀ i c u, (s.activities i).control = .waiting c →
    c.wait.wakeup = some u → s.currentTime.toInt < u.deadline.toInt
  left : ∀ i c, (s.activities i).control = .leaving c →
    c.wait.blocks s.currentTime (s.activities i).blockingQueue = false

theorem Timed.init : Timed ({} : System n E) where
  awaits := by
    rintro i c u ⟨⟨⟩, -⟩
  distinct := by
    rintro i j c d u v ⟨⟨⟩, -⟩
  blocked := by
    rintro - i c u ⟨⟩
  left := by
    rintro i c ⟨⟩

variable {r r' : Kernel.Run Unit} {c : Call E} {u : Wakeup}

theorem Awaits.step {k : Kernel.Action Unit} (h : Awaits r c u) (hst : r.step k = some r')
    (hnext : k ≠ .executeNext) (hcancel : k ≠ .cancel u.task)
    : Awaits r' c u := by
  have hclock := Kernel.currentTime_eq hst hnext
  constructor
  . rcases Kernel.step_scheduled hst with heq | ⟨task, heq, -⟩
    . rw [heq]
      exact h.scheduled
    . rw [heq]
      exact List.mem_append_left _ h.scheduled
  . exact h.held.step hst hcancel
  . exact h.deadline
  . rw [hclock]
    exact h.past
  . rw [hclock]
    exact h.due

theorem Awaits.mem_taskQueue (h : Awaits r c u) (hinv : Kernel.Inv r)
    (hahead : r.sched.currentTime.toInt < u.deadline.toInt)
    : u.stamped c.since ∈ r.sched.taskQueue := by
  have hdue : r.sched.currentTime.toInt < (u.stamped c.since).due := by
    simp only [Stamped.due, Wakeup.stamped, KernelTask.time]
    omega
  rcases h.held.somewhere with hq | hb | he
  . exact hq
  . have hbatch := hinv.batch_due _ hb
    omega
  . obtain ⟨e, he, heq⟩ := List.mem_map.mp he
    have hpast := (hinv.executed_due e he).2
    rw [heq] at hpast
    omega

-- The wake-up task is in the queue, so that the clock moves to its deadline at most.
theorem Awaits.executeNext (h : Awaits r c u) (hinv : Kernel.Inv r)
    (hahead : r.sched.currentTime.toInt < u.deadline.toInt)
    (hst : r.step .executeNext = some r') (hreg : Kernel.Regular r .executeNext)
    : Awaits r' c u := by
  have hmem := h.mem_taskQueue hinv hahead
  have hne := List.ne_nil_of_mem hmem
  obtain ⟨head, tail, hqueue⟩ := List.exists_cons_of_ne_nil hne
  have hheld := h.held.step hst nofun
  obtain ⟨-, -, rfl⟩ := Kernel.step_executeNext hst
  obtain ⟨now, hnow, hnext⟩ := Kernel.executeNext_cons hqueue (hreg.room rfl hne)
  have hhead := Kernel.time_head_le hinv.sorted hqueue hmem
  rw [show (u.stamped c.since).task.time = u.deadline from rfl] at hhead
  have hpast := h.past
  have hclock : r.sched.executeNext.1.currentTime.toInt = now.toInt := by rw [hnext]
  refine ⟨h.scheduled, hheld, h.deadline, ?_, ?_⟩
  . dsimp only
    omega
  . dsimp only
    omega

variable {s s' : System n E} {a : Action n E}

/--
What a step does to the scheduler, which moves the clock at the barrier only.
-/
theorem Effect.run (h : Effect s a s') (hreg : Regular s a)
    : s'.run = s.run
      ∨ ∃ k, s.run.step k = some s'.run ∧ Kernel.Regular s.run k
          ∧ (k = .executeNext → a = .barrier)
          ∧ ∀ taskID, k = .cancel taskID → (∃ who, a = .act who (.cancel taskID))
            ∨ ∃ i c u, a = .leave i ∧ s.Waits i c u ∧ taskID = u.task := by
  cases h with
  | @schedule who task =>
    exact .inr ⟨.schedule task, rfl, .of_fresh hreg, nofun, nofun⟩
  | @cancel who taskID =>
    refine .inr ⟨.cancel taskID, rfl, .of_cancel, nofun, ?_⟩
    rintro _ ⟨⟩
    exact .inl ⟨who, rfl⟩
  | deliver => exact .inl run_deliver
  | handled => exact .inl rfl
  | receive => exact .inl rfl
  | receiveTimed => exact .inr ⟨.schedule _, rfl, .of_fresh hreg.fresh, nofun, nofun⟩
  | sleep _ hdelay => exact .inr ⟨.schedule _, rfl, .of_fresh (hreg hdelay).fresh, nofun, nofun⟩
  | nap => exact .inl rfl
  | block => exact .inl rfl
  | unblock => exact .inl rfl
  | @leave i c blockingQueue result hleaving =>
    rw [run_ret]
    rcases run_cancelWakeup s c.wait with heq | ⟨u, hwakeup, hrun⟩
    . exact .inl heq
    . refine .inr ⟨_, hrun, .of_cancel, nofun, ?_⟩
      rintro _ ⟨⟩
      exact .inr ⟨i, c, u, rfl, ⟨by rw [hleaving]; rfl, hwakeup⟩, rfl⟩
  | finish => exact .inl rfl
  | ended => exact .inl rfl
  | reset => exact .inl rfl
  | advance _ _ _ _ hrun =>
    refine .inr ⟨.executeNext, hrun, ⟨nofun, fun _ => hreg⟩, fun _ => rfl, nofun⟩
  | call hrun => exact .inr ⟨.call, hrun, .of_call, nofun, nofun⟩
  | finishTask hrun => exact .inr ⟨.finish _, hrun, .of_finish, nofun, nofun⟩
  | release => exact .inl rfl

theorem run_reach {ok : System n E → Action n E → System n E → Prop}
    (hok : ∀ s a s', ok s a s' → Regular s a) (h : (System.lts n E).Reach ok s)
    : (Kernel.Run.lts Unit).Reach (fun r a _ => Kernel.Regular r a) s.run := by
  induction h with
  | init h0 =>
    cases h0
    exact .init rfl
  | @step s s' a _ hst hreg ih =>
    rcases (step_effect hst).run (hok _ _ _ hreg) with heq | ⟨k, hrun, hkernel, -⟩
    . rw [heq]
      exact ih
    . exact ih.next k hrun hkernel

/--
The activity `i` enters the call `c`.
-/
structure Entered (s : System n E) (a : Action n E) (i : Fin n) (c : Call E) (s' : System n E)
    : Prop where
  running : (s.activities i).control = .running
  since : c.since = s.currentTime
  start : c.start = s.arrivals.length
  pending : c.pending = (s.activities i).blockingQueue
  arrivals : s'.arrivals = s.arrivals
  queue : ∀ j, (s'.activities j).blockingQueue = (s.activities j).blockingQueue
  others : ∀ j, j ≠ i → (s'.activities j).control = (s.activities j).control
  wakeup : ∀ u, c.wait.wakeup = some u → u.deadline = s.currentTime + u.delay
    ∧ s'.run = s.run.schedule (.simple u.deadline () u.task false)
    ∧ (Regular s a → NewWakeup s u.delay u.task)

theorem call_update {i j : Fin n} {x : Activity E}
    (h : ((s.update i x).activities j).control.call = some c)
    (hx : ∀ c, x.control.call = some c → (s.activities i).control.call = some c)
    : (s.activities j).control.call = some c := by
  rw [activities_update] at h
  split at h
  . next hj =>
    subst hj
    exact hx c h
  . exact h

theorem queue_enter (i j : Fin n) (wait : Wait)
    : ((s.enter i wait).activities j).blockingQueue = (s.activities j).blockingQueue := by
  rw [System.enter, activities_update]
  split
  . next hj => rw [hj]
  . rfl

theorem control_enter {i j : Fin n} (wait : Wait) (hj : j ≠ i)
    : ((s.enter i wait).activities j).control = (s.activities j).control := by
  rw [System.enter, activities_update, if_neg hj]

theorem call_enter {i j : Fin n} {wait : Wait}
    (h : ((s.enter i wait).activities j).control.call = some c)
    : (s.activities j).control.call = some c
      ∨ j = i ∧ c = ⟨wait, s.currentTime, s.arrivals.length, (s.activities i).blockingQueue⟩ := by
  rw [System.enter, activities_update] at h
  split at h
  . next hj =>
    cases h
    exact .inr ⟨hj, rfl⟩
  . exact .inl h

theorem call_release (i : Fin n)
    : (s.release.activities i).control.call = (s.activities i).control.call := by
  unfold System.release
  dsimp only
  split
  . next c hwaiting =>
    rw [hwaiting]
    rfl
  . rfl

/--
The calls after a step are those from before it and the one that the step makes.
-/
theorem Effect.calls {i : Fin n} (h : Effect s a s') (hc : (s'.activities i).control.call = some c)
    : ((s.activities i).control.call = some c ∧ a ≠ .leave i) ∨ Entered s a i c s' := by
  cases h with
  | schedule => exact .inl ⟨hc, nofun⟩
  | cancel => exact .inl ⟨hc, nofun⟩
  | deliver => exact .inl ⟨by simpa using hc, nofun⟩
  | handled => exact .inl ⟨hc, nofun⟩
  | receive hrunning =>
    rcases call_enter hc with hc | ⟨rfl, rfl⟩
    . exact .inl ⟨hc, nofun⟩
    . exact .inr ⟨hrunning, rfl, rfl, rfl, rfl, fun j => queue_enter _ j _,
        fun j hj => control_enter _ hj, nofun⟩
  | receiveTimed hrunning =>
    rcases call_enter hc with hc | ⟨rfl, rfl⟩
    . exact .inl ⟨hc, nofun⟩
    . refine .inr ⟨hrunning, rfl, rfl, rfl, rfl, fun j => queue_enter _ j _,
        fun j hj => control_enter _ hj, ?_⟩
      rintro u ⟨⟩
      exact ⟨rfl, rfl, id⟩
  | sleep hrunning hdelay =>
    rcases call_enter hc with hc | ⟨rfl, rfl⟩
    . exact .inl ⟨hc, nofun⟩
    . refine .inr ⟨hrunning, rfl, rfl, rfl, rfl, fun j => queue_enter _ j _,
        fun j hj => control_enter _ hj, ?_⟩
      rintro u ⟨⟩
      exact ⟨rfl, rfl, fun hreg => hreg hdelay⟩
  | nap => exact .inl ⟨hc, nofun⟩
  | block hpolling =>
    refine .inl ⟨call_update hc ?_, nofun⟩
    rintro _ ⟨⟩
    rw [hpolling]
    rfl
  | unblock hpolling =>
    refine .inl ⟨call_update hc ?_, nofun⟩
    rintro _ ⟨⟩
    rw [hpolling]
    rfl
  | leave hleaving =>
    rw [activities_ret] at hc
    split at hc
    . cases hc
    . next hne =>
      refine .inl ⟨hc, ?_⟩
      rintro ⟨⟩
      exact hne rfl
  | finish hrunning =>
    refine .inl ⟨call_update hc ?_, nofun⟩
    rintro _ ⟨⟩
  | ended => exact .inl ⟨hc, nofun⟩
  | reset => exact .inl ⟨by simpa using hc, nofun⟩
  | advance => exact .inl ⟨hc, nofun⟩
  | call => exact .inl ⟨hc, nofun⟩
  | finishTask => exact .inl ⟨hc, nofun⟩
  | release => exact .inl ⟨by rwa [call_release] at hc, nofun⟩

theorem Effect.waits {i : Fin n} (h : Effect s a s') (hw : s'.Waits i c u)
    : (s.Waits i c u ∧ a ≠ .leave i) ∨ Entered s a i c s' := by
  rcases h.calls hw.call with ⟨hc, ha⟩ | hnew
  . exact .inl ⟨⟨hc, hw.wakeup⟩, ha⟩
  . exact .inr hnew

theorem Effect.currentTime (h : Effect s a s') (hreg : Regular s a) (ha : a ≠ .barrier)
    : s'.currentTime = s.currentTime := by
  unfold System.currentTime
  rcases h.run hreg with heq | ⟨k, hrun, -, hnext, -⟩
  . rw [heq]
  . exact Kernel.currentTime_eq hrun (fun hk => ha (hnext hk))

theorem Entered.awaits {i : Fin n} (h : Entered s a i c s') (hinv : Kernel.Inv s.run)
    (hreg : Regular s a) (hu : c.wait.wakeup = some u)
    : Awaits s'.run c u := by
  obtain ⟨hdeadline, hrun, hnew⟩ := h.wakeup u hu
  have hnew := hnew hreg
  have hrange := hnew.range
  have hsince := h.since
  rw [← hdeadline] at hrange
  rw [hrun]
  have hstamped : u.stamped c.since = ⟨.simple u.deadline () u.task false, s.run.sched.currentTime⟩ := by
    rw [Wakeup.stamped, hsince]
    rfl
  constructor
  . rw [hstamped]
    exact List.mem_append_right _ List.mem_cons_self
  . rw [hstamped]
    apply Held.of_schedule
    intro t ht
    exact hnew.fresh t (hinv.known t (.inl (List.mem_append_right _ ht)))
  . rw [hrange, hsince]
  . rw [hsince]
    exact Int.le_refl _
  . rw [hsince]
    exact Int.le_of_lt

-- The step does not take the wake-up task of a call that goes on.
theorem Timed.awaits_step {i : Fin n} (h : Timed s) (hinv : Kernel.Inv s.run)
    (heff : Effect s a s') (hreg : Regular s a) (hw : s.Waits i c u) (ha : a ≠ .leave i)
    : Awaits s'.run c u := by
  have hawaits := h.awaits i c u hw
  rcases heff.run hreg with heq | ⟨k, hrun, hkernel, hnext, hcancel⟩
  . rwa [heq]
  . by_cases hk : k = .executeNext
    . subst hk
      cases hnext rfl
      cases heff with
      | advance hphase harrived =>
        rcases Control.arrived_iff.mp (harrived i) with ⟨d, hwaiting⟩ | hfinished
        . have hcall := hw.call
          rw [hwaiting] at hcall
          cases hcall
          exact hawaits.executeNext hinv (h.blocked hphase i c u hwaiting hw.wakeup) hrun hkernel
        . have hcall := hw.call
          rw [hfinished] at hcall
          cases hcall
      | ended => exact hawaits
      | reset => exact hawaits
    . apply hawaits.step hrun hk
      rintro rfl
      rcases hcancel _ rfl with ⟨who, rfl⟩ | ⟨j, d, v, rfl, hv, heq⟩
      . exact hreg i c u hw rfl
      . refine h.distinct i j c d u v hw hv ?_ heq
        rintro rfl
        exact ha rfl

theorem Effect.phase (h : Effect s a s') (hphase : s'.phase = .lockstep)
    : a ≠ .barrier ∧ (s.phase = .lockstep ∨ a = .release) := by
  cases h with
  | schedule => exact ⟨nofun, .inl hphase⟩
  | cancel => exact ⟨nofun, .inl hphase⟩
  | deliver => exact ⟨nofun, .inl (by simpa using hphase)⟩
  | handled => exact ⟨nofun, .inl hphase⟩
  | receive => exact ⟨nofun, .inl hphase⟩
  | receiveTimed => exact ⟨nofun, .inl hphase⟩
  | sleep => exact ⟨nofun, .inl hphase⟩
  | nap => exact ⟨nofun, .inl hphase⟩
  | block => exact ⟨nofun, .inl hphase⟩
  | unblock => exact ⟨nofun, .inl hphase⟩
  | leave => exact ⟨nofun, .inl (by simpa using hphase)⟩
  | finish => exact ⟨nofun, .inl hphase⟩
  | ended => cases hphase
  | reset => cases hphase
  | advance => cases hphase
  | call => exact ⟨nofun, .inl hphase⟩
  | finishTask => exact ⟨nofun, .inl hphase⟩
  | release => exact ⟨nofun, .inr rfl⟩

theorem Effect.phase_barrier (h : Effect s .barrier s') : s.phase = .lockstep := by
  cases h with
  | ended hphase => exact hphase
  | reset hphase => exact hphase
  | advance hphase => exact hphase

theorem Effect.ne_leave {i : Fin n} (h : Effect s a s') (hi : (s.activities i).control = .waiting c)
    : a ≠ .leave i := by
  rintro rfl
  cases h with
  | leave hleaving =>
    rw [hi] at hleaving
    cases hleaving

-- An activity that is blocked after a step was so before, or its last test has just failed.
theorem Effect.blocked {i : Fin n} (h : Effect s a s') (hphase : s'.phase = .lockstep)
    (hi : (s'.activities i).control = .waiting c)
    : (s.phase = .lockstep ∧ a ≠ .release ∧ (s.activities i).control = .waiting c)
      ∨ (a = .poll i ∧ c.wait.blocks s.currentTime (s.activities i).blockingQueue = true) := by
  have hmoved := h.moved i
  rw [hi] at hmoved
  generalize hk : (s.activities i).control = k at hmoved
  cases hmoved with
  | stay _ hrelease =>
    have ha : a ≠ .release := fun heq => hrelease heq c rfl
    exact .inl ⟨(h.phase hphase).2.resolve_right ha, ha, rfl⟩
  | block _ ha hblocks => exact .inr ⟨ha, hblocks⟩

theorem Effect.goes_on {i : Fin n} (h : Effect s a s') (hi : (s'.activities i).control = .leaving c)
    (hk : (s.activities i).control = .leaving c)
    : a ≠ .leave i ∧ a ≠ .barrier := by
  constructor
  . rintro rfl
    cases h with
    | leave =>
      rw [activities_ret, if_pos rfl] at hi
      cases hi
  . rintro rfl
    have harrived : ¬ (s.activities i).control.arrived := by simp [hk, Control.arrived]
    cases h with
    | ended _ hall => exact harrived (hall i)
    | reset _ hall => exact harrived (hall i)
    | advance _ hall => exact harrived (hall i)

theorem Wait.blocks_mono {wait : Wait} {now : Time} {queue queue' : List E}
    (h : wait.blocks now queue = false) (hqueue : queue <+: queue')
    : wait.blocks now queue' = false := by
  have hne : queue.isEmpty = false → queue'.isEmpty = false := by
    rw [List.isEmpty_eq_false_iff, List.isEmpty_eq_false_iff]
    intro hne hnil
    rw [hnil, List.prefix_nil] at hqueue
    exact hne hqueue
  cases wait with
  | receive => exact hne h
  | receiveTimed u =>
    rw [blocks, Bool.and_eq_false_iff] at h ⊢
    exact h.imp hne id
  | sleep u => exact h

theorem Wait.lt_deadline {wait : Wait} {now : Time} {queue : List E}
    (h : wait.blocks now queue = true) (hu : wait.wakeup = some u)
    : now.toInt < u.deadline.toInt := by
  cases wait with
  | receive => cases hu
  | receiveTimed v =>
    cases hu
    simp only [blocks, Bool.and_eq_true, decide_eq_true_eq, Int64.lt_iff_toInt_lt] at h
    exact h.2
  | sleep v =>
    cases hu
    simpa only [blocks, decide_eq_true_eq, Int64.lt_iff_toInt_lt] using h

theorem Timed.step (h : Timed s) (hinv : Kernel.Inv s.run) (heff : Effect s a s')
    (hreg : Regular s a)
    : Timed s' := by
  constructor
  . intro i c u hw
    rcases heff.waits hw with ⟨hw, ha⟩ | hnew
    . exact h.awaits_step hinv heff hreg hw ha
    . exact hnew.awaits hinv hreg hw.wakeup
  . intro i j c d u v hu hv hne
    rcases heff.waits hu with ⟨hu, -⟩ | hnewu
    . rcases heff.waits hv with ⟨hv, -⟩ | hnewv
      . exact h.distinct i j c d u v hu hv hne
      . have hnew := (hnewv.wakeup v hv.wakeup).2.2 hreg
        exact hnew.fresh _ (h.awaits i c u hu).scheduled
    . rcases heff.waits hv with ⟨hv, -⟩ | hnewv
      . have hnew := (hnewu.wakeup u hu.wakeup).2.2 hreg
        exact (hnew.fresh _ (h.awaits j d v hv).scheduled).symm
      . have hcall := hu.call
        rw [hnewv.others i hne, hnewu.running] at hcall
        cases hcall
  . intro hphase i c u hi hu
    rw [heff.currentTime hreg (heff.phase hphase).1]
    rcases heff.blocked hphase hi with ⟨hlockstep, -, hk⟩ | ⟨-, hblocks⟩
    . exact h.blocked hlockstep i c u hk hu
    . exact Wait.lt_deadline hblocks hu
  . intro i c hi
    have hmoved := heff.moved i
    rw [hi] at hmoved
    generalize hk : (s.activities i).control = k at hmoved
    have hleft : c.wait.blocks s.currentTime (s.activities i).blockingQueue = false
        ∧ a ≠ .leave i ∧ a ≠ .barrier := by
      cases hmoved with
      | stay => exact ⟨h.left i c hk, heff.goes_on hi hk⟩
      | unblock _ ha hblocks =>
        subst ha
        exact ⟨hblocks, nofun, nofun⟩
    obtain ⟨hblocks, hleave, hbarrier⟩ := hleft
    obtain ⟨l, henqueues⟩ := heff.enqueues
    rw [heff.currentTime hreg hbarrier, henqueues.queue i hleave]
    exact Wait.blocks_mono hblocks (List.prefix_append _ _)

structure Sound (s : System n E) : Prop where
  kernel : Kernel.Inv s.run
  placed : Placed s
  timed : Timed s

theorem sound_of_reach {ok : System n E → Action n E → System n E → Prop}
    (hok : ∀ s a s', ok s a s' → Regular s a) (h : (System.lts n E).Reach ok s)
    : Sound s := by
  have hinv : Placed s ∧ Timed s := by
    apply LTS.Reach.invariant (I := fun s => Placed s ∧ Timed s) _ _ h
    . rintro s rfl
      exact ⟨Placed.init, Timed.init⟩
    . intro s a s' hreach hinv hst hreg
      have hkernel := Kernel.inv_of_reach (run_reach hok hreach)
      have heff := step_effect hst
      exact ⟨hinv.1.step heff, hinv.2.step hkernel heff (hok _ _ _ hreg)⟩
  exact ⟨Kernel.inv_of_reach (run_reach hok h), hinv.1, hinv.2⟩

-- While a call has a deadline ahead, its wake-up task is in the queue.
theorem Sound.taskQueue_ne_nil {i : Fin n} (h : Sound s)
    (hphase : s.phase = .lockstep) (hi : (s.activities i).control = .waiting c)
    (hu : c.wait.wakeup = some u)
    : s.run.sched.taskQueue ≠ [] := by
  have hawaits := h.timed.awaits i c u ⟨by rw [hi]; rfl, hu⟩
  exact List.ne_nil_of_mem
    (hawaits.mem_taskQueue h.kernel (h.timed.blocked hphase i c u hi hu))

end Lockstep
