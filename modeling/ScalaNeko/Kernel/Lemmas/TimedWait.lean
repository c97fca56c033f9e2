import ScalaNeko.Kernel.Lemmas.Arrival

/-!
A call of `sleep` or of `receive` with a timeout returns exactly when it should.
-/

namespace Lockstep

open Kernel (Time TaskID KernelTask Busy Gone)

variable {n : Nat} {E : Type} {s s' : System n E} {a : Action n E} {c : Call E} {u : Wakeup}

/--
An activity that waits in a call with a timeout only gets events from the actions of tasks.
-/
def ByTasks (s : System n E) : Action n E → Prop
  | .act (.activity _) (.deliver dest _ false) =>
    ∀ c u, (s.activities dest).control = .waiting c → c.wait ≠ .receiveTimed u
  | _ => True

def Wait.isReceiveTimed (wait : Wait) : Prop := ∃ u, wait = .receiveTimed u

def EmptyTimed (s : System n E) : Prop :=
  s.phase = .lockstep → ∀ i c, (s.activities i).control = .waiting c → c.wait.isReceiveTimed →
    (s.activities i).blockingQueue = []

theorem EmptyTimed.step (h : EmptyTimed s) (hplaced : Placed s) (heff : Effect s a s')
    (hbyTasks : ByTasks s a)
    : EmptyTimed s' := by
  rintro hphase i c hi ⟨u, hwait⟩
  obtain ⟨l, henqueues⟩ := heff.enqueues
  rcases heff.blocked hphase hi with ⟨hlockstep, -, hk⟩ | ⟨rfl, hblocks⟩
  . rw [henqueues.queue_eq (heff.ne_leave hk), h hlockstep i c hk ⟨u, hwait⟩]
    rintro who event rfl
    cases who with
    | activity j => exact absurd hwait (hbyTasks c u hk)
    | task => exact hplaced.not_mayAct_task hlockstep
  . rw [hwait, Wait.blocks, Bool.and_eq_true] at hblocks
    rw [henqueues.queue_poll]
    exact List.isEmpty_iff.mp hblocks.1

/--
How a call with a deadline that has returned ended.
-/
structure Ended (r : Return n E) (u : Wakeup) : Prop where
  deadline : u.deadline.toInt = r.call.since.toInt + u.delay.toInt
  due : r.call.since.toInt < u.deadline.toInt → r.clock.toInt ≤ u.deadline.toInt
  none : r.result = none → u.deadline.toInt ≤ r.clock.toInt

/--
What holds of a call that has returned, from then on.
-/
structure Past (s : System n E) (r : Return n E) : Prop where
  stop : r.stop ≤ s.arrivals.length
  clock : r.clock.toInt ≤ s.currentTime.toInt
  busy : Busy s.run → r.clock.toInt < s.currentTime.toInt
  later : ∀ x, x ∈ s.arrivals.drop r.stop → x.byTask → r.clock.toInt < x.clock.toInt
  ended : ∀ u, r.call.wait.wakeup = some u → Ended r u
  sleep : ∀ u, r.call.wait = .sleep u → r.result = none
  gone : ∀ u, r.call.wait.wakeup = some u → Gone s.run u.task

theorem Effect.clock_le (h : Effect s a s') (hreg : Regular s a)
    : s.currentTime.toInt ≤ s'.currentTime.toInt := by
  rcases h.run hreg with heq | ⟨k, hrun, hkernel, -⟩
  . rw [System.currentTime, System.currentTime, heq]
  . exact Kernel.currentTime_le hrun hkernel

theorem Effect.busy (h : Effect s a s') (hreg : Regular s a) (hbusy : Busy s'.run)
    : Busy s.run ∨ s.currentTime.toInt < s'.currentTime.toInt := by
  rcases h.run hreg with heq | ⟨k, hrun, hkernel, -⟩
  . rw [heq] at hbusy
    exact .inl hbusy
  . by_cases hk : k = .executeNext
    . subst hk
      have hlt := (Kernel.currentTime_executeNext hrun hkernel).1 (hbusy.queue_ne_nil hrun)
      exact .inr (Int64.lt_iff_toInt_lt.mp hlt)
    . exact .inl (hbusy.of_step hrun hk)

theorem Past.step {r : Return n E} (h : Past s r) (heff : Effect s a s') (hreg : Regular s a)
    : Past s' r := by
  obtain ⟨l, henqueues⟩ := heff.enqueues
  have hclock := heff.clock_le hreg
  constructor
  . rw [henqueues.arrivals, List.length_append]
    exact h.stop.trans (Nat.le_add_right _ _)
  . exact h.clock.trans hclock
  . intro hbusy
    rcases heff.busy hreg hbusy with hbusy | hlt
    . exact Int.lt_of_lt_of_le (h.busy hbusy) hclock
    . exact Int.lt_of_le_of_lt h.clock hlt
  . intro x hx hbyTask
    rw [henqueues.arrivals, List.drop_append_of_le_length h.stop, List.mem_append] at hx
    rcases hx with hx | hx
    . exact h.later x hx hbyTask
    . obtain ⟨hnow, who, -, hwho, heq⟩ := henqueues.deliver x hx
      rw [hnow]
      apply h.busy
      cases who with
      | activity j =>
        rw [heq] at hbyTask
        cases hbyTask
      | task =>
        refine .inr ?_
        rw [← Option.isSome_iff_ne_none]
        exact hwho
  . exact h.ended
  . exact h.sleep
  . intro u hu
    rcases heff.run hreg with heq | ⟨k, hrun, hkernel, -⟩
    . rw [heq]
      exact h.gone u hu
    . exact (h.gone u hu).step hrun hkernel

theorem Sound.idle_of_leaving {i : Fin n} (h : Sound s)
    (hleaving : (s.activities i).control = .leaving c)
    : s.run.batch = [] ∧ s.run.running = none := by
  have harrived : ¬ (s.activities i).control.arrived := by simp [hleaving, Control.arrived]
  exact h.placed.idle_of_lockstep (h.placed.lockstep harrived)

theorem Sound.ended {i : Fin n} {rest : List E} {result : Option E} (h : Sound s)
    (hleaving : (s.activities i).control = .leaving c)
    (htake : System.take (s.activities i).blockingQueue c.wait = some (rest, result))
    (hu : c.wait.wakeup = some u)
    : Ended ⟨i, c, s.currentTime, s.arrivals.length, result⟩ u := by
  have hawaits := h.timed.awaits i c u ⟨by rw [hleaving]; rfl, hu⟩
  refine ⟨hawaits.deadline, hawaits.due, ?_⟩
  intro hnone
  dsimp only at hnone
  subst hnone
  have hleft := h.timed.left i c hleaving
  rw [← Int.not_lt, ← Int64.lt_iff_toInt_lt]
  intro hlt
  cases hwait : c.wait with
  | receive =>
    rw [hwait] at hu
    cases hu
  | receiveTimed v =>
    rw [hwait] at hu htake hleft
    cases hu
    have hempty := take_head htake nofun
    rw [Wait.blocks, List.isEmpty_iff.mpr (List.head?_eq_none_iff.mp hempty.symm), Bool.true_and,
      decide_eq_false_iff_not] at hleft
    exact hleft hlt
  | sleep v =>
    rw [hwait] at hu hleft
    cases hu
    rw [Wait.blocks, decide_eq_false_iff_not] at hleft
    exact hleft hlt

theorem Sound.gone {i : Fin n} (h : Sound s) (hleaving : (s.activities i).control = .leaving c)
    (hu : c.wait.wakeup = some u)
    : Gone (s.cancelWakeup c.wait).run u.task := by
  have hawaits := h.timed.awaits i c u ⟨by rw [hleaving]; rfl, hu⟩
  have hidle := h.idle_of_leaving hleaving
  rw [System.cancelWakeup, hu]
  refine ⟨⟨_, hawaits.scheduled, rfl⟩, ?_⟩
  intro t ht
  dsimp only [System.perform] at ht
  rw [hidle.1, hidle.2, Option.toList_none, List.nil_append, List.nil_append] at ht
  simpa [Kernel.Task.id] using (List.mem_filter.mp ht).2

theorem Sound.past_ret {i : Fin n} {rest : List E} {result : Option E} (h : Sound s)
    (hleaving : (s.activities i).control = .leaving c)
    (htake : System.take (s.activities i).blockingQueue c.wait = some (rest, result))
    : Past (s.ret i c rest result) ⟨i, c, s.currentTime, s.arrivals.length, result⟩ := by
  have hclock : (s.ret i c rest result).currentTime = s.currentTime := by
    rw [System.currentTime, run_ret]
    rcases run_cancelWakeup s c.wait with heq | ⟨u, -, hrun⟩
    . rw [heq]
      rfl
    . exact Kernel.currentTime_eq hrun nofun
  constructor
  . rw [arrivals_ret]
  . rw [hclock]
  . intro hbusy
    have hidle := h.idle_of_leaving hleaving
    rw [run_ret] at hbusy
    have hbusy : Busy s.run := by
      rcases run_cancelWakeup s c.wait with heq | ⟨u, -, hrun⟩
      . rwa [heq] at hbusy
      . exact hbusy.of_step hrun nofun
    rcases hbusy with hbatch | hrunning
    . exact absurd hidle.1 hbatch
    . exact absurd hidle.2 hrunning
  . intro x hx
    rw [arrivals_ret, List.drop_length] at hx
    cases hx
  . intro u hu
    exact h.ended hleaving htake hu
  . intro u hwait
    dsimp only at hwait
    rw [hwait] at htake
    cases htake
    rfl
  . intro u hu
    exact h.gone hleaving hu

/--
What arrived for the caller during a call that has returned, and by the actions of tasks ever since.
-/
def System.arrivalsFor (s : System n E) (r : Return n E) : List (Arrival n E) :=
  r.during s ++ (s.arrivals.drop r.stop).filter (fun x => x.dest = r.who && x.byTask)

/--
The result and the clock value that a call of `receive` with a timeout should return.
-/
def System.expected (s : System n E) (r : Return n E) (delay : Time) : Option E × Int :=
  let deadline := r.call.since.toInt + delay.toInt
  match r.call.pending with
  | event :: _ => (some event, r.call.since.toInt)
  | [] =>
    match (s.arrivalsFor r).find? (fun x => decide (x.clock.toInt ≤ deadline)) with
    | some x => (some x.event, x.clock.toInt)
    | none => (none, deadline)

/--
The activity `i` has begun the call `c` at the current clock value, and the task that wakes it up is in
the queue.
-/
structure Begun (s : System n E) (i : Fin n) (c : Call E) (u : Wakeup) (s' : System n E) : Prop where
  control : (s'.activities i).control = .polling c
  since : c.since = s.currentTime
  start : c.start = s.arrivals.length
  pending : c.pending = (s.activities i).blockingQueue
  deadline : u.deadline.toInt = s.currentTime.toInt + u.delay.toInt
  clock : s'.currentTime = s.currentTime
  queued : u.stamped c.since ∈ s'.run.sched.taskQueue

/--
Calls with a deadline are exact. They start at the clock value at which they are made and go on until
they return, with the wake-up task in the queue as long as the deadline is ahead, and events are
enqueued when they are delivered. Calls that have not returned do not miss the deadline: the barrier
moves the clock on, but not past it.
-/
structure Exact (s : System n E) : Prop where
  receives : ∀ i delay taskID, s.isRunning i → Regular s (.receiveTimed i delay taskID) →
    0 < delay.toInt → ∃ s' c u, s.step (.receiveTimed i delay taskID) = some s'
      ∧ c.wait = .receiveTimed u ∧ u.delay = delay ∧ u.task = taskID ∧ Begun s i c u s'
  sleeps : ∀ i delay taskID, s.isRunning i → Regular s (.sleep i delay taskID) →
    0 < delay.toInt → ∃ s' c u, s.step (.sleep i delay taskID) = some s'
      ∧ c.wait = .sleep u ∧ u.delay = delay ∧ u.task = taskID ∧ Begun s i c u s'
  waits : ∀ i c a s', (s.activities i).control.call = some c → s.step a = some s' →
    (s'.activities i).control.call = some c
      ∨ (s'.activities i).control = .running
        ∧ ∃ result, s'.returns = s.returns ++ [⟨i, c, s.currentTime, s.arrivals.length, result⟩]
  delivers : ∀ who dest event, s.mayAct who → (s.activities dest).blockingQueue.length < capacity →
    ∃ s', s.step (.act who (.deliver dest event false)) = some s'
      ∧ s'.arrivals = s.arrivals ++ [⟨dest, s.currentTime, event, who.isTask⟩]
      ∧ (s'.activities dest).blockingQueue = (s.activities dest).blockingQueue ++ [event]
  queued : ∀ i c u, s.Waits i c u → s.currentTime.toInt < c.since.toInt + u.delay.toInt →
    u.stamped c.since ∈ s.run.sched.taskQueue
  receive : ∀ r u, r ∈ s.returns → r.call.wait = .receiveTimed u → 0 < u.delay.toInt →
    (r.result, r.clock.toInt) = s.expected r u.delay
  sleep : ∀ r u, r ∈ s.returns → r.call.wait = .sleep u → 0 < u.delay.toInt →
    r.clock.toInt = r.call.since.toInt + u.delay.toInt
  cancelled : ∀ r u, r ∈ s.returns → r.call.wait.wakeup = some u →
    ∀ t, t ∈ s.run.sched.taskQueue → t.task.id ≠ u.task
  ahead : ∀ i c u, s.Waits i c u → 0 < u.delay.toInt →
    s.currentTime.toInt ≤ c.since.toInt + u.delay.toInt
  advance : ∀ i c u s', (s.activities i).control = .waiting c → c.wait.wakeup = some u →
    s.step .barrier = some s' → Regular s .barrier →
    s'.phase = .advancing ∧ s.currentTime < s'.currentTime

structure ExactInv (s : System n E) : Prop where
  empty : EmptyTimed s
  tracked : Tracked s
  current : Current Wait.isReceiveTimed s
  returned : ∀ r, r ∈ s.returns → r.call.wait.isReceiveTimed → Returned s r
  past : ∀ r, r ∈ s.returns → Past s r

theorem exactInv_of_reach (h : (System.lts n E).Reach (fun s a _ => Regular s a ∧ ByTasks s a) s)
    : ExactInv s := by
  apply LTS.Reach.invariant (I := ExactInv) _ _ h
  . rintro s rfl
    refine ⟨?_, .init, .init, by simp, by simp⟩
    rintro - i c ⟨⟩
  . intro s a s' hreach hinv hst hok
    have heff := step_effect hst
    have hsound := sound_of_reach (fun _ _ _ hok => hok.1) hreach
    constructor
    . exact hinv.empty.step hsound.placed heff hok.2
    . exact hinv.tracked.step heff
    . apply hinv.current.step hinv.tracked heff hok.1
      rintro rfl _ i c hi hwait
      exact hinv.empty heff.phase_barrier i c hi hwait
    . intro r hr hwait
      exact returned_step hinv.returned hinv.tracked hinv.current nofun heff hr hwait
    . intro r hr
      rcases heff.returns with heq | ⟨i, c, rest, result, rfl, hleaving, htake, rfl⟩
      . rw [heq] at hr
        exact (hinv.past r hr).step heff hok.1
      . rw [returns_ret, List.mem_append, List.mem_singleton] at hr
        rcases hr with hr | rfl
        . exact (hinv.past r hr).step heff hok.1
        . exact hsound.past_ret hleaving htake

theorem Past.expected_of_none {r : Return n E} (h : Past s r) (hended : Ended r u)
    (hduring : r.during s = []) (hclock : r.clock.toInt = u.deadline.toInt)
    (hpending : r.call.pending = [])
    : s.expected r u.delay = (none, r.clock.toInt) := by
  have hlater : (s.arrivalsFor r).find?
      (fun x => decide (x.clock.toInt ≤ r.call.since.toInt + u.delay.toInt)) = none := by
    rw [List.find?_eq_none, System.arrivalsFor, hduring, List.nil_append]
    intro x hx
    rw [List.mem_filter, Bool.and_eq_true] at hx
    have hlt := h.later x hx.1 hx.2.2
    have hdeadline := hended.deadline
    rw [decide_eq_true_eq]
    omega
  unfold System.expected
  dsimp only
  rw [hpending, hlater, hclock, hended.deadline]

theorem Returned.expected {r : Return n E} (h : Returned s r) (hpast : Past s r)
    (hwait : r.call.wait = .receiveTimed u) (hdelay : 0 < u.delay.toInt)
    : (r.result, r.clock.toInt) = s.expected r u.delay := by
  have hended := hpast.ended u (by rw [hwait]; rfl)
  have hdeadline := hended.deadline
  have hdue := hended.due (by omega)
  have hresult := h.result
  cases hpending : r.call.pending with
  | cons event pending =>
    have hclock := h.pending (by rw [hpending]; exact List.cons_ne_nil _ _)
    rw [hpending] at hresult
    unfold System.expected
    dsimp only
    rw [hpending, hresult, hclock]
    rfl
  | nil =>
    rw [hpending, List.nil_append] at hresult
    cases hduring : r.during s with
    | nil =>
      rw [hduring] at hresult
      have hclock : r.clock.toInt = u.deadline.toInt := by
        have hnone := hended.none hresult
        omega
      rw [hpast.expected_of_none hended hduring hclock hpending, hresult]
      rfl
    | cons x rest =>
      have hclock := h.arrivals x (by rw [hduring]; exact List.mem_cons_self)
      have hle : x.clock.toInt ≤ r.call.since.toInt + u.delay.toInt := by
        rw [hclock]
        omega
      unfold System.expected System.arrivalsFor
      dsimp only
      rw [hduring] at hresult
      rw [hpending, hduring, List.cons_append, List.find?_cons_of_pos (by simpa using hle), hresult,
        ← hclock]
      rfl

theorem Sound.begun {i : Fin n} {delay : Time} {taskID : TaskID} (h : Sound s)
    (hnew : NewWakeup s delay taskID) (wait : Wakeup → Wait)
    : Begun s i
        ⟨wait ⟨delay, s.currentTime + delay, taskID⟩, s.currentTime, s.arrivals.length,
          (s.activities i).blockingQueue⟩
        ⟨delay, s.currentTime + delay, taskID⟩ (s.enterTimed i wait delay taskID) where
  control := by simp [System.enterTimed, System.enter, System.update]
  since := rfl
  start := rfl
  pending := rfl
  deadline := hnew.range
  clock := rfl
  queued := by
    apply Kernel.mem_schedule
    intro t ht
    exact hnew.fresh t (h.kernel.known t (.inl (List.mem_append_right _ ht)))

theorem Sound.receives {i : Fin n} {delay : Time} {taskID : TaskID} (h : Sound s)
    (hrunning : s.isRunning i) (hreg : Regular s (.receiveTimed i delay taskID))
    : ∃ s' c u, s.step (.receiveTimed i delay taskID) = some s'
      ∧ c.wait = .receiveTimed u ∧ u.delay = delay ∧ u.task = taskID ∧ Begun s i c u s' :=
  ⟨_, _, _, if_pos hrunning, rfl, rfl, rfl, h.begun hreg .receiveTimed⟩

theorem Sound.sleeps {i : Fin n} {delay : Time} {taskID : TaskID} (h : Sound s)
    (hrunning : s.isRunning i) (hreg : Regular s (.sleep i delay taskID)) (hdelay : 0 < delay.toInt)
    : ∃ s' c u, s.step (.sleep i delay taskID) = some s'
      ∧ c.wait = .sleep u ∧ u.delay = delay ∧ u.task = taskID ∧ Begun s i c u s' := by
  have hdelay : 0 < delay := Int64.lt_iff_toInt_lt.mpr hdelay
  refine ⟨_, _, _, ?_, rfl, rfl, rfl, h.begun (hreg hdelay) .sleep⟩
  simp only [System.step, hrunning, hdelay, if_true]

/--
A call goes on until it returns.
-/
theorem Effect.waiting {i : Fin n} (h : Effect s a s') (hc : (s.activities i).control.call = some c)
    : (s'.activities i).control.call = some c
      ∨ (s'.activities i).control = .running
        ∧ ∃ result, s'.returns = s.returns ++ [⟨i, c, s.currentTime, s.arrivals.length, result⟩] := by
  have hmoved := h.moved i
  generalize hk : (s.activities i).control = k at hmoved hc
  generalize (s'.activities i).control = k' at hmoved
  cases hmoved with
  | stay => exact .inl hc
  | enter => cases hc
  | block => exact .inl hc
  | unblock => exact .inl hc
  | leave d ha =>
    cases hc
    subst ha
    cases h with
    | leave hleaving =>
      rw [hk] at hleaving
      cases hleaving
      exact .inr ⟨rfl, _, returns_ret⟩
  | finish => cases hc
  | wake => exact .inl hc

theorem delivers {who : Actor n} {dest : Fin n} {event : E} (hwho : s.mayAct who)
    (hlength : (s.activities dest).blockingQueue.length < capacity)
    : ∃ s', s.step (.act who (.deliver dest event false)) = some s'
      ∧ s'.arrivals = s.arrivals ++ [⟨dest, s.currentTime, event, who.isTask⟩]
      ∧ (s'.activities dest).blockingQueue = (s.activities dest).blockingQueue ++ [event] := by
  refine ⟨s.deliver who.isTask dest event, if_pos hwho, ?_, ?_⟩
  . simp [System.deliver, hlength, System.update, System.currentTime]
  . simp [activities_deliver, hlength]

theorem Sound.queued {i : Fin n} (h : Sound s) (hw : s.Waits i c u)
    (hahead : s.currentTime.toInt < c.since.toInt + u.delay.toInt)
    : u.stamped c.since ∈ s.run.sched.taskQueue := by
  have hawaits := h.timed.awaits i c u hw
  rw [← hawaits.deadline] at hahead
  exact hawaits.mem_taskQueue h.kernel hahead

theorem Sound.advance {i : Fin n} (h : Sound s) (hi : (s.activities i).control = .waiting c)
    (hu : c.wait.wakeup = some u) (heff : Effect s .barrier s') (hreg : Regular s .barrier)
    : s'.phase = .advancing ∧ s.currentTime < s'.currentTime := by
  have hphase := heff.phase_barrier
  have hqueue := h.taskQueue_ne_nil hphase hi hu
  cases heff with
  | ended _ _ hfinished =>
    have hstatus := h.placed.status (by rw [hphase]; nofun) i
    rw [hi, hfinished i] at hstatus
    cases hstatus
  | reset _ _ _ hnil => exact absurd hnil hqueue
  | advance _ _ _ _ hrun =>
    exact ⟨rfl, (Kernel.currentTime_executeNext hrun ⟨nofun, fun _ => hreg⟩).1 hqueue⟩

theorem exact_of_byTasks (h : (System.lts n E).Reach (fun s a _ => Regular s a ∧ ByTasks s a) s)
    : Exact s := by
  have hinv := exactInv_of_reach h
  have hsound := sound_of_reach (fun _ _ _ hok => hok.1) h
  constructor
  . intro i delay taskID hrunning hreg _
    exact hsound.receives hrunning hreg
  . intro i delay taskID hrunning hreg hdelay
    exact hsound.sleeps hrunning hreg hdelay
  . intro i c a s' hc hst
    exact (step_effect hst).waiting hc
  . intro who dest event hwho hlength
    exact delivers hwho hlength
  . intro i c u hw hahead
    exact hsound.queued hw hahead
  . intro r u hr hwait hdelay
    exact (hinv.returned r hr ⟨u, hwait⟩).expected (hinv.past r hr) hwait hdelay
  . intro r u hr hwait hdelay
    have hended := (hinv.past r hr).ended u (by rw [hwait]; rfl)
    have hdeadline := hended.deadline
    have hdue := hended.due (by omega)
    have hnone := hended.none ((hinv.past r hr).sleep u hwait)
    omega
  . intro r u hr hu t ht
    exact ((hinv.past r hr).gone u hu).absent t (List.mem_append_right _ ht)
  . intro i c u hw hdelay
    have hawaits := hsound.timed.awaits i c u hw
    have hdeadline := hawaits.deadline
    have hdue := hawaits.due (by omega)
    rw [← hdeadline]
    exact hdue
  . intro i c u s' hi hu hst hreg
    exact hsound.advance hi hu (step_effect hst) hreg

/--
Activity 0 calls `receive(5)` and activity 1 `sleep(3)`. The action of a task enqueues an event for
activity 0 at the clock value 2.
-/
theorem exact_of_byTasks_early
    : ∃ s : System 2 Unit, (System.lts 2 Unit).Reach (fun s a _ => Regular s a ∧ ByTasks s a) s
        ∧ s.returns.map (fun r => (r.who, r.clock.toInt, r.result)) = [(0, 2, some ()), (1, 3, none)]
        ∧ Exact s := by
  let ok : System 2 Unit → Action 2 Unit → System 2 Unit → Prop :=
    fun s a _ => Regular s a ∧ ByTasks s a
  have h0 : (System.lts 2 Unit).Reach ok {} := .init rfl
  have h1 := h0.next (.act (.activity 1) (.schedule (.simple 2 () 2 false))) rfl ⟨nofun, trivial⟩
  have h2 := h1.next (.receiveTimed 0 5 0) rfl ⟨⟨by decide, by decide⟩, trivial⟩
  have h3 := h2.next (.poll 0) rfl ⟨trivial, trivial⟩
  have h4 := h3.next (.sleep 1 3 1) rfl ⟨fun _ => ⟨by decide, by decide⟩, trivial⟩
  have h5 := h4.next (.poll 1) rfl ⟨trivial, trivial⟩
  have h6 := h5.next .barrier rfl ⟨fun _ => by decide, trivial⟩
  have h7 := h6.next .call rfl ⟨trivial, trivial⟩
  have h8 := h7.next (.act .task (.deliver 0 () false)) rfl ⟨trivial, trivial⟩
  have h9 := h8.next (.finishTask false) rfl ⟨trivial, trivial⟩
  have h10 := h9.next .release rfl ⟨trivial, trivial⟩
  have h11 := h10.next (.poll 0) rfl ⟨trivial, trivial⟩
  have h12 := h11.next (.leave 0) rfl ⟨trivial, trivial⟩
  have h13 := h12.next (.finish 0) rfl ⟨trivial, trivial⟩
  have h14 := h13.next (.poll 1) rfl ⟨trivial, trivial⟩
  have h15 := h14.next .barrier rfl ⟨fun _ => by decide, trivial⟩
  have h16 := h15.next .call rfl ⟨trivial, trivial⟩
  have h17 := h16.next (.finishTask false) rfl ⟨trivial, trivial⟩
  have h18 := h17.next .release rfl ⟨trivial, trivial⟩
  have h19 := h18.next (.poll 1) rfl ⟨trivial, trivial⟩
  have h20 := h19.next (.leave 1) rfl ⟨trivial, trivial⟩
  exact ⟨_, h20, by decide, exact_of_byTasks h20⟩

end Lockstep
