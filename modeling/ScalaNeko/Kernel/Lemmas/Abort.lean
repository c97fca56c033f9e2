import ScalaNeko.Kernel.Lemmas.Wakeup
import ScalaNeko.Lib.MachineInt

/-!
The barrier action aborts the activities only when none of them can proceed.
-/

namespace Lockstep

variable {n : Nat} {E : Type} {s s' : System n E} {a : Action n E}

/--
No event is enqueued for a protocol whose queue is full.
-/
def Roomy (s : System n E) : Action n E → Prop
  | .act _ (.deliver dest _ false) => (s.activities dest).blockingQueue.length < capacity
  | _ => True

-- The counter of an activity agrees with its queue.
structure Counted (a : Activity E) : Prop where
  messageCount : a.messageCount = Int32.ofNat a.blockingQueue.length
  capacity : a.blockingQueue.length ≤ capacity

theorem Counted.hasPendingMessages_iff {a : Activity E} (h : Counted a)
    : a.hasPendingMessages ↔ a.blockingQueue ≠ [] := by
  have hlength : a.blockingQueue.length < 2 ^ 31 := by
    have := h.capacity
    unfold Lockstep.capacity at this
    omega
  rw [Activity.hasPendingMessages, decide_eq_true_eq, h.messageCount, Int32.lt_iff_toInt_lt,
    Int32.toInt_ofNat_of_lt hlength, ← List.length_pos_iff]
  exact Int.natCast_pos

theorem Counted.of_eq {a b : Activity E} (h : Counted a) (hcount : b.messageCount = a.messageCount)
    (hqueue : b.blockingQueue = a.blockingQueue)
    : Counted b where
  messageCount := by rw [hcount, hqueue, h.messageCount]
  capacity := by rw [hqueue]; exact h.capacity

theorem counted_update {i : Fin n} {x : Activity E} (h : ∀ j, Counted (s.activities j))
    (hcount : x.messageCount = (s.activities i).messageCount)
    (hqueue : x.blockingQueue = (s.activities i).blockingQueue) (j : Fin n)
    : Counted ((s.update i x).activities j) := by
  rw [activities_update]
  split
  . exact (h i).of_eq hcount hqueue
  . exact h j

theorem Counted.offer {b : Activity E} {event : E} (h : Counted b)
    (hroom : b.blockingQueue.length < Lockstep.capacity)
    : Counted { b with
        messageCount := b.messageCount + 1
        blockingQueue := b.blockingQueue ++ [event] } := by
  constructor
  . rw [List.length_append, List.length_singleton, Int32.ofNat_add, h.messageCount]
    rfl
  . rw [List.length_append, List.length_singleton]
    exact hroom

theorem Counted.take {b : Activity E} {blockingQueue : List E} {result : Option E} (h : Counted b)
    {wait : Wait} (htake : System.take b.blockingQueue wait = some (blockingQueue, result))
    : Counted { b with
        control := .running
        blockingQueue := blockingQueue
        messageCount := if result.isSome then b.messageCount - 1 else b.messageCount } := by
  have hcount := h.messageCount
  have hcapacity := h.capacity
  rw [take_eq htake, List.length_append] at hcount hcapacity
  constructor
  . cases result with
    | none => simpa using hcount
    | some event =>
      dsimp only
      rw [if_pos Option.isSome_some, hcount, Option.toList_some, List.length_singleton,
        Nat.add_comm, Int32.ofNat_add]
      exact Int32.add_sub_cancel _ _
  . dsimp only
    omega

theorem Effect.counted (h : Effect s a s') (hroomy : Roomy s a) (hs : ∀ j, Counted (s.activities j))
    (j : Fin n)
    : Counted (s'.activities j) := by
  cases h with
  | schedule => exact hs j
  | cancel => exact hs j
  | @deliver who dest event =>
    rw [activities_deliver]
    split
    . next hj =>
      subst hj
      have hroom : (s.activities j).blockingQueue.length < Lockstep.capacity := hroomy
      rw [if_pos hroom]
      exact (hs j).offer hroom
    . exact hs j
  | handled => exact hs j
  | receive => exact counted_update hs (by rfl) (by rfl) j
  | receiveTimed => exact counted_update hs (by rfl) (by rfl) j
  | sleep => exact counted_update hs (by rfl) (by rfl) j
  | nap => exact hs j
  | block => exact counted_update hs (by rfl) (by rfl) j
  | unblock => exact counted_update hs (by rfl) (by rfl) j
  | @leave i c blockingQueue result hleaving htake =>
    rw [activities_ret]
    split
    . exact (hs i).take htake
    . exact hs j
  | finish => exact counted_update hs (by rfl) (by rfl) j
  | ended => exact hs j
  | reset =>
    unfold System.reset
    dsimp only
    split
    . exact hs j
    . exact (hs j).of_eq rfl rfl
  | advance => exact hs j
  | call => exact hs j
  | finishTask => exact hs j
  | release =>
    unfold System.release
    dsimp only
    split
    . exact (hs j).of_eq rfl rfl
    . exact hs j

theorem counted_of_reach (h : (System.lts n E).Reach (fun s a _ => Regular s a ∧ Roomy s a) s)
    (j : Fin n)
    : Counted (s.activities j) := by
  revert j
  apply LTS.Reach.invariant (I := fun s => ∀ j, Counted (s.activities j)) _ _ h
  . rintro s rfl j
    exact ⟨rfl, Nat.zero_le _⟩
  . intro s a s' _ hs hst hok j
    exact (step_effect hst).counted hok.2 hs j

/--
Nothing is scheduled, and every activity that has not finished is blocked in `receive()` with an empty
queue.
-/
structure Dead (s : System n E) : Prop where
  taskQueue : s.run.sched.taskQueue = []
  receive : ∀ i, (s.activities i).status ≠ .finished →
    ∃ c, (s.activities i).control = .waiting c ∧ c.wait = .receive
      ∧ (s.activities i).blockingQueue = []

/--
The barrier action from `s` to `s'` aborts when it has to, and only then: no call has a deadline that
is still ahead, and advancing the time instead would neither move the clock nor end a call.
-/
structure Justified (s s' : System n E) : Prop where
  aborts_iff : s'.phase = .aborted ↔ Dead s
  ahead : ∀ i c u, (s.activities i).control = .waiting c → c.wait.wakeup = some u →
    s.currentTime.toInt < u.deadline.toInt ∧ s'.phase = .advancing
  stuck : s'.phase = .aborted → s.run.sched.executeNext = (s.run.sched, none)
    ∧ ∀ i c, (s.activities i).control = .waiting c →
      c.wait.blocks s.currentTime (s.activities i).blockingQueue = true

theorem Dead.stuck (h : Dead s) (hplaced : Placed s) (hphase : s.phase = .lockstep)
    : s.run.sched.executeNext = (s.run.sched, none)
      ∧ ∀ i c, (s.activities i).control = .waiting c →
        c.wait.blocks s.currentTime (s.activities i).blockingQueue = true := by
  refine ⟨Kernel.executeNext_nil h.taskQueue, ?_⟩
  intro i c hi
  have hstatus := hplaced.status (by rw [hphase]; nofun) i
  rw [hi] at hstatus
  obtain ⟨d, hd, hwait, hqueue⟩ := h.receive i (by rw [hstatus]; nofun)
  rw [hi] at hd
  cases hd
  rw [hwait, hqueue]
  rfl

theorem Sound.dead_of_reset (h : Sound s) (hcounted : ∀ j, Counted (s.activities j))
    (hphase : s.phase = .lockstep) (harrived : ∀ i, (s.activities i).control.arrived)
    (hqueue : s.run.sched.taskQueue = [])
    (hpending : ∀ i, (s.activities i).status = .waiting → ¬ (s.activities i).hasPendingMessages)
    : Dead s := by
  refine ⟨hqueue, ?_⟩
  intro i hunfinished
  have hstatus := h.placed.status (by rw [hphase]; nofun) i
  rcases Control.arrived_iff.mp (harrived i) with ⟨c, hi⟩ | hi
  . rw [hi] at hstatus
    refine ⟨c, hi, ?_, ?_⟩
    . cases hwait : c.wait with
      | receive => rfl
      | receiveTimed u =>
        exact absurd hqueue (h.taskQueue_ne_nil hphase hi (by rw [hwait]; rfl))
      | sleep u =>
        exact absurd hqueue (h.taskQueue_ne_nil hphase hi (by rw [hwait]; rfl))
    . by_contra hne
      exact hpending i hstatus ((hcounted i).hasPendingMessages_iff.mpr hne)
  . rw [hi] at hstatus
    exact absurd hstatus hunfinished

theorem Dead.no_events (h : Dead s) (hcounted : ∀ j, Counted (s.activities j))
    : ¬ (s.run.sched.taskQueue ≠ []
      ∨ ∃ i, (s.activities i).status = .waiting ∧ (s.activities i).hasPendingMessages) := by
  rintro (hne | ⟨i, hstatus, hpending⟩)
  . exact hne h.taskQueue
  . obtain ⟨-, -, -, hqueue⟩ := h.receive i (by rw [hstatus]; nofun)
    exact (hcounted i).hasPendingMessages_iff.mp hpending hqueue

theorem justified (h : (System.lts n E).Reach (fun s a _ => Regular s a ∧ Roomy s a) s)
    (hst : s.step .barrier = some s') (hunfinished : ∃ i, (s.activities i).status ≠ .finished)
    : Justified s s' := by
  have hsound := sound_of_reach (fun _ _ _ hok => hok.1) h
  have hcounted := counted_of_reach h
  cases step_effect hst with
  | ended _ _ hfinished =>
    obtain ⟨i, hi⟩ := hunfinished
    exact absurd (hfinished i) hi
  | reset hphase harrived _ hqueue hpending =>
    have hdead := hsound.dead_of_reset hcounted hphase harrived hqueue hpending
    refine ⟨⟨fun _ => hdead, fun _ => rfl⟩, ?_, fun _ => hdead.stuck hsound.placed hphase⟩
    intro i c u hi hu
    exact absurd hqueue (hsound.taskQueue_ne_nil hphase hi hu)
  | advance hphase harrived _ hevents =>
    refine ⟨⟨nofun, fun hdead => absurd hevents (hdead.no_events hcounted)⟩, ?_, nofun⟩
    intro i c u hi hu
    exact ⟨hsound.timed.blocked hphase i c u hi hu, rfl⟩

-- One activity finishes and the other one waits for an event that nobody will send.
theorem justified_alone : ∃ s s' : System 2 Unit, s'.phase = .aborted ∧ Justified s s' := by
  let ok : System 2 Unit → Action 2 Unit → System 2 Unit → Prop :=
    fun s a _ => Regular s a ∧ Roomy s a
  have h0 : (System.lts 2 Unit).Reach ok {} := .init rfl
  have h1 := h0.next (.receive 0) rfl ⟨trivial, trivial⟩
  have h2 := h1.next (.poll 0) rfl ⟨trivial, trivial⟩
  have h3 := h2.next (.finish 1) rfl ⟨trivial, trivial⟩
  exact ⟨_, _, by rfl, justified h3 rfl ⟨0, by decide⟩⟩

section Flood

/-!
Activity 1 enqueues events for activity 0, which is blocked in `receive()`, until the counter overflows.
-/

structure Flooded (s : System 2 Unit) (k : Nat) : Prop where
  reach : (System.lts 2 Unit).Reach (fun s a _ => Regular s a) s
  phase : s.phase = .lockstep
  run : s.run = {}
  zero : ∃ c, (s.activities 0).control = .waiting c
  status : (s.activities 0).status = .waiting
  messageCount : (s.activities 0).messageCount = Int32.ofNat k
  queue : 0 < k → (s.activities 0).blockingQueue ≠ []
  one : s.activities 1 = {}

theorem flooded_zero : ∃ s, Flooded s 0 := by
  have h0 : (System.lts 2 Unit).Reach (fun s a _ => Regular s a) {} := .init rfl
  have h1 := h0.next (.receive 0) rfl trivial
  have h2 := h1.next (.poll 0) rfl trivial
  exact ⟨_, h2, rfl, rfl, ⟨_, rfl⟩, rfl, rfl, nofun, rfl⟩

theorem Flooded.succ {s : System 2 Unit} {k : Nat} (h : Flooded s k) : ∃ s', Flooded s' (k + 1) := by
  have hmay : s.mayAct (.activity 1) := by
    simp [System.mayAct, System.isRunning, h.one]
  have hst : s.step (.act (.activity 1) (.deliver 0 () false)) = some (s.deliver false 0 ()) := by
    simp only [System.step, if_pos hmay]
    rfl
  refine ⟨_, h.reach.next _ hst trivial, ?_, ?_, ?_, ?_, ?_, ?_, ?_⟩
  . rw [phase_deliver, h.phase]
  . rw [run_deliver, h.run]
  . rw [control_deliver]
    exact h.zero
  . rw [status_deliver, h.status]
  . rw [activities_deliver, if_pos rfl, Int32.ofNat_add, ← h.messageCount]
    rfl
  . intro _
    rw [activities_deliver, if_pos rfl]
    dsimp only
    split
    . simp
    . next hfull =>
      intro hnil
      rw [hnil] at hfull
      exact hfull (by decide)
  . rw [activities_deliver, if_neg (by decide), h.one]

theorem exists_flooded (k : Nat) : ∃ s, Flooded s k := by
  induction k with
  | zero => exact flooded_zero
  | succ k ih =>
    obtain ⟨s, hs⟩ := ih
    exact hs.succ

theorem Flooded.step_barrier {s s' : System 2 Unit} (h : Flooded s (2 ^ 31))
    (hs' : s' = s.update 1 { s.activities 1 with status := .finished, control := .finished })
    : s'.step .barrier = some s'.reset := by
  have hzero : s'.activities 0 = s.activities 0 := by
    rw [hs', activities_update, if_neg (by decide)]
  have hone : s'.activities 1 = { s.activities 1 with status := .finished, control := .finished } := by
    rw [hs', activities_update, if_pos rfl]
  have hphase : s'.phase = .lockstep := by
    rw [hs']
    exact h.phase
  have hempty : s'.run.sched.isEmpty = true := by
    rw [hs']
    simp [System.update, h.run, Kernel.Scheduler.isEmpty]
  have hpending : s'.hasPendingMessages = false := by
    rw [← Bool.not_eq_true, hasPendingMessages_iff, Fin.exists_fin_two, hzero, hone,
      Activity.hasPendingMessages, h.messageCount]
    -- the counter is negative
    simp
  obtain ⟨c, hwaiting⟩ := h.zero
  have harrived : (List.finRange 2).all (fun i => (s'.activities i).control.arrived) = true := by
    simp [List.finRange_succ, hzero, hone, hwaiting, Control.arrived]
  have hunfinished : ¬ (List.finRange 2).all
      (fun i => decide ((s'.activities i).status = .finished)) = true := by
    simp [List.finRange_succ, hzero, h.status]
  simp only [System.step, hphase, harrived, and_self, if_true, System.barrierAction, if_neg hunfinished,
    hempty, hpending, Bool.not_false, Bool.and_self]

end Flood

/--
After 2^31 events for an activity that is blocked in `receive()`, the barrier action aborts it.
-/
theorem not_justified_of_overflow
    : ∃ s s' : System 2 Unit, (System.lts 2 Unit).Reach (fun s a _ => Regular s a) s
        ∧ s.step .barrier = some s' ∧ (∃ i, (s.activities i).status ≠ .finished)
        ∧ ¬ (s'.phase = .aborted ↔ Dead s) := by
  obtain ⟨s, h⟩ := exists_flooded (2 ^ 31)
  have hrunning : s.isRunning 1 = true := isRunning_iff.mpr (by rw [h.one])
  have hst : s.step (.finish 1)
      = some (s.update 1 { s.activities 1 with status := .finished, control := .finished }) := by
    simp only [System.step, hrunning, if_true]
  have hzero : (s.update 1 { s.activities 1 with status := .finished, control := .finished }).activities 0
      = s.activities 0 := by
    rw [activities_update, if_neg (by decide)]
  refine ⟨_, _, h.reach.next _ hst trivial, h.step_barrier rfl, ⟨0, ?_⟩, ?_⟩
  . rw [hzero, h.status]
    decide
  . intro hiff
    obtain ⟨-, -, -, hqueue⟩ := (hiff.mp rfl).receive 0 (by rw [hzero, h.status]; decide)
    rw [hzero] at hqueue
    exact h.queue (by decide) hqueue

end Lockstep
