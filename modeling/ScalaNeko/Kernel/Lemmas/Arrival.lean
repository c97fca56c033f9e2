import ScalaNeko.Kernel.Lemmas.Wakeup

/-!
What arrives during a call, and at which clock values: as long as no event is left behind when the
clock moves, a call ends at the clock value at which its event was enqueued.
-/

namespace Lockstep

open Kernel (Time TaskID)

variable {n : Nat} {E : Type} {s s' : System n E} {a : Action n E} {c : Call E}

/--
The queue of an activity in a call is what it was at the call and what was enqueued since.
-/
structure Tracked (s : System n E) : Prop where
  start : ∀ i c, (s.activities i).control.call = some c → c.start ≤ s.arrivals.length
  queue : ∀ i c, (s.activities i).control.call = some c →
    (s.activities i).blockingQueue = c.pending ++ eventsFor i (s.arrivals.drop c.start)

theorem Tracked.init : Tracked ({} : System n E) where
  start := by
    rintro i c ⟨⟩
  queue := by
    rintro i c ⟨⟩

theorem Tracked.step (h : Tracked s) (heff : Effect s a s') : Tracked s' := by
  obtain ⟨l, henqueues⟩ := heff.enqueues
  constructor
  . intro i c hc
    rcases heff.calls hc with ⟨hc, -⟩ | hnew
    . rw [henqueues.arrivals, List.length_append]
      exact (h.start i c hc).trans (Nat.le_add_right _ _)
    . rw [hnew.start, hnew.arrivals]
  . intro i c hc
    rcases heff.calls hc with ⟨hc, ha⟩ | hnew
    . rw [henqueues.queue i ha, henqueues.arrivals, List.drop_append_of_le_length (h.start i c hc),
        eventsFor_append, ← List.append_assoc, ← h.queue i c hc]
    . rw [hnew.queue i, hnew.arrivals, hnew.start, hnew.pending, List.drop_length, eventsFor_nil,
        List.append_nil]

variable {K : Wait → Prop}

/--
Whatever arrived during a call of the kind `K`, or before it, arrived at the present clock value.
-/
structure Current (K : Wait → Prop) (s : System n E) : Prop where
  arrivals : ∀ i c, (s.activities i).control.call = some c → K c.wait →
    ∀ x, x ∈ s.arrivals.drop c.start → x.dest = i → x.clock = s.currentTime
  pending : ∀ i c, (s.activities i).control.call = some c → K c.wait → c.pending ≠ [] →
    c.since = s.currentTime

theorem Current.init : Current K ({} : System n E) where
  arrivals := by
    rintro i c ⟨⟩
  pending := by
    rintro i c ⟨⟩

-- When the clock moves, the queues of the activities that wait in a call of the kind `K` are empty.
def Passes (K : Wait → Prop) (s : System n E) : Prop :=
  s.run.sched.taskQueue ≠ [] →
    ∀ i c, (s.activities i).control = .waiting c → K c.wait → (s.activities i).blockingQueue = []

theorem Effect.barrier (h : Effect s .barrier s')
    : s'.arrivals = s.arrivals ∧ (∀ i, (s.activities i).control.arrived)
      ∧ (s'.run = s.run ∨ s.run.step .executeNext = some s'.run) := by
  cases h with
  | ended _ harrived => exact ⟨rfl, harrived, .inl rfl⟩
  | reset _ harrived => exact ⟨rfl, harrived, .inl rfl⟩
  | advance _ harrived _ _ hrun => exact ⟨rfl, harrived, .inr hrun⟩

theorem Effect.currentTime_barrier (h : Effect s .barrier s') (hqueue : s.run.sched.taskQueue = [])
    : s'.currentTime = s.currentTime := by
  unfold System.currentTime
  rcases h.barrier.2.2 with heq | hrun
  . rw [heq]
  . obtain ⟨-, -, hrun⟩ := Kernel.step_executeNext hrun
    rw [hrun, Kernel.executeNext_nil hqueue]

-- At the barrier, either the clock stands still or nothing is left behind.
theorem Current.barrier (htracked : Tracked s) (heff : Effect s .barrier s') (hpasses : Passes K s)
    {i : Fin n} (hc : (s.activities i).control.call = some c) (hK : K c.wait)
    : s'.currentTime = s.currentTime ∨ c.pending = [] ∧ eventsFor i (s.arrivals.drop c.start) = [] := by
  by_cases hqueue : s.run.sched.taskQueue = []
  . exact .inl (heff.currentTime_barrier hqueue)
  . refine .inr ?_
    rcases Control.arrived_iff.mp (heff.barrier.2.1 i) with ⟨d, hi⟩ | hi
    . have hcall := hc
      rw [hi] at hcall
      cases hcall
      have hempty := hpasses hqueue i c hi hK
      rwa [htracked.queue i c hc, List.append_eq_nil_iff] at hempty
    . rw [hi] at hc
      cases hc

theorem Current.step (h : Current K s) (htracked : Tracked s) (heff : Effect s a s')
    (hreg : Regular s a) (hpasses : a = .barrier → Passes K s)
    : Current K s' := by
  obtain ⟨l, henqueues⟩ := heff.enqueues
  by_cases ha : a = .barrier
  . subst ha
    have harrivals := heff.barrier.1
    have hcalls : ∀ i c, (s'.activities i).control.call = some c →
        (s.activities i).control.call = some c := by
      intro i c hc
      rcases heff.calls hc with ⟨hc, -⟩ | hnew
      . exact hc
      . have harrived := heff.barrier.2.1 i
        rw [hnew.running] at harrived
        cases harrived
    constructor
    . intro i c hc hK x hx hdest
      have hc := hcalls i c hc
      rw [harrivals] at hx
      rcases Current.barrier htracked heff (hpasses rfl) hc hK with hclock | ⟨-, hnone⟩
      . rw [hclock]
        exact h.arrivals i c hc hK x hx hdest
      . exact absurd hdest (eventsFor_eq_nil.mp hnone x hx)
    . intro i c hc hK hne
      have hc := hcalls i c hc
      rcases Current.barrier htracked heff (hpasses rfl) hc hK with hclock | ⟨hnone, -⟩
      . rw [hclock]
        exact h.pending i c hc hK hne
      . exact absurd hnone hne
  . have hclock := heff.currentTime hreg ha
    constructor
    . intro i c hc hK x hx hdest
      rw [hclock]
      rcases heff.calls hc with ⟨hc, -⟩ | hnew
      . rw [henqueues.arrivals, List.drop_append_of_le_length (htracked.start i c hc),
          List.mem_append] at hx
        rcases hx with hx | hx
        . exact h.arrivals i c hc hK x hx hdest
        . exact (henqueues.deliver x hx).1
      . rw [hnew.arrivals, hnew.start, List.drop_length] at hx
        cases hx
    . intro i c hc hK hne
      rw [hclock]
      rcases heff.calls hc with ⟨hc, -⟩ | hnew
      . exact h.pending i c hc hK hne
      . exact hnew.since

-- What arrived during a call that has returned.
def Return.during (r : Return n E) (s : System n E) : List (Arrival n E) :=
  ((s.arrivals.take r.stop).drop r.call.start).filter (fun x => x.dest = r.who)

/--
The result of a call of the kind `K` that has returned is the first event that was in the queue or was
enqueued, and the clock has not moved since then.
-/
structure Returned (s : System n E) (r : Return n E) : Prop where
  stop : r.stop ≤ s.arrivals.length
  result : r.result = (r.call.pending ++ (r.during s).map Arrival.event).head?
  arrivals : ∀ x, x ∈ r.during s → x.clock = r.clock
  pending : r.call.pending ≠ [] → r.clock = r.call.since
  receive : r.call.wait = .receive → r.result.isSome

theorem Returned.append {r : Return n E} {l : List (Arrival n E)} (h : Returned s r)
    (hl : s'.arrivals = s.arrivals ++ l)
    : Returned s' r := by
  have hduring : r.during s' = r.during s := by
    unfold Return.during
    rw [hl, List.take_append_of_le_length h.stop]
  constructor
  . rw [hl, List.length_append]
    exact h.stop.trans (Nat.le_add_right _ _)
  . rw [hduring]
    exact h.result
  . rw [hduring]
    exact h.arrivals
  . exact h.pending
  . exact h.receive

theorem take_head {blockingQueue rest : List E} {wait : Wait} {result : Option E}
    (h : System.take blockingQueue wait = some (rest, result)) (hwait : ∀ u, wait ≠ .sleep u)
    : result = blockingQueue.head? := by
  cases wait with
  | receive =>
    cases blockingQueue with
    | nil => cases h
    | cons event rest =>
      cases h
      rfl
  | receiveTimed u =>
    cases blockingQueue with
    | nil =>
      cases h
      rfl
    | cons event rest =>
      cases h
      rfl
  | sleep u => exact absurd rfl (hwait u)

theorem take_receive {blockingQueue rest : List E} {result : Option E}
    (h : System.take blockingQueue .receive = some (rest, result))
    : result.isSome := by
  cases blockingQueue with
  | nil => cases h
  | cons event rest =>
    cases h
    rfl

/--
What a step adds to the calls that have returned.
-/
theorem Effect.returns (h : Effect s a s')
    : s'.returns = s.returns
      ∨ ∃ i c rest result, a = .leave i ∧ (s.activities i).control = .leaving c
          ∧ System.take (s.activities i).blockingQueue c.wait = some (rest, result)
          ∧ s' = s.ret i c rest result := by
  cases h with
  | @leave i c rest result hleaving htake => exact .inr ⟨i, c, rest, result, rfl, hleaving, htake, rfl⟩
  | deliver => exact .inl returns_deliver
  | schedule => exact .inl rfl
  | cancel => exact .inl rfl
  | handled => exact .inl rfl
  | receive => exact .inl rfl
  | receiveTimed => exact .inl rfl
  | sleep => exact .inl rfl
  | nap => exact .inl rfl
  | block => exact .inl rfl
  | unblock => exact .inl rfl
  | finish => exact .inl rfl
  | ended => exact .inl rfl
  | reset => exact .inl rfl
  | advance => exact .inl rfl
  | call => exact .inl rfl
  | finishTask => exact .inl rfl
  | release => exact .inl rfl

theorem returned_ret {i : Fin n} {rest : List E} {result : Option E} (htracked : Tracked s)
    (hcurrent : Current K s) (hleaving : (s.activities i).control = .leaving c)
    (htake : System.take (s.activities i).blockingQueue c.wait = some (rest, result))
    (hK : K c.wait) (hwait : ∀ u, c.wait ≠ .sleep u)
    : Returned (s.ret i c rest result) ⟨i, c, s.currentTime, s.arrivals.length, result⟩ := by
  have hc : (s.activities i).control.call = some c := by
    rw [hleaving]
    rfl
  have hduring : Return.during ⟨i, c, s.currentTime, s.arrivals.length, result⟩
      (s.ret i c rest result) = (s.arrivals.drop c.start).filter (fun x => x.dest = i) := by
    unfold Return.during
    dsimp only
    rw [arrivals_ret, List.take_length]
  constructor
  . rw [arrivals_ret]
  . rw [hduring]
    dsimp only
    rw [take_head htake hwait, htracked.queue i c hc]
    rfl
  . intro x hx
    rw [hduring, List.mem_filter, decide_eq_true_eq] at hx
    exact hcurrent.arrivals i c hc hK x hx.1 hx.2
  . intro hne
    exact (hcurrent.pending i c hc hK hne).symm
  . intro hreceive
    dsimp only at hreceive
    rw [hreceive] at htake
    exact take_receive htake

theorem returned_step (hreturned : ∀ r, r ∈ s.returns → K r.call.wait → Returned s r)
    (htracked : Tracked s) (hcurrent : Current K s) (hK : ∀ u, ¬ K (.sleep u)) (heff : Effect s a s')
    {r : Return n E} (hr : r ∈ s'.returns) (hkind : K r.call.wait)
    : Returned s' r := by
  obtain ⟨l, henqueues⟩ := heff.enqueues
  rcases heff.returns with heq | ⟨i, c, rest, result, rfl, hleaving, htake, rfl⟩
  . rw [heq] at hr
    exact (hreturned r hr hkind).append henqueues.arrivals
  . rw [returns_ret, List.mem_append, List.mem_singleton] at hr
    rcases hr with hr | rfl
    . exact (hreturned r hr hkind).append henqueues.arrivals
    . apply returned_ret htracked hcurrent hleaving htake hkind
      intro u heq
      apply hK u
      rw [← heq]
      exact hkind

end Lockstep
