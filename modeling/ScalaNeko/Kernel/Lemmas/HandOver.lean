import ScalaNeko.Kernel.Lemmas.Abort
import ScalaNeko.Kernel.Lemmas.Arrival

/-!
An activity that is blocked in `receive()` gets its event without delay, unless another activity hands
it over in a round that ends with scheduled tasks.
-/

namespace Lockstep

variable {n : Nat} {E : Type} {s s' : System n E} {a : Action n E} {c : Call E}

/--
No task is scheduled when the barrier action follows a hand-over to a blocked activity.
-/
def InTime (s : System n E) : Action n E → Prop
  | .barrier => s.handed → s.run.sched.taskQueue = []
  | _ => True

def Proper (s : System n E) (a : Action n E) : Prop := Regular s a ∧ Roomy s a ∧ InTime s a

theorem Effect.handed (h : Effect s a s') (hrelease : a ≠ .release)
    : s'.handed = s.handed
      ∨ ∃ who dest event, a = .act who (.deliver dest event false) ∧ s.mayAct who
          ∧ s' = s.deliver who.isTask dest event := by
  cases h with
  | deliver hwho => exact .inr ⟨_, _, _, rfl, hwho, rfl⟩
  | schedule => exact .inl rfl
  | cancel => exact .inl rfl
  | handled => exact .inl rfl
  | receive => exact .inl rfl
  | receiveTimed => exact .inl rfl
  | sleep => exact .inl rfl
  | nap => exact .inl rfl
  | block => exact .inl rfl
  | unblock => exact .inl rfl
  | @leave i c =>
    refine .inl ?_
    unfold System.ret System.cancelWakeup
    dsimp only
    split
    . rfl
    . rfl
  | finish => exact .inl rfl
  | ended => exact .inl rfl
  | reset => exact .inl rfl
  | advance => exact .inl rfl
  | call => exact .inl rfl
  | finishTask => exact .inl rfl
  | release => exact absurd rfl hrelease

/--
Between two barriers, the activities that are blocked in `receive()` have events if and only if one
was handed over.
-/
structure HandOver (s : System n E) : Prop where
  empty : s.phase = .lockstep → s.handed = false → ∀ i c, (s.activities i).control = .waiting c →
    c.wait = .receive → (s.activities i).blockingQueue = []
  pending : s.handed = true → ∃ i c, (s.activities i).control = .waiting c ∧ c.wait = .receive
    ∧ (s.activities i).blockingQueue ≠ []

theorem HandOver.init : HandOver ({} : System n E) where
  empty := by
    rintro - - i c ⟨⟩
  pending := nofun

theorem HandOver.empty_step (h : HandOver s) (hplaced : Placed s) (heff : Effect s a s')
    (hphase : s'.phase = .lockstep) (hhanded : s'.handed = false) {i : Fin n}
    (hi : (s'.activities i).control = .waiting c) (hwait : c.wait = .receive)
    : (s'.activities i).blockingQueue = [] := by
  obtain ⟨l, henqueues⟩ := heff.enqueues
  rcases heff.blocked hphase hi with ⟨hlockstep, ha, hk⟩ | ⟨rfl, hblocks⟩
  . have hblocked := Control.isBlockedInReceive_iff.mpr ⟨c, hk, hwait⟩
    have hbefore : s.handed = false := by
      rcases heff.handed ha with heq | ⟨who, dest, event, -, -, rfl⟩
      . rw [← heq, hhanded]
      . rw [handed_deliver, Bool.or_eq_false_iff] at hhanded
        exact hhanded.1
    rw [henqueues.queue_eq (heff.ne_leave hk), h.empty hlockstep hbefore i c hk hwait]
    -- nothing arrives for a blocked activity but what is handed over
    rintro who event rfl
    cases heff with
    | deliver =>
      rw [handed_deliver, Bool.or_eq_false_iff] at hhanded
      cases who with
      | activity j => simp [Actor.isTask, hblocked] at hhanded
      | task => exact hplaced.not_mayAct_task hlockstep
  . rw [hwait] at hblocks
    rw [henqueues.queue_poll]
    exact List.isEmpty_iff.mp hblocks

theorem HandOver.pending_step (h : HandOver s) (heff : Effect s a s') (hroomy : Roomy s a)
    (hhanded : s'.handed = true)
    : ∃ i c, (s'.activities i).control = .waiting c ∧ c.wait = .receive
        ∧ (s'.activities i).blockingQueue ≠ [] := by
  have ha : a ≠ .release := by
    rintro rfl
    cases heff
    cases hhanded
  have hkeep : s.handed = true → ∃ i c, (s'.activities i).control = .waiting c ∧ c.wait = .receive
      ∧ (s'.activities i).blockingQueue ≠ [] := by
    intro hbefore
    obtain ⟨i, c, hi, hwait, hqueue⟩ := h.pending hbefore
    obtain ⟨l, henqueues⟩ := heff.enqueues
    refine ⟨i, c, ?_, hwait, ?_⟩
    . have hmoved := heff.moved i
      rw [hi] at hmoved
      generalize hk : (s'.activities i).control = k at hmoved
      cases hmoved with
      | stay => rfl
      | wake _ hrelease => exact absurd hrelease ha
    . rw [henqueues.queue i (heff.ne_leave hi)]
      exact List.append_ne_nil_of_left_ne_nil hqueue _
  rcases heff.handed ha with heq | ⟨who, dest, event, rfl, -, rfl⟩
  . exact hkeep (heq ▸ hhanded)
  . rw [handed_deliver, Bool.or_eq_true, Bool.and_eq_true] at hhanded
    rcases hhanded with hbefore | ⟨-, hblocked⟩
    . exact hkeep hbefore
    . obtain ⟨c, hi, hwait⟩ := Control.isBlockedInReceive_iff.mp hblocked
      have hroom : (s.activities dest).blockingQueue.length < capacity := hroomy
      refine ⟨dest, c, by rw [control_deliver, hi], hwait, ?_⟩
      rw [activities_deliver, if_pos rfl, if_pos hroom]
      exact List.append_ne_nil_of_right_ne_nil _ (List.cons_ne_nil _ _)

theorem HandOver.step (h : HandOver s) (hplaced : Placed s) (heff : Effect s a s')
    (hroomy : Roomy s a)
    : HandOver s' where
  empty := fun hphase hhanded _ _ hi hwait => h.empty_step hplaced heff hphase hhanded hi hwait
  pending := fun hhanded => h.pending_step heff hroomy hhanded

/--
An event for an activity that is blocked in `receive()` is returned at the clock value at which it is
enqueued: in every call that has returned, in every call that has not, where the clock stands still,
and at the barrier.
-/
structure Prompt (s : System n E) : Prop where
  returned : ∀ r, r ∈ s.returns → r.call.wait = .receive → r.call.pending = [] →
    ∃ x rest, r.during s = x :: rest ∧ r.result = some x.event ∧ r.clock = x.clock
  waiting : ∀ i c, (s.activities i).control.call = some c → c.wait = .receive →
    ∀ x, x ∈ s.arrivals.drop c.start → x.dest = i → x.clock = s.currentTime
  barrier : ∀ s', s.step .barrier = some s' → Proper s .barrier →
    (∃ i c, (s.activities i).control = .waiting c ∧ c.wait = .receive
      ∧ (s.activities i).blockingQueue ≠ []) →
    s'.phase = .advancing ∧ s'.currentTime = s.currentTime

structure PromptInv (s : System n E) : Prop where
  handOver : HandOver s
  tracked : Tracked s
  current : Current (· = .receive) s
  returned : ∀ r, r ∈ s.returns → r.call.wait = .receive → Returned s r

theorem PromptInv.passes (h : PromptInv s) (hphase : s.phase = .lockstep)
    (hintime : InTime s .barrier)
    : Passes (· = .receive) s := by
  intro hqueue
  apply h.handOver.empty hphase
  rw [← Bool.not_eq_true]
  intro hhanded
  exact hqueue (hintime hhanded)

theorem promptInv_of_reach (h : (System.lts n E).Reach (fun s a _ => Proper s a) s)
    : PromptInv s := by
  apply LTS.Reach.invariant (I := PromptInv) _ _ h
  . rintro s rfl
    exact ⟨.init, .init, .init, by simp⟩
  . intro s a s' hreach hinv hst hok
    have heff := step_effect hst
    have hsound := sound_of_reach (fun _ _ _ hok => hok.1) hreach
    constructor
    . exact hinv.handOver.step hsound.placed heff hok.2.1
    . exact hinv.tracked.step heff
    . apply hinv.current.step hinv.tracked heff hok.1
      rintro rfl
      exact hinv.passes heff.phase_barrier hok.2.2
    . intro r hr hwait
      exact returned_step hinv.returned hinv.tracked hinv.current nofun heff hr hwait

theorem Returned.first {r : Return n E} (h : Returned s r) (hwait : r.call.wait = .receive)
    (hpending : r.call.pending = [])
    : ∃ x rest, r.during s = x :: rest ∧ r.result = some x.event ∧ r.clock = x.clock := by
  have hresult := h.result
  have hsome := h.receive hwait
  rw [hpending, List.nil_append] at hresult
  cases hduring : r.during s with
  | nil =>
    rw [hresult, hduring] at hsome
    cases hsome
  | cons x rest =>
    rw [hduring] at hresult
    refine ⟨x, rest, rfl, hresult, ?_⟩
    exact (h.arrivals x (by rw [hduring]; exact List.mem_cons_self)).symm

theorem prompt (h : (System.lts n E).Reach (fun s a _ => Proper s a) s) : Prompt s := by
  have hinv := promptInv_of_reach h
  have hsound := sound_of_reach (fun _ _ _ hok => hok.1) h
  have hcounted := counted_of_reach (h.mono fun _ _ _ hok => ⟨hok.1, hok.2.1⟩)
  constructor
  . intro r hr hwait hpending
    exact (hinv.returned r hr hwait).first hwait hpending
  . exact hinv.current.arrivals
  . rintro s' hst hok ⟨i, c, hi, hwait, hne⟩
    have heff := step_effect hst
    have hphase := heff.phase_barrier
    have hqueue : s.run.sched.taskQueue = [] := by
      by_contra hqueue
      exact hne (hinv.passes hphase hok.2.2 hqueue i c hi hwait)
    have hstatus := hsound.placed.status (by rw [hphase]; nofun) i
    rw [hi] at hstatus
    refine ⟨?_, heff.currentTime_barrier hqueue⟩
    cases heff with
    | ended _ _ hfinished =>
      rw [hfinished i] at hstatus
      cases hstatus
    | reset _ _ _ _ hpending =>
      exact absurd ((hcounted i).hasPendingMessages_iff.mpr hne) (hpending i hstatus)
    | advance => rfl

/--
The condition is needed: where a barrier does not meet it, the clock moves on while an activity that is
blocked in `receive()` has an event.
-/
theorem moves_on_of_handed (h : (System.lts n E).Reach (fun s a _ => Proper s a) s)
    (hst : s.step .barrier = some s') (hreg : Regular s .barrier) (hhanded : s.handed)
    (hqueue : s.run.sched.taskQueue ≠ [])
    : (∃ i c, (s.activities i).control = .waiting c ∧ c.wait = .receive
        ∧ (s.activities i).blockingQueue ≠ [])
      ∧ s.currentTime < s'.currentTime := by
  have hpending := (promptInv_of_reach h).handOver.pending hhanded
  refine ⟨hpending, ?_⟩
  obtain ⟨i, c, hi, -, -⟩ := hpending
  have hstatus := (sound_of_reach (fun _ _ _ hok => hok.1) h).placed.status
  cases step_effect hst with
  | ended hphase _ hfinished =>
    have hi' := hstatus (by rw [hphase]; nofun) i
    rw [hi, hfinished i] at hi'
    cases hi'
  | reset _ _ _ hnil => exact absurd hnil hqueue
  | advance _ _ _ _ hrun =>
    exact (Kernel.currentTime_executeNext hrun ⟨nofun, fun _ => hreg⟩).1 hqueue

-- Activity 0 is blocked in `receive()`. Activity 1 hands an event over and finishes: activity 0 gets the
-- event at once.
theorem prompt_handed
    : ∃ s : System 2 Unit, s.returns.map (fun r => (r.clock.toInt, r.result)) = [(0, some ())]
        ∧ Prompt s := by
  let ok : System 2 Unit → Action 2 Unit → System 2 Unit → Prop := fun s a _ => Proper s a
  have h0 : (System.lts 2 Unit).Reach ok {} := .init rfl
  have h1 := h0.next (.receive 0) rfl ⟨trivial, trivial, trivial⟩
  have h2 := h1.next (.poll 0) rfl ⟨trivial, trivial, trivial⟩
  have h3 := h2.next (.act (.activity 1) (.deliver 0 () false)) rfl ⟨trivial, by unfold Roomy; decide, trivial⟩
  have h4 := h3.next (.finish 1) rfl ⟨trivial, trivial, trivial⟩
  have h5 := h4.next .barrier rfl ⟨fun hne => absurd rfl hne, trivial, fun _ => rfl⟩
  have h6 := h5.next .release rfl ⟨trivial, trivial, trivial⟩
  have h7 := h6.next (.poll 0) rfl ⟨trivial, trivial, trivial⟩
  have h8 := h7.next (.leave 0) rfl ⟨trivial, trivial, trivial⟩
  exact ⟨_, by decide, prompt h8⟩

/--
Activity 0 is blocked in `receive()`. Activity 1 hands an event over at the clock value 0 and sleeps:
the call returns at the clock value 5.
-/
theorem not_prompt_of_sleep
    : ∃ s : System 2 Unit,
        (System.lts 2 Unit).Reach (fun s a _ => Regular s a ∧ Roomy s a) s
          ∧ s.arrivals.map (fun x => (x.dest, x.clock.toInt)) = [(0, 0)]
          ∧ s.returns.map (fun r => (r.who, r.clock.toInt)) = [(0, 5)]
          ∧ ¬ Prompt s := by
  let ok : System 2 Unit → Action 2 Unit → System 2 Unit → Prop :=
    fun s a _ => Regular s a ∧ Roomy s a
  have h0 : (System.lts 2 Unit).Reach ok {} := .init rfl
  have h1 := h0.next (.receive 0) rfl ⟨trivial, trivial⟩
  have h2 := h1.next (.poll 0) rfl ⟨trivial, trivial⟩
  have h3 := h2.next (.act (.activity 1) (.deliver 0 () false)) rfl ⟨trivial, by unfold Roomy; decide⟩
  have h4 := h3.next (.sleep 1 5 0) rfl ⟨fun _ => ⟨by decide, by decide⟩, trivial⟩
  have h5 := h4.next (.poll 1) rfl ⟨trivial, trivial⟩
  have h6 := h5.next .barrier rfl ⟨fun _ => by decide, trivial⟩
  have h7 := h6.next .call rfl ⟨trivial, trivial⟩
  have h8 := h7.next (.finishTask false) rfl ⟨trivial, trivial⟩
  have h9 := h8.next .release rfl ⟨trivial, trivial⟩
  have h10 := h9.next (.poll 0) rfl ⟨trivial, trivial⟩
  have h11 := h10.next (.leave 0) rfl ⟨trivial, trivial⟩
  refine ⟨_, h11, by decide, by decide, ?_⟩
  intro hprompt
  obtain ⟨x, rest, hduring, -, hclock⟩ := hprompt.returned _ List.mem_cons_self rfl rfl
  cases hduring
  exact absurd hclock (by decide)

end Lockstep
