import ScalaNeko.Kernel.Impl.ManagedActivity

/-!
The barrier action runs while all registered activities are in the barrier.
-/

namespace ActivityManager

variable {B : Type}

/--
No activity is registered after the start. With error messages enabled the call is only logged.
-/
def Timely (m : Manager B) (a : Action B) : Prop :=
  ∀ name, a = .registerActivity name true → m.started = false

def Manager.isActing (m : Manager B) : Bool := m.barrier.any (fun b => b.acting.isSome)

-- What a step after the start leaves alone.
def Manager.fixed (m : Manager B) : List B × Option (Nat × List B) :=
  (m.barrierActions, m.barrier.map fun b => (b.parties, b.actions))

/--
What protects the activities from the barrier action.
-/
structure Exclusive (m : Manager B) : Prop where
  parties : ∀ b, m.barrier = some b → b.parties = m.registeredActivities.length
  armed : m.barrier = none → m.registeredActivities = []
  actions : ∀ b, m.barrier = some b → b.actions = m.barrierActions.reverse
  unchanged : ∀ m', (Manager.lts B).Path (fun _ _ _ => True) m m' → m'.fixed = m.fixed
  mutex : m.isActing → ∀ a, a ∈ m.registeredActivities → a.status ≠ .running

/--
The activities that wait at the barrier are fewer than its parties, or the barrier action runs.
-/
structure Counted (m : Manager B) : Prop where
  armed : ∀ b, m.barrier = some b → b.parties = m.registeredActivities.length
    ∧ 0 < b.parties ∧ b.actions = m.barrierActions.reverse
    ∧ (b.acting = none → m.awaiting < b.parties) ∧ (b.acting ≠ none → m.awaiting = b.parties)
  unarmed : m.barrier = none → m.awaiting = 0 ∧ (m.started → m.registeredActivities = [])
  unstarted : m.started = false → m.barrier = none

-- A running activity, and one that has not started, is in its own code.
def Outside (m : Manager B) : Prop :=
  ∀ a, a ∈ m.registeredActivities → a.status = .created ∨ a.status = .running → a.control = .idle

variable {m m' : Manager B} {id : ActivityID} {a a' : ActivityInfo} {b : CyclicBarrier B}

section Steps

theorem step_registerActivity {name : String} {isErrorEnabled : Bool}
    (h : m.step (.registerActivity name isErrorEnabled) = some m')
    : m' = m ∨ (m.started → isErrorEnabled)
        ∧ m' = { m with registeredActivities := m.registeredActivities ++ [{ name }] } := by
  simp only [Manager.step, Manager.registerActivity] at h
  split at h
  . next hok =>
    split at hok
    . cases hok
    . next hguard =>
      cases hok
      cases h
      refine .inr ⟨?_, rfl⟩
      intro hstarted
      simpa [hstarted] using hguard
  . cases h
    exact .inl rfl

theorem step_registerAction {action : B} {isErrorEnabled : Bool}
    (h : m.step (.registerAction action isErrorEnabled) = some m')
    : m' = m ∨ m.started = false ∧ m' = { m with barrierActions := action :: m.barrierActions } := by
  simp only [Manager.step, Manager.registerAction] at h
  cases hstarted : m.started with
  | false =>
    rw [hstarted] at h
    cases h
    exact .inr ⟨rfl, rfl⟩
  | true =>
    rw [hstarted] at h
    cases isErrorEnabled with
    | false =>
      cases h
      exact .inl rfl
    | true =>
      cases h
      exact .inl rfl

theorem step_start (h : m.step .start = some m')
    : m' = m ∨ m.started = false ∧ (∀ a, a ∈ m.registeredActivities → a.status = .created)
        ∧ (m.registeredActivities = [] ∧ m' = { m with started := true, allFinished := true }
          ∨ m.registeredActivities ≠ [] ∧ m' = { m with
              started := true
              registeredActivities := m.registeredActivities.map
                fun a => { a with status := .running }
              barrier := some
                ⟨m.registeredActivities.length, m.barrierActions.reverse, none⟩ }) := by
  simp only [Manager.step, Manager.start] at h
  cases hstarted : m.started with
  | true =>
    rw [hstarted] at h
    cases h
    exact .inl rfl
  | false =>
    rw [hstarted] at h
    by_cases hall : m.registeredActivities.all (fun a => decide (a.status = .created))
    . have hcreated : ∀ a, a ∈ m.registeredActivities → a.status = .created := by
        simpa using hall
      refine .inr ⟨rfl, hcreated, ?_⟩
      simp only [hall, Bool.false_eq_true, if_false, if_true] at h
      cases hreg : m.registeredActivities with
      | nil =>
        rw [hreg] at h
        cases h
        exact .inl ⟨rfl, rfl⟩
      | cons a rest =>
        rw [hreg] at h
        cases h
        exact .inr ⟨List.cons_ne_nil _ _, rfl⟩
    . simp only [hall, Bool.false_eq_true, if_false] at h
      cases h
      exact .inl rfl

-- A step that only an activity in the given state of its calls makes.
theorem step_guarded {control : Control} {f : ActivityInfo → Manager B}
    (h : (do
      let a ← m.registeredActivities[id]?
      if a.control = control then some (f a) else none) = some m')
    : ∃ a, m.registeredActivities[id]? = some a ∧ a.control = control ∧ m' = f a := by
  simp only [Option.bind_eq_bind, Option.bind_eq_some_iff] at h
  obtain ⟨a, ha, h⟩ := h
  split at h
  . next hcontrol =>
    cases h
    exact ⟨a, ha, hcontrol, rfl⟩
  . cases h

theorem step_willStart (h : m.step (.willStart id) = some m')
    : ∃ a, m.registeredActivities[id]? = some a ∧ a.control = .idle
        ∧ m' = m.update id { a with status := .running } :=
  step_guarded h

theorem step_call {c : Call} (h : m.step (.call id c) = some m')
    : ∃ a, m.registeredActivities[id]? = some a ∧ a.control = .idle
        ∧ m' = m.update id { a with status := c.status, control := .entering c } :=
  step_guarded h

theorem step_await (h : m.step (.await id) = some m')
    : ∃ a c, m.registeredActivities[id]? = some a ∧ a.control = .entering c
        ∧ (m.barrier = none ∧ m' = (m.update id { a with control := .dead }).reset
          ∨ ∃ b, m.barrier = some b ∧ b.acting = none
              ∧ m' = (m.update id { a with control := .awaiting c }).trip b) := by
  simp only [Manager.step, Option.bind_eq_bind, Option.bind_eq_some_iff] at h
  obtain ⟨a, ha, h⟩ := h
  split at h
  . next c hcontrol =>
    refine ⟨a, c, ha, hcontrol, ?_⟩
    unfold Manager.await at h
    split at h
    . next hbarrier =>
      cases h
      exact .inl ⟨hbarrier, rfl⟩
    . next b hbarrier =>
      split at h
      . cases h
      . next hacting =>
        cases h
        exact .inr ⟨b, hbarrier, hacting, rfl⟩
  . cases h

theorem step_act {resets : Bool} (h : m.step (.act resets) = some m')
    : ∃ b action rest, m.barrier = some b ∧ b.acting = some (action :: rest)
        ∧ (resets = false ∧ m' = { m with barrier := some { b with acting := some rest } }
          ∨ resets = true
            ∧ m' = ({ m with barrier := some { b with acting := some rest } } : Manager B).reset) := by
  simp only [Manager.step, Option.bind_eq_bind, Option.bind_eq_some_iff] at h
  obtain ⟨b, hb, h⟩ := h
  split at h
  . next action rest hacting =>
    refine ⟨b, action, rest, hb, hacting, ?_⟩
    cases resets with
    | false =>
      cases h
      exact .inl ⟨rfl, rfl⟩
    | true =>
      cases h
      exact .inr ⟨rfl, rfl⟩
  . cases h

theorem step_release (h : m.step .release = some m')
    : ∃ b, m.barrier = some b ∧ b.acting = some [] ∧ m' = m.release := by
  simp only [Manager.step, Option.bind_eq_bind, Option.bind_eq_some_iff] at h
  obtain ⟨b, hb, h⟩ := h
  split at h
  . next hacting =>
    cases h
    exact ⟨b, hb, hacting, rfl⟩
  . cases h

theorem step_check (h : m.step (.check id) = some m')
    : ∃ a c control, m.registeredActivities[id]? = some a ∧ a.control = .released c
        ∧ control.isAwaiting = false
        ∧ (control = .idle → c = .willFinish)
        ∧ (control = .checked → a.status ≠ .aborted)
        ∧ m' = m.update id { a with control } := by
  simp only [Manager.step, Option.bind_eq_bind, Option.bind_eq_some_iff] at h
  obtain ⟨a, ha, h⟩ := h
  split at h
  . next c hcontrol =>
    cases c with
    | willWait =>
      simp only [Manager.check] at h
      split at h
      . cases h
        exact ⟨a, .willWait, .dead, ha, hcontrol, rfl, nofun, nofun, rfl⟩
      . next hstatus =>
        cases h
        exact ⟨a, .willWait, .checked, ha, hcontrol, rfl, nofun, fun _ => hstatus, rfl⟩
    | willFinish =>
      simp only [Manager.check] at h
      split at h
      . cases h
        exact ⟨a, .willFinish, .idle, ha, hcontrol, rfl, fun _ => rfl, nofun, rfl⟩
      . cases h
        exact ⟨a, .willFinish, .entering .willFinish, ha, hcontrol, rfl, nofun, nofun, rfl⟩
  . cases h

theorem step_resume (h : m.step (.resume id) = some m')
    : ∃ a, m.registeredActivities[id]? = some a ∧ a.control = .checked
        ∧ m' = m.update id { a with status := .running, control := .idle } :=
  step_guarded h

theorem step_die (h : m.step (.die id) = some m')
    : ∃ a, m.registeredActivities[id]? = some a ∧ a.control = .idle
        ∧ m' = (m.update id { a with control := .dead }).reset :=
  step_guarded h

end Steps

theorem awaiting_update (ha : m.registeredActivities[id]? = some a)
    (hsame : a'.control.isAwaiting = a.control.isAwaiting)
    : (m.update id a').awaiting = m.awaiting := by
  obtain ⟨hlt, rfl⟩ := List.getElem?_eq_some_iff.mp ha
  simp only [Manager.awaiting, Manager.update]
  rw [List.countP_set hlt, hsame]
  have hpos : m.registeredActivities[id].control.isAwaiting →
      0 < m.registeredActivities.countP (fun a => a.control.isAwaiting) := by
    intro hawaiting
    exact List.countP_pos_iff.mpr ⟨_, List.getElem_mem hlt, hawaiting⟩
  split
  . next hawaiting =>
    have := hpos hawaiting
    omega
  . omega

theorem awaiting_succ (ha : m.registeredActivities[id]? = some a)
    (hbefore : a.control.isAwaiting = false) (hafter : a'.control.isAwaiting = true)
    : (m.update id a').awaiting = m.awaiting + 1 := by
  obtain ⟨hlt, rfl⟩ := List.getElem?_eq_some_iff.mp ha
  simp only [Manager.awaiting, Manager.update]
  rw [List.countP_set hlt, hbefore, hafter]
  rfl

theorem awaiting_reset : m.reset.awaiting = m.awaiting := by
  simp only [Manager.awaiting, Manager.reset, List.countP_map]
  apply List.countP_congr
  intro a _
  simp only [Function.comp_apply]
  split
  . exact Iff.rfl
  . exact Iff.rfl

theorem awaiting_release : m.release.awaiting = 0 := by
  simp only [Manager.awaiting, Manager.release, List.countP_map, List.countP_eq_zero]
  intro a _
  cases hcontrol : a.control with
  | awaiting c => simp [hcontrol, Control.release, Control.isAwaiting]
  | _ => simp [hcontrol, Control.release, Control.isAwaiting]

theorem Counted.update (h : Counted m) (ha : m.registeredActivities[id]? = some a)
    (hsame : a'.control.isAwaiting = a.control.isAwaiting)
    : Counted (m.update id a') := by
  have hawaiting := awaiting_update ha hsame
  constructor
  . intro b hb
    rw [hawaiting, Manager.update, List.length_set]
    exact h.armed b hb
  . intro hb
    obtain ⟨hzero, hnil⟩ := h.unarmed hb
    refine ⟨hawaiting.trans hzero, ?_⟩
    intro hstarted
    rw [Manager.update, hnil hstarted, List.set_nil]
  . exact h.unstarted

theorem Counted.reset (h : Counted m) : Counted m.reset := by
  constructor
  . intro b hb
    rw [awaiting_reset, Manager.reset, List.length_map]
    exact h.armed b hb
  . intro hb
    obtain ⟨hzero, hnil⟩ := h.unarmed hb
    refine ⟨awaiting_reset.trans hzero, ?_⟩
    intro hstarted
    rw [Manager.reset, hnil hstarted, List.map_nil]
  . exact h.unstarted

theorem Outside.update (h : Outside m)
    (hidle : a'.status = .created ∨ a'.status = .running → a'.control = .idle)
    : Outside (m.update id a') := by
  intro x hx
  rcases List.mem_or_eq_of_mem_set hx with hx | rfl
  . exact h x hx
  . exact hidle

theorem Outside.of_reset : Outside m.reset := by
  intro x hx hstatus
  obtain ⟨a, -, rfl⟩ := List.mem_map.mp hx
  split at hstatus
  . next hfinished =>
    rw [hfinished] at hstatus
    rcases hstatus with h | h
    . cases h
    . cases h
  . rcases hstatus with h | h
    . cases h
    . cases h

theorem Outside.not_entering (h : Outside m) (ha : m.registeredActivities[id]? = some a)
    (hcontrol : a.control ≠ .idle)
    : ¬ (a.status = .created ∨ a.status = .running) :=
  fun hstatus => hcontrol (h a (List.mem_of_getElem? ha) hstatus)

theorem Counted.trip {c : Call} (h : Counted m) (ha : m.registeredActivities[id]? = some a)
    (hentering : a.control.isAwaiting = false) (hb : m.barrier = some b) (hacting : b.acting = none)
    : Counted ((m.update id { a with control := .awaiting c }).trip b) := by
  obtain ⟨hparties, hpos, hactions, hless, -⟩ := h.armed b hb
  have hlt := hless hacting
  have hsucc : (m.update id { a with control := .awaiting c }).awaiting = m.awaiting + 1 :=
    awaiting_succ ha hentering rfl
  unfold Manager.trip
  split
  . next hlast =>
    constructor
    . rintro _ ⟨⟩
      refine ⟨?_, hpos, hactions, nofun, fun _ => hlast⟩
      rw [Manager.update, List.length_set]
      exact hparties
    . nofun
    . intro hstarted
      rw [h.unstarted hstarted] at hb
      cases hb
  . next hmore =>
    constructor
    . intro b' hb'
      obtain rfl : b' = b := Option.some.inj (hb'.symm.trans hb)
      refine ⟨?_, hpos, hactions, fun _ => by omega, fun hne => absurd hacting hne⟩
      rw [Manager.update, List.length_set]
      exact hparties
    . intro hnone
      rw [Manager.update, hb] at hnone
      cases hnone
    . exact h.unstarted

theorem Outside.trip (h : Outside m) : Outside (m.trip b) := by
  unfold Manager.trip
  split
  . exact h
  . exact h

theorem Counted.acting {b' : CyclicBarrier B} (h : Counted m) (hb : m.barrier = some b)
    (hacting : b.acting ≠ none) (hacting' : b'.acting ≠ none) (hparties : b'.parties = b.parties)
    (hactions : b'.actions = b.actions)
    : Counted { m with barrier := some b' } := by
  have hold := h.armed b hb
  constructor
  . rintro _ ⟨⟩
    rw [hparties, hactions]
    exact ⟨hold.1, hold.2.1, hold.2.2.1, fun hnone => absurd hnone hacting',
      fun _ => hold.2.2.2.2 hacting⟩
  . nofun
  . intro hstarted
    rw [h.unstarted hstarted] at hb
    cases hb

theorem Counted.release (h : Counted m) (hb : m.barrier = some b) : Counted m.release := by
  have hold := h.armed b hb
  constructor
  . intro b' hb'
    simp only [Manager.release, hb, Option.map_some, Option.some.injEq] at hb'
    subst hb'
    rw [awaiting_release, Manager.release, List.length_map]
    exact ⟨hold.1, hold.2.1, hold.2.2.1, fun _ => hold.2.1, fun hne => absurd rfl hne⟩
  . intro hnone
    simp [Manager.release, hb] at hnone
  . intro hstarted
    rw [h.unstarted hstarted] at hb
    cases hb

theorem Outside.release (h : Outside m) : Outside m.release := by
  intro x hx hstatus
  obtain ⟨a, ha, rfl⟩ := List.mem_map.mp hx
  have hidle := h a ha hstatus
  simp only [hidle, Control.release]

theorem Counted.register (h : Counted m) (hstarted : m.started = false) (name : String)
    : Counted { m with registeredActivities := m.registeredActivities ++ [{ name }] } := by
  have hnone := h.unstarted hstarted
  constructor
  . intro b hb
    rw [hnone] at hb
    cases hb
  . intro _
    refine ⟨?_, fun hs => ?_⟩
    . simp only [Manager.awaiting, List.countP_append]
      simpa [Manager.awaiting, Control.isAwaiting] using (h.unarmed hnone).1
    . rw [hstarted] at hs
      cases hs
  . exact h.unstarted

theorem Outside.register (h : Outside m) (name : String)
    : Outside { m with registeredActivities := m.registeredActivities ++ [{ name }] } := by
  intro a ha hstatus
  rw [List.mem_append, List.mem_singleton] at ha
  rcases ha with ha | rfl
  . exact h a ha hstatus
  . rfl

theorem Counted.start (h : Counted m) (hstarted : m.started = false)
    (hne : m.registeredActivities ≠ [])
    : Counted { m with
        started := true
        registeredActivities := m.registeredActivities.map fun a => { a with status := .running }
        barrier := some ⟨m.registeredActivities.length, m.barrierActions.reverse, none⟩ } := by
  have hzero := (h.unarmed (h.unstarted hstarted)).1
  have hpos := List.length_pos_iff.mpr hne
  constructor
  . rintro _ ⟨⟩
    refine ⟨(List.length_map _).symm, hpos, rfl, fun _ => ?_, fun h => absurd rfl h⟩
    have hsame : (m.registeredActivities.map
        fun a => { a with status := .running }).countP (fun a => a.control.isAwaiting) = m.awaiting := by
      rw [List.countP_map]
      rfl
    simp only [Manager.awaiting] at hsame hzero ⊢
    omega
  . nofun
  . nofun

theorem counted_of_step {x : Action B} (h : Counted m) (ho : Outside m) (hst : m.step x = some m')
    (hok : Timely m x)
    : Counted m' ∧ Outside m' := by
  cases x with
  | registerActivity name isErrorEnabled =>
    rcases step_registerActivity hst with rfl | ⟨hlogged, rfl⟩
    . exact ⟨h, ho⟩
    . have hstarted : m.started = false := by
        cases hs : m.started with
        | false => rfl
        | true =>
          rw [hlogged hs] at hok
          exact hs.symm.trans (hok name rfl)
      exact ⟨h.register hstarted name, ho.register name⟩
  | registerAction action isErrorEnabled =>
    rcases step_registerAction hst with rfl | ⟨hstarted, rfl⟩
    . exact ⟨h, ho⟩
    . have hnone := h.unstarted hstarted
      refine ⟨⟨?_, h.unarmed, h.unstarted⟩, ho⟩
      intro b hb
      rw [hnone] at hb
      cases hb
  | start =>
    rcases step_start hst with rfl | ⟨hstarted, hcreated, ⟨hnil, rfl⟩ | ⟨hne, rfl⟩⟩
    . exact ⟨h, ho⟩
    . have hnone := h.unstarted hstarted
      refine ⟨⟨h.armed, fun _ => ⟨(h.unarmed hnone).1, fun _ => hnil⟩, nofun⟩, ho⟩
    . refine ⟨h.start hstarted hne, ?_⟩
      intro x hx _
      obtain ⟨a, ha, rfl⟩ := List.mem_map.mp hx
      exact ho a ha (.inl (hcreated a ha))
  | willStart id =>
    obtain ⟨a, ha, hidle, rfl⟩ := step_willStart hst
    exact ⟨h.update ha rfl, ho.update fun _ => hidle⟩
  | call id c =>
    obtain ⟨a, ha, hidle, rfl⟩ := step_call hst
    refine ⟨h.update ha (by rw [hidle]; rfl), ho.update ?_⟩
    cases c with
    | willWait => nofun
    | willFinish => nofun
  | await id =>
    obtain ⟨a, c, ha, hcontrol, ⟨-, rfl⟩ | ⟨b, hb, hacting, rfl⟩⟩ := step_await hst
    . exact ⟨(h.update ha (by rw [hcontrol]; rfl)).reset, .of_reset⟩
    . have hbusy := ho.not_entering ha (by rw [hcontrol]; nofun)
      refine ⟨h.trip ha (by rw [hcontrol]; rfl) hb hacting, Outside.trip (ho.update ?_)⟩
      exact fun hstatus => absurd hstatus hbusy
  | act resets =>
    obtain ⟨b, action, rest, hb, hacting, ⟨-, rfl⟩ | ⟨-, rfl⟩⟩ := step_act hst
    . exact ⟨h.acting hb (by simp [hacting]) (by simp) rfl rfl, ho⟩
    . refine ⟨Counted.reset ?_, .of_reset⟩
      exact h.acting hb (by simp [hacting]) (by simp) rfl rfl
  | release =>
    obtain ⟨b, hb, -, rfl⟩ := step_release hst
    exact ⟨h.release hb, ho.release⟩
  | check id =>
    obtain ⟨a, c, control, ha, hcontrol, hawaiting, -, -, rfl⟩ := step_check hst
    have hbusy := ho.not_entering ha (by rw [hcontrol]; nofun)
    refine ⟨h.update ha (by rw [hcontrol]; exact hawaiting), ho.update ?_⟩
    exact fun hstatus => absurd hstatus hbusy
  | resume id =>
    obtain ⟨a, ha, hcontrol, rfl⟩ := step_resume hst
    exact ⟨h.update ha (by rw [hcontrol]; rfl), ho.update fun _ => rfl⟩
  | die id =>
    obtain ⟨a, ha, hidle, rfl⟩ := step_die hst
    exact ⟨(h.update ha (by rw [hidle]; rfl)).reset, .of_reset⟩

theorem reset_fixed : m.reset.fixed = m.fixed := rfl

theorem trip_fixed (hb : m.barrier = some b) : (m.trip b).fixed = m.fixed := by
  unfold Manager.trip
  split
  . simp [Manager.fixed, hb]
  . rfl

theorem step_fixed {x : Action B} (hstarted : m.started) (hst : m.step x = some m')
    : m'.started ∧ m'.fixed = m.fixed := by
  cases x with
  | registerActivity name isErrorEnabled =>
    rcases step_registerActivity hst with rfl | ⟨-, rfl⟩
    . exact ⟨hstarted, rfl⟩
    . exact ⟨hstarted, rfl⟩
  | registerAction action isErrorEnabled =>
    rcases step_registerAction hst with rfl | ⟨hfalse, -⟩
    . exact ⟨hstarted, rfl⟩
    . rw [hfalse] at hstarted
      cases hstarted
  | start =>
    rcases step_start hst with rfl | ⟨hfalse, -⟩
    . exact ⟨hstarted, rfl⟩
    . rw [hfalse] at hstarted
      cases hstarted
  | willStart id =>
    obtain ⟨a, -, -, rfl⟩ := step_willStart hst
    exact ⟨hstarted, rfl⟩
  | call id c =>
    obtain ⟨a, -, -, rfl⟩ := step_call hst
    exact ⟨hstarted, rfl⟩
  | await id =>
    obtain ⟨a, c, -, -, ⟨-, rfl⟩ | ⟨b, hb, -, rfl⟩⟩ := step_await hst
    . exact ⟨hstarted, rfl⟩
    . refine ⟨?_, trip_fixed hb⟩
      unfold Manager.trip
      split
      . exact hstarted
      . exact hstarted
  | act resets =>
    obtain ⟨b, action, rest, hb, -, ⟨-, rfl⟩ | ⟨-, rfl⟩⟩ := step_act hst
    . exact ⟨hstarted, by simp [Manager.fixed, hb]⟩
    . exact ⟨hstarted, by rw [reset_fixed]; simp [Manager.fixed, hb]⟩
  | release =>
    obtain ⟨b, hb, -, rfl⟩ := step_release hst
    exact ⟨hstarted, by simp [Manager.fixed, Manager.release, hb]⟩
  | check id =>
    obtain ⟨a, c, control, -, -, -, -, -, rfl⟩ := step_check hst
    exact ⟨hstarted, rfl⟩
  | resume id =>
    obtain ⟨a, -, -, rfl⟩ := step_resume hst
    exact ⟨hstarted, rfl⟩
  | die id =>
    obtain ⟨a, -, -, rfl⟩ := step_die hst
    exact ⟨hstarted, rfl⟩

theorem path_fixed (hstarted : m.started)
    (hpath : (Manager.lts B).Path (fun _ _ _ => True) m m')
    : m'.fixed = m.fixed := by
  have hend : m'.started ∧ m'.fixed = m.fixed := by
    apply LTS.Path.stable (I := fun s => s.started ∧ s.fixed = m.fixed) _ hpath ⟨hstarted, rfl⟩
    rintro s x s' ⟨hs, heq⟩ hst -
    obtain ⟨hs', heq'⟩ := step_fixed hs hst
    exact ⟨hs', heq'.trans heq⟩
  exact hend.2

theorem counted_of_timely (h : (Manager.lts B).Reach (fun m x _ => Timely m x) m)
    : Counted m ∧ Outside m := by
  apply LTS.Reach.invariant (I := fun m => Counted m ∧ Outside m) _ _ h
  . rintro m rfl
    exact ⟨⟨nofun, fun _ => ⟨rfl, nofun⟩, fun _ => rfl⟩, nofun⟩
  . intro m x m' _ hm hst hok
    exact counted_of_step hm.1 hm.2 hst hok

theorem exclusive_of_timely (h : (Manager.lts B).Reach (fun m x _ => Timely m x) m)
    (hstarted : m.started)
    : Exclusive m := by
  obtain ⟨hcounted, houtside⟩ := counted_of_timely h
  constructor
  . intro b hb
    exact (hcounted.armed b hb).1
  . intro hb
    exact (hcounted.unarmed hb).2 hstarted
  . intro b hb
    exact (hcounted.armed b hb).2.2.1
  . intro m' hpath
    exact path_fixed hstarted hpath
  . intro hacting a ha hrunning
    simp only [Manager.isActing, Option.any_eq_true] at hacting
    obtain ⟨b, hb, hsome⟩ := hacting
    obtain ⟨hparties, -, -, -, hall⟩ := hcounted.armed b hb
    have hawaiting := (hall (by simpa [Option.isSome_iff_ne_none] using hsome)).trans hparties
    have hin := List.countP_eq_length.mp hawaiting a ha
    rw [houtside a ha (.inr hrunning)] at hin
    cases hin

theorem exclusive_of_timely_two
    : ∃ m : Manager Unit, m.isActing ∧ m.registeredActivities.map (fun a => a.status) = [.waiting, .finished]
        ∧ Exclusive m := by
  have h0 : (Manager.lts Unit).Reach (fun m x _ => Timely m x) {} := .init rfl
  have h1 := h0.next (.registerActivity "a" true) rfl (by intro _ _; rfl)
  have h2 := h1.next (.registerActivity "b" true) rfl (by intro _ _; rfl)
  have h3 := h2.next (.registerAction () true) rfl nofun
  have h4 := h3.next .start rfl nofun
  have h5 := h4.next (.willStart 0) rfl nofun
  have h6 := h5.next (.call 1 .willFinish) rfl nofun
  have h7 := h6.next (.await 1) rfl nofun
  have h8 := h7.next (.call 0 .willWait) rfl nofun
  have h9 := h8.next (.await 0) rfl nofun
  exact ⟨_, by decide, by decide, exclusive_of_timely h9 rfl⟩

/--
An activity that is registered after the start runs while the barrier action does.
-/
theorem running_of_registered_late
    : ∃ m : Manager Unit, (Manager.lts Unit).Reach (fun _ _ _ => True) m ∧ m.started ∧ m.isActing
        ∧ m.barrier.map (fun b => b.parties) = some 1
        ∧ m.registeredActivities.map (fun a => a.status) = [.waiting, .running] := by
  have h0 : (Manager.lts Unit).Reach (fun _ _ _ => True) {} := .init rfl
  have h1 := h0.next (.registerActivity "a" true) rfl trivial
  have h2 := h1.next (.registerAction () true) rfl trivial
  have h3 := h2.next .start rfl trivial
  have h4 := h3.next (.registerActivity "b" true) rfl trivial
  have h5 := h4.next (.willStart 1) rfl trivial
  have h6 := h5.next (.call 0 .willWait) rfl trivial
  have h7 := h6.next (.await 0) rfl trivial
  exact ⟨_, h7, rfl, by decide, rfl, by decide⟩

end ActivityManager
