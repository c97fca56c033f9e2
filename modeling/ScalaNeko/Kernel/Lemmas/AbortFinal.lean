import ScalaNeko.Kernel.Lemmas.ManagedActivity
import ScalaNeko.Lib.Record

/-!
An activity that is aborted stays so, if it makes no further call and the reset does not fall between
the test and the assignment of its status.
-/

namespace ActivityManager

variable {B : Type}

-- The step calls `reset`.
inductive Resets (m : Manager B) : Action B → Prop where
  | act : Resets m (.act true)
  | await {id : ActivityID} : m.barrier = none → Resets m (.await id)
  | die {id : ActivityID} : Resets m (.die id)

-- The step begins a call of the activity.
inductive Calls (id : ActivityID) : Action B → Prop where
  | willStart : Calls id (.willStart id)
  | call {c : Call} : Calls id (.call id c)

/--
No call begins for an aborted activity, and no reset falls between the test and the assignment of the
status in `willWait`.
-/
structure Heeds (m : Manager B) (x : Action B) : Prop where
  calls : ∀ id a, Calls id x → m.registeredActivities[id]? = some a → a.status ≠ .aborted
  resets : Resets m x → ∀ a, a ∈ m.registeredActivities → a.control ≠ .checked

/--
What is left of the activity `id` after a reset.
-/
structure Aborted (m : Manager B) (id : ActivityID) (name : String) : Prop where
  status : ∃ a, m.registeredActivities[id]? = some a ∧ a.name = name ∧ a.status = .aborted
  raises : ∀ a, m.registeredActivities[id]? = some a → a.control = .released .willWait →
    m.step (.check id) = some (m.update id { a with control := .dead })
  silent : m.step (.resume id) = none
  reported : ∃ res, m.abnormallyTerminated = some res ∧ name ∈ res

-- No aborted activity is about to return from `willWait`.
def Checked (m : Manager B) : Prop :=
  ∀ a, a ∈ m.registeredActivities → a.status = .aborted → a.control ≠ .checked

variable {m m' : Manager B} {id : ActivityID} {a : ActivityInfo}

theorem Checked.update (h : Checked m) {a' : ActivityInfo}
    (hchecked : a'.status = .aborted → a'.control ≠ .checked)
    : Checked (m.update id a') := by
  intro x hx
  rcases List.mem_or_eq_of_mem_set hx with hx | rfl
  . exact h x hx
  . exact hchecked

theorem Checked.reset (h : ∀ a, a ∈ m.registeredActivities → a.control ≠ .checked)
    : Checked m.reset := by
  intro x hx _
  obtain ⟨a, ha, rfl⟩ := List.mem_map.mp hx
  split
  . exact h a ha
  . exact h a ha

theorem ne_checked_of_update {a' : ActivityInfo}
    (h : ∀ a, a ∈ m.registeredActivities → a.control ≠ .checked) (ha' : a'.control ≠ .checked)
    : ∀ a, a ∈ (m.update id a').registeredActivities → a.control ≠ .checked := by
  intro x hx
  rcases List.mem_or_eq_of_mem_set hx with hx | rfl
  . exact h x hx
  . exact ha'

theorem trip_registeredActivities {b : CyclicBarrier B}
    : (m.trip b).registeredActivities = m.registeredActivities := by
  unfold Manager.trip
  split
  . rfl
  . rfl

theorem Checked.step {x : Action B} (h : Checked m) (hst : m.step x = some m') (hok : Heeds m x)
    : Checked m' := by
  cases x with
  | registerActivity name isErrorEnabled =>
    rcases step_registerActivity hst with rfl | ⟨-, rfl⟩
    . exact h
    . intro a ha
      rw [List.mem_append, List.mem_singleton] at ha
      rcases ha with ha | rfl
      . exact h a ha
      . rintro - ⟨⟩
  | registerAction action isErrorEnabled =>
    rcases step_registerAction hst with rfl | ⟨-, rfl⟩
    . exact h
    . exact h
  | start =>
    rcases step_start hst with rfl | ⟨-, -, ⟨-, rfl⟩ | ⟨-, rfl⟩⟩
    . exact h
    . exact h
    . intro x hx
      obtain ⟨a, -, rfl⟩ := List.mem_map.mp hx
      rintro ⟨⟩
  | willStart id =>
    obtain ⟨a, -, -, rfl⟩ := step_willStart hst
    exact h.update (by rintro ⟨⟩)
  | call id c =>
    obtain ⟨a, -, -, rfl⟩ := step_call hst
    exact h.update (by rintro - ⟨⟩)
  | await id =>
    obtain ⟨a, c, -, -, ⟨hnone, rfl⟩ | ⟨b, -, -, rfl⟩⟩ := step_await hst
    . exact .reset (ne_checked_of_update (hok.resets (.await hnone)) (by rintro ⟨⟩))
    . unfold Checked
      rw [trip_registeredActivities]
      exact h.update (by rintro - ⟨⟩)
  | act resets =>
    obtain ⟨b, action, rest, -, -, ⟨-, rfl⟩ | ⟨rfl, rfl⟩⟩ := step_act hst
    . exact h
    . exact .reset (hok.resets .act)
  | release =>
    obtain ⟨b, -, -, rfl⟩ := step_release hst
    intro x hx hstatus
    obtain ⟨a, ha, rfl⟩ := List.mem_map.mp hx
    have hne := h a ha hstatus
    cases hcontrol : a.control with
    | checked => exact absurd hcontrol hne
    | _ => simp [Control.release]
  | check id =>
    obtain ⟨a, c, control, -, -, -, -, hchecked, rfl⟩ := step_check hst
    apply h.update
    intro hstatus hcontrol
    exact hchecked hcontrol hstatus
  | resume id =>
    obtain ⟨a, -, -, rfl⟩ := step_resume hst
    exact h.update (by rintro ⟨⟩)
  | die id =>
    obtain ⟨a, -, -, rfl⟩ := step_die hst
    exact .reset (ne_checked_of_update (hok.resets .die) (by rintro ⟨⟩))

def IsAborted (m : Manager B) (id : ActivityID) (name : String) : Prop :=
  ∃ a, m.registeredActivities[id]? = some a ∧ a.name = name ∧ a.status = .aborted

section IsAborted

variable {id' : ActivityID} {name : String} {a' : ActivityInfo}

theorem IsAborted.update (h : IsAborted m id name) (ha : m.registeredActivities[id']? = some a)
    (hname : a'.name = a.name) (hstatus : a.status = .aborted → a'.status = .aborted)
    : IsAborted (m.update id' a') id name := by
  obtain ⟨x, hx, rfl, haborted⟩ := h
  by_cases hid : id' = id
  . subst hid
    obtain rfl : a = x := Option.some.inj (ha.symm.trans hx)
    obtain ⟨hlt, -⟩ := List.getElem?_eq_some_iff.mp ha
    exact ⟨a', List.getElem?_set_self hlt, hname, hstatus haborted⟩
  . refine ⟨x, ?_, rfl, haborted⟩
    rw [Manager.update, List.getElem?_set_ne hid]
    exact hx

theorem IsAborted.map (h : IsAborted m id name) (f : ActivityInfo → ActivityInfo)
    (hf : ∀ a, a.status = .aborted → (f a).name = a.name ∧ (f a).status = .aborted)
    (hm' : m'.registeredActivities = m.registeredActivities.map f)
    : IsAborted m' id name := by
  obtain ⟨x, hx, rfl, haborted⟩ := h
  refine ⟨f x, ?_, hf x haborted⟩
  rw [hm', List.getElem?_map, hx]
  rfl

theorem IsAborted.reset (h : IsAborted m id name) : IsAborted m.reset id name := by
  refine h.map _ ?_ rfl
  intro a haborted
  simp [haborted]

theorem IsAborted.step {x : Action B} (h : IsAborted m id name) (hm : Checked m)
    (hst : m.step x = some m') (hok : Heeds m x)
    : IsAborted m' id name := by
  cases x with
  | registerActivity name' isErrorEnabled =>
    rcases step_registerActivity hst with rfl | ⟨-, rfl⟩
    . exact h
    . obtain ⟨a, ha, hrest⟩ := h
      exact ⟨a, Record.getElem?_of_prefix (List.prefix_append _ _) ha, hrest⟩
  | registerAction action isErrorEnabled =>
    rcases step_registerAction hst with rfl | ⟨-, rfl⟩
    . exact h
    . exact h
  | start =>
    rcases step_start hst with rfl | ⟨-, hcreated, -⟩
    . exact h
    . obtain ⟨a, ha, -, haborted⟩ := h
      rw [hcreated a (List.mem_of_getElem? ha)] at haborted
      cases haborted
  | willStart id =>
    obtain ⟨a, ha, -, rfl⟩ := step_willStart hst
    exact h.update ha rfl fun haborted => absurd haborted (hok.calls _ a .willStart ha)
  | call id c =>
    obtain ⟨a, ha, -, rfl⟩ := step_call hst
    exact h.update ha rfl fun haborted => absurd haborted (hok.calls _ a .call ha)
  | await id =>
    obtain ⟨a, c, ha, -, ⟨-, rfl⟩ | ⟨b, -, -, rfl⟩⟩ := step_await hst
    . exact IsAborted.reset (h.update ha rfl fun haborted => haborted)
    . unfold IsAborted
      rw [trip_registeredActivities]
      exact h.update ha rfl fun haborted => haborted
  | act resets =>
    obtain ⟨b, action, rest, -, -, ⟨-, rfl⟩ | ⟨-, rfl⟩⟩ := step_act hst
    . exact h
    . exact IsAborted.reset h
  | release =>
    obtain ⟨b, -, -, rfl⟩ := step_release hst
    exact h.map (fun a => { a with control := a.control.release })
      (fun _ haborted => ⟨rfl, haborted⟩) rfl
  | check id =>
    obtain ⟨a, c, control, ha, -, -, -, -, rfl⟩ := step_check hst
    exact h.update ha rfl fun haborted => haborted
  | resume id =>
    obtain ⟨a, ha, hchecked, rfl⟩ := step_resume hst
    exact h.update ha rfl fun haborted =>
      absurd hchecked (hm a (List.mem_of_getElem? ha) haborted)
  | die id =>
    obtain ⟨a, ha, -, rfl⟩ := step_die hst
    exact IsAborted.reset (h.update ha rfl fun haborted => haborted)

theorem IsAborted.reported (h : IsAborted m id name)
    : ∃ res, m.abnormallyTerminated = some res ∧ name ∈ res := by
  obtain ⟨a, ha, rfl, haborted⟩ := h
  have hmem : a.name ∈ ((m.registeredActivities.filter
      (fun a => decide (a.status = .aborted))).map (fun a => a.name)).toFinset := by
    rw [List.mem_toFinset]
    apply List.mem_map_of_mem
    exact List.mem_filter.mpr ⟨List.mem_of_getElem? ha, by simpa using haborted⟩
  refine ⟨_, ?_, hmem⟩
  unfold Manager.abnormallyTerminated
  exact if_pos ⟨_, hmem⟩

theorem IsAborted.aborted (h : IsAborted m id name) (hm : Checked m) : Aborted m id name := by
  obtain ⟨a, ha, hname, haborted⟩ := h
  refine ⟨⟨a, ha, hname, haborted⟩, ?_, ?_, IsAborted.reported ⟨a, ha, hname, haborted⟩⟩
  . intro x hx hcontrol
    obtain rfl : x = a := Option.some.inj (hx.symm.trans ha)
    simp [Manager.step, hx, hcontrol, Manager.check, haborted]
  . have hne := hm a (List.mem_of_getElem? ha) haborted
    simp [Manager.step, ha, hne]

end IsAborted

theorem checked_of_heeds (h : (Manager.lts B).Reach (fun m x _ => Heeds m x) m) : Checked m := by
  apply LTS.Reach.invariant (I := Checked) _ _ h
  . rintro m rfl
    nofun
  . intro m x m' _ hm hst hok
    exact hm.step hst hok

theorem aborted_of_heeds (h : (Manager.lts B).Reach (fun m x _ => Heeds m x) m)
    (ha : m.registeredActivities[id]? = some a) (haborted : a.status = .aborted)
    (hpath : (Manager.lts B).Path (fun m x _ => Heeds m x) m m')
    : Aborted m' id a.name := by
  have hend : Checked m' ∧ IsAborted m' id a.name := by
    apply LTS.Path.stable (I := fun s => Checked s ∧ IsAborted s id a.name) _ hpath
      ⟨checked_of_heeds h, a, ha, rfl, haborted⟩
    rintro s x s' ⟨hs, hs'⟩ hst hok
    exact ⟨hs.step hst hok, hs'.step hs hst hok⟩
  exact hend.2.aborted hend.1

theorem Heeds.of_no_abort {x : Action B} (h : ∀ a, a ∈ m.registeredActivities → a.status ≠ .aborted)
    (hresets : ¬ Resets m x)
    : Heeds m x :=
  ⟨fun _ a _ ha => h a (List.mem_of_getElem? ha), fun hx => absurd hx hresets⟩

theorem Heeds.of_no_call {x : Action B} (h : ∀ a, a ∈ m.registeredActivities → a.control ≠ .checked)
    (hcalls : ∀ id, ¬ Calls id x)
    : Heeds m x :=
  ⟨fun id _ hx => absurd hx (hcalls id), fun _ => h⟩

theorem aborted_of_heeds_waiting
    : ∃ m m' : Manager Unit, (Manager.lts Unit).Reach (fun m x _ => Heeds m x) m
        ∧ m.registeredActivities.map (fun a => a.control) = [.awaiting .willWait, .awaiting .willWait]
        ∧ m'.registeredActivities.map (fun a => a.control) = [.released .willWait, .dead]
        ∧ Aborted m' 1 "b" := by
  have h0 : (Manager.lts Unit).Reach (fun m x _ => Heeds m x) {} := .init rfl
  have h1 := h0.next (.registerActivity "a" true) rfl (.of_no_call (by decide) nofun)
  have h2 := h1.next (.registerActivity "b" true) rfl (.of_no_call (by decide) nofun)
  have h3 := h2.next (.registerAction () true) rfl (.of_no_call (by decide) nofun)
  have h4 := h3.next .start rfl (.of_no_call (by decide) nofun)
  have h5 := h4.next (.call 0 .willWait) rfl (.of_no_abort (by decide) nofun)
  have h6 := h5.next (.call 1 .willWait) rfl (.of_no_abort (by decide) nofun)
  have h7 := h6.next (.await 0) rfl (.of_no_call (by decide) nofun)
  have h8 := h7.next (.await 1) rfl (.of_no_call (by decide) nofun)
  have h9 := h8.next (.act true) rfl (.of_no_call (by decide) nofun)
  have p10 := (h9.start (fun m x _ => Heeds m x)).next .release rfl
    (.of_no_call (by decide) nofun)
  have p11 := p10.next (.check 1) rfl (.of_no_call (by decide) nofun)
  exact ⟨_, _, h9, by decide, by decide, @aborted_of_heeds Unit _ _ 1 _ h9 rfl rfl p11⟩

/--
A call that begins for an aborted activity takes its status away.
-/
theorem lost_of_calls {x : Action B} (ha : m.registeredActivities[id]? = some a)
    (hcalls : Calls id x) (hst : m.step x = some m')
    : ∃ a', m'.registeredActivities[id]? = some a' ∧ a'.status ≠ .aborted := by
  obtain ⟨hlt, -⟩ := List.getElem?_eq_some_iff.mp ha
  cases hcalls with
  | willStart =>
    obtain ⟨a', -, -, rfl⟩ := step_willStart hst
    exact ⟨_, List.getElem?_set_self hlt, nofun⟩
  | @call c =>
    obtain ⟨a', -, -, rfl⟩ := step_call hst
    refine ⟨_, List.getElem?_set_self hlt, ?_⟩
    cases c with
    | willWait => nofun
    | willFinish => nofun

/--
After a reset `willWait` returns if it has tested the status before.
-/
theorem lost_of_resets {x : Action B} (ha : m.registeredActivities[id]? = some a)
    (hchecked : a.control = .checked) (hresets : Resets m x) (hst : m.step x = some m')
    : ∃ m'', m'.step (.resume id) = some m'' := by
  have hreset : ∀ m₁ : Manager B, m₁.registeredActivities[id]? = some a →
      ∃ m'', m₁.reset.step (.resume id) = some m'' := by
    intro m₁ ha₁
    have hget : m₁.reset.registeredActivities[id]?
        = some (if a.status = .finished then a else { a with status := .aborted }) := by
      rw [Manager.reset, List.getElem?_map, ha₁]
      rfl
    by_cases hstatus : a.status = .finished
    . simp [Manager.step, hget, hstatus, hchecked]
    . simp [Manager.step, hget, hstatus, hchecked]
  have hother : ∀ (id' : ActivityID) (a₁ a₂ : ActivityInfo),
      m.registeredActivities[id']? = some a₁ → a₁.control ≠ .checked →
      (m.update id' a₂).registeredActivities[id]? = some a := by
    intro id' a₁ a₂ ha₁ hne
    have hid : id' ≠ id := by
      rintro rfl
      rw [Option.some.inj (ha₁.symm.trans ha)] at hne
      exact hne hchecked
    rw [Manager.update, List.getElem?_set_ne hid]
    exact ha
  cases hresets with
  | act =>
    obtain ⟨b, action, rest, -, -, ⟨hfalse, -⟩ | ⟨-, rfl⟩⟩ := step_act hst
    . cases hfalse
    . exact hreset _ ha
  | @await id' hnone =>
    obtain ⟨a₁, c, ha₁, hcontrol, ⟨-, rfl⟩ | ⟨b, hb, -⟩⟩ := step_await hst
    . exact hreset _ (hother id' a₁ _ ha₁ (by rw [hcontrol]; rintro ⟨⟩))
    . rw [hnone] at hb
      cases hb
  | @die id' =>
    obtain ⟨a₁, ha₁, hidle, rfl⟩ := step_die hst
    exact hreset _ (hother id' a₁ _ ha₁ (by rw [hidle]; rintro ⟨⟩))

theorem running_of_aborted
    : (∃ m m' : Manager Unit, (Manager.lts Unit).Reach (fun _ _ _ => True) m
        ∧ m.registeredActivities.map (fun a => a.status) = [.aborted, .aborted]
        ∧ m.step (.call 1 .willWait) = some m'
        ∧ m'.registeredActivities.map (fun a => a.status) = [.aborted, .waiting]
        ∧ m'.abnormallyTerminated = some {"a"})
      ∧ ∃ m m' : Manager Unit, (Manager.lts Unit).Reach (fun _ _ _ => True) m
        ∧ m.registeredActivities.map (fun a => a.status) = [.aborted, .aborted]
        ∧ m.step (.resume 1) = some m'
        ∧ m'.registeredActivities.map (fun a => a.status) = [.aborted, .running] := by
  have h0 : (Manager.lts Unit).Reach (fun _ _ _ => True) {} := .init rfl
  have h1 := h0.next (.registerActivity "a" true) rfl trivial
  have h2 := h1.next (.registerActivity "b" true) rfl trivial
  have h3 := h2.next .start rfl trivial
  have h4 := h3.next (.willStart 0) rfl trivial
  have h5 := h4.next (.willStart 1) rfl trivial
  constructor
  . have h6 := h5.next (.die 0) rfl trivial
    exact ⟨_, _, h6, by decide, rfl, by decide, by decide⟩
  . have h6 := h5.next (.call 0 .willWait) rfl trivial
    have h7 := h6.next (.call 1 .willWait) rfl trivial
    have h8 := h7.next (.await 0) rfl trivial
    have h9 := h8.next (.await 1) rfl trivial
    have h10 := h9.next .release rfl trivial
    have h11 := h10.next (.check 0) rfl trivial
    have h12 := h11.next (.check 1) rfl trivial
    have h13 := h12.next (.resume 0) rfl trivial
    have h14 := h13.next (.die 0) rfl trivial
    exact ⟨_, _, h14, by decide, rfl, by decide⟩

end ActivityManager
