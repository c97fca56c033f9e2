import Mathlib.Data.List.Nodup
import Mathlib.Data.List.Perm.Basic
import Mathlib.Data.List.Range
import ScalaNeko.StashedReceive.Impl

/-!
Receiving with a stash serves every arrival once and in order, as long as the event that is taken from
the stash has no equal there.
-/

namespace StashedReceive

variable {E : Type}

def Handling.Earliest (h : Handling E) : Prop :=
  h.occ ∈ h.unhandled ∧ h.pf h.occ.event ∧ ∀ o, o ∈ h.unhandled → h.pf o.event →
    h.occ.arrival ≤ o.arrival

/--
No arrival is lost or handled twice, and all are served in order of arrival.
-/
structure Exact (r : Run E) : Prop where
  fifo : r.taken ++ r.code.blockingQueue = r.arrived
  conserved : (r.handled.map Handling.occ ++ r.code.stash).Perm r.taken
  once : (r.handled.map Handling.occ).Nodup
  earliest : ∀ h, h ∈ r.handled → h.Earliest

def FirstIsAlone [BEq E] (stash : List (Occurrence E)) (pf : E → Bool) : Prop :=
  ∀ m, m ∈ stash.find? (fun o => pf o.event) → stash.countP (· == m) = 1

instance [BEq E] (stash : List (Occurrence E)) (pf : E → Bool) : Decidable (FirstIsAlone stash pf) :=
  inferInstanceAs (Decidable (∀ m, m ∈ stash.find? (fun o => pf o.event) →
    stash.countP (· == m) = 1))

structure Inv (r : Run E) : Prop where
  fifo : r.taken ++ r.code.blockingQueue = r.arrived
  numbered : r.arrived.map Occurrence.arrival = List.range r.arrived.length
  conserved : (r.handled.map Handling.occ ++ r.code.stash).Perm r.taken
  sorted : r.code.stash.Pairwise (fun a b => a.arrival < b.arrival)
  waiting : ∀ pf, r.waiting = some pf → ∀ o, o ∈ r.code.stash → pf o.event = false
  earliest : ∀ h, h ∈ r.handled → h.Earliest

variable {r r' : Run E}

theorem Inv.arrivals_nodup (h : Inv r)
    : ((r.handled.map Handling.occ ++ r.code.stash ++ r.code.blockingQueue).map
        Occurrence.arrival).Nodup := by
  have hperm := (h.conserved.append_right r.code.blockingQueue).map Occurrence.arrival
  rw [hperm.nodup_iff, h.fifo, h.numbered]
  exact List.nodup_range

theorem Inv.mem_unhandled (h : Inv r) {o : Occurrence E}
    : o ∈ r.unhandled ↔ o ∈ r.code.stash ∨ o ∈ r.code.blockingQueue := by
  have hnodup := h.arrivals_nodup
  rw [List.append_assoc, List.map_append, List.nodup_append] at hnodup
  obtain ⟨-, -, hdisj⟩ := hnodup
  have harrived : o ∈ r.arrived ↔ o ∈ r.handled.map Handling.occ ∨ o ∈ r.code.stash
      ∨ o ∈ r.code.blockingQueue := by
    rw [← h.fifo, List.mem_append, ← h.conserved.mem_iff, List.mem_append, or_assoc]
  have hmap : r.handled.map (fun x => x.occ.arrival)
      = (r.handled.map Handling.occ).map Occurrence.arrival := by
    rw [List.map_map]
    rfl
  rw [Run.unhandled, List.mem_filter, harrived, decide_eq_true_eq, hmap]
  constructor
  . rintro ⟨hhandled | hrest, hnot⟩
    . exact absurd (List.mem_map_of_mem hhandled) hnot
    . exact hrest
  . intro hrest
    refine ⟨.inr hrest, ?_⟩
    intro hmem
    exact hdisj _ hmem _ (List.mem_map_of_mem (List.mem_append.mpr hrest)) rfl

theorem Inv.arrived_sorted (h : Inv r)
    : (r.taken ++ r.code.blockingQueue).Pairwise (fun a b => a.arrival < b.arrival) := by
  have hsorted : (r.arrived.map Occurrence.arrival).Pairwise (· < ·) := by
    rw [h.numbered]
    exact List.pairwise_lt_range
  rw [h.fifo]
  exact List.pairwise_map.mp hsorted

theorem Inv.stash_lt_queue (h : Inv r) {a b : Occurrence E} (ha : a ∈ r.code.stash)
    (hb : b ∈ r.code.blockingQueue)
    : a.arrival < b.arrival := by
  apply (List.pairwise_append.mp h.arrived_sorted).2.2
  . rw [← h.conserved.mem_iff]
    exact List.mem_append_right _ ha
  . exact hb

theorem Inv.exact (h : Inv r) : Exact r where
  fifo := h.fifo
  conserved := h.conserved
  once := by
    have hnodup := h.arrivals_nodup
    rw [List.append_assoc, List.map_append, List.nodup_append] at hnodup
    exact List.Nodup.of_map Occurrence.arrival hnodup.1
  earliest := h.earliest

theorem Inv.init : Inv ({} : Run E) where
  fifo := rfl
  numbered := rfl
  conserved := .nil
  sorted := .nil
  waiting := by simp
  earliest := by simp

variable [BEq E]

theorem filter_perm [ReflBEq E] {stash : List (Occurrence E)} {m : Occurrence E} (hm : m ∈ stash)
    (halone : stash.countP (· == m) = 1)
    : (m :: stash.filter (fun x => !(x == m))).Perm stash := by
  have hself : (m == m) = true := BEq.rfl (a := m.event)
  have hone : stash.filter (· == m) = [m] := by
    rw [List.countP_eq_length_filter, List.length_eq_one_iff] at halone
    obtain ⟨a, ha⟩ := halone
    have hmem : m ∈ stash.filter (· == m) := List.mem_filter.mpr ⟨hm, hself⟩
    rw [ha, List.mem_singleton] at hmem
    rw [ha, hmem]
  have hperm := List.filter_append_perm (· == m) stash
  rw [hone] at hperm
  exact hperm

theorem Inv.deliver (h : Inv r) (e : E) (hst : r.step (.deliver e) = some r') : Inv r' := by
  cases hst
  constructor
  . simp only [StashedReceive.deliver]
    rw [← List.append_assoc, h.fifo]
  . simp [h.numbered, List.range_succ]
  . exact h.conserved
  . exact h.sorted
  . exact h.waiting
  . exact h.earliest

theorem Inv.call [ReflBEq E] (h : Inv r) (pf : E → Bool) (halone : FirstIsAlone r.code.stash pf)
    (hst : r.step (.call pf) = some r')
    : Inv r' := by
  unfold Run.step receiveOrStash at hst
  dsimp only at hst
  split at hst
  . simp at hst
  . cases hfind : r.code.stash.find? (fun o => pf o.event) with
    | none =>
      rw [hfind] at hst
      cases hst
      refine ⟨h.fifo, h.numbered, h.conserved, h.sorted, ?_, h.earliest⟩
      rintro pf' hpf o ho
      cases hpf
      simpa using List.find?_eq_none.mp hfind o ho
    | some m =>
      rw [hfind] at hst
      cases hst
      have hm := List.mem_of_find?_eq_some hfind
      obtain ⟨hpf, before, after, hstash, hbefore⟩ := List.find?_eq_some_iff_append.mp hfind
      have hperm := filter_perm hm (halone m hfind)
      refine ⟨h.fifo, h.numbered, ?_, h.sorted.filter _, by simp [Run.handle], ?_⟩
      . have hhandled := hperm.append_left (r.handled.map Handling.occ)
        simp only [Run.handle, List.map_append, List.map_cons, List.map_nil, List.append_assoc,
          List.singleton_append]
        exact hhandled.trans h.conserved
      . intro x hx
        simp only [Run.handle, List.mem_append, List.mem_singleton] at hx
        rcases hx with hx | rfl
        . exact h.earliest x hx
        . refine ⟨h.mem_unhandled.mpr (.inl hm), hpf, ?_⟩
          intro o ho hpfo
          -- what the partial function is defined for comes after `m` in the stash or in the queue
          cases h.mem_unhandled.mp ho with
          | inl ho =>
            have hsorted := h.sorted
            rw [hstash, List.pairwise_append, List.pairwise_cons] at hsorted
            rw [hstash, List.mem_append, List.mem_cons] at ho
            rcases ho with ho | rfl | ho
            . have := hbefore o ho
              dsimp only at hpfo
              simp [hpfo] at this
            . exact Nat.le_refl _
            . exact Nat.le_of_lt (hsorted.2.1.1 o ho)
          | inr ho => exact Nat.le_of_lt (h.stash_lt_queue hm ho)

theorem step_turn {pf : E → Bool} {m : Occurrence E} {queue : List (Occurrence E)}
    (hwaiting : r.waiting = some pf) (hqueue : r.code.blockingQueue = m :: queue)
    : r.step .turn
      = if pf m.event then
          some { r.handle pf m with
            code := { r.code with blockingQueue := queue }
            taken := r.taken ++ [m] }
        else
          some { r with
            code := { blockingQueue := queue, stash := r.code.stash ++ [m] }
            taken := r.taken ++ [m] } := by
  cases hpf : pf m.event with
  | true => simp [Run.step, StashedReceive.turn, receive, hwaiting, hqueue, hpf]
  | false => simp [Run.step, StashedReceive.turn, receive, stashForLater, hwaiting, hqueue, hpf]

theorem Inv.turn (h : Inv r) (hst : r.step .turn = some r') : Inv r' := by
  cases hwaiting : r.waiting with
  | none => simp [Run.step, hwaiting] at hst
  | some pf =>
    cases hqueue : r.code.blockingQueue with
    | nil => simp [Run.step, StashedReceive.turn, receive, hwaiting, hqueue] at hst
    | cons m queue =>
      have hfifo := h.fifo
      rw [hqueue, List.append_cons] at hfifo
      have hm : m ∈ r.code.blockingQueue := by
        rw [hqueue]
        exact List.mem_cons_self
      have hbehind : ∀ o, o ∈ queue → m.arrival < o.arrival := by
        have hsorted := h.arrived_sorted
        rw [hqueue, List.pairwise_append, List.pairwise_cons] at hsorted
        exact hsorted.2.1.1
      rw [step_turn hwaiting hqueue] at hst
      split at hst
      . next hpf =>
        cases hst
        refine ⟨hfifo, h.numbered, ?_, h.sorted, by simp [Run.handle], ?_⟩
        . simp only [Run.handle, List.map_append, List.map_cons, List.map_nil, List.append_assoc]
          apply (List.perm_append_comm.append_left _).trans
          rw [← List.append_assoc]
          exact h.conserved.append_right [m]
        . intro x hx
          simp only [Run.handle, List.mem_append, List.mem_singleton] at hx
          rcases hx with hx | rfl
          . exact h.earliest x hx
          . refine ⟨h.mem_unhandled.mpr (.inr hm), hpf, ?_⟩
            intro o ho hpfo
            cases h.mem_unhandled.mp ho with
            | inl ho =>
              have := h.waiting pf hwaiting o ho
              dsimp only at hpfo
              simp [hpfo] at this
            | inr ho =>
              rw [hqueue, List.mem_cons] at ho
              rcases ho with rfl | ho
              . exact Nat.le_refl _
              . exact Nat.le_of_lt (hbehind o ho)
      . next hpf =>
        cases hst
        refine ⟨hfifo, h.numbered, ?_, ?_, ?_, h.earliest⟩
        . rw [← List.append_assoc]
          exact h.conserved.append_right [m]
        . rw [List.pairwise_append]
          refine ⟨h.sorted, List.pairwise_singleton _ _, ?_⟩
          intro a ha b hb
          rw [List.mem_singleton] at hb
          rw [hb]
          exact h.stash_lt_queue ha hm
        . intro pf' hpf' o ho
          rw [hwaiting, Option.some.injEq] at hpf'
          subst hpf'
          rw [List.mem_append, List.mem_singleton] at ho
          rcases ho with ho | rfl
          . exact h.waiting pf hwaiting o ho
          . simpa using hpf

theorem exact_of_reach [ReflBEq E]
    (h : (Run.lts E).Reach (fun r a _ => ∀ pf, a = .call pf → FirstIsAlone r.code.stash pf) r)
    : Exact r := by
  apply Inv.exact
  apply LTS.Reach.invariant (I := Inv) _ _ h
  . rintro r rfl
    exact Inv.init
  . intro r a r' _ hinv hst halone
    cases a with
    | deliver e => exact hinv.deliver e hst
    | call pf => exact hinv.call pf (halone pf rfl) hst
    | turn => exact hinv.turn hst

theorem not_exact_of_not_alone [ReflBEq E] {pf : E → Bool} (h : Exact r)
    (hst : r.step (.call pf) = some r') (htwin : ¬ FirstIsAlone r.code.stash pf)
    : ¬ Exact r' := by
  intro h'
  unfold FirstIsAlone at htwin
  push Not at htwin
  obtain ⟨m, hfind, hcount⟩ := htwin
  rw [Option.mem_def] at hfind
  have hm := List.mem_of_find?_eq_some hfind
  have hpos : 0 < r.code.stash.countP (· == m) :=
    List.countP_pos_iff.mpr ⟨m, hm, BEq.rfl (a := m.event)⟩
  have hsplit := (List.filter_append_perm (· == m) r.code.stash).length_eq
  rw [List.length_append, ← List.countP_eq_length_filter] at hsplit
  unfold Run.step receiveOrStash at hst
  dsimp only at hst
  rw [hfind] at hst
  split at hst
  . simp at hst
  . cases hst
    have hlength := h.conserved.length_eq
    have hlength' := h'.conserved.length_eq
    simp only [Run.handle, List.length_append, List.length_map, List.length_singleton] at hlength hlength'
    omega

theorem exact_reordered
    : ∃ r : Run Nat, r.handled.map (fun x => x.occ.event) = [3, 1]
        ∧ r.code.stash.map Occurrence.event = [2] ∧ Exact r := by
  let ok : Run Nat → Action Nat → Run Nat → Prop :=
    fun r a _ => ∀ pf, a = .call pf → FirstIsAlone r.code.stash pf
  have h0 : (Run.lts Nat).Reach ok {} := .init rfl
  have h1 := h0.next (.deliver 1) rfl nofun
  have h2 := h1.next (.deliver 2) rfl nofun
  have h3 := h2.next (.deliver 3) rfl nofun
  have h4 := h3.next (.call (· == 3)) rfl (by rintro pf ⟨⟩; decide)
  have h5 := h4.next .turn rfl nofun
  have h6 := h5.next .turn rfl nofun
  have h7 := h6.next .turn rfl nofun
  have h8 := h7.next (.call (· == 1)) rfl (by rintro pf ⟨⟩; decide)
  exact ⟨_, by decide, by decide, exact_of_reach h8⟩

theorem not_exact_equal_events : ¬ ∀ r : Run Nat, (Run.lts Nat).Reachable r → Exact r := by
  intro hall
  have h0 : (Run.lts Nat).Reachable {} := .init rfl
  have h1 := h0.next (.deliver 1) rfl trivial
  have h2 := h1.next (.deliver 1) rfl trivial
  have h3 := h2.next (.deliver 2) rfl trivial
  have h4 := h3.next (.call (· == 2)) rfl trivial
  have h5 := h4.next .turn rfl trivial
  have h6 := h5.next .turn rfl trivial
  have h7 := h6.next .turn rfl trivial
  have h8 := h7.next (.call (· == 1)) rfl trivial
  have hlength := (hall _ h8).conserved.length_eq
  revert hlength
  decide

end StashedReceive
