import ScalaNeko.Lib.MachineInt
import ScalaNeko.Protocol.Lemmas.LogicalClock

/-!
Vector clocks characterise causality, as long as no component overflows.
-/

open AsyncNetwork
open Causality (EventId History vectorScheme)
open LogicalClock

namespace VectorClock

variable {N : Nat} {S M : Type}

abbrev Run (N : Nat) (M : Type) :=
  World (PID N) (Node N (VectorClock N) (PID N → Int64)) (Sent N (VCTimeStamped N M))

theorem represents
    : Represents (protocol N S M) (vectorScheme (PID N)) (fun t v => ∀ j, (t j).toInt = v j)
        (fun v => ∀ j, v j < 2 ^ 63) := by
  have hone : (1 : Int64).toInt = 1 := rfl
  have htick : ∀ (p : PID N) (vec : PID N → Int64) (v : PID N → Nat), (∀ j, (vec j).toInt = v j) →
      (∀ j, (vectorScheme (PID N)).tick p v j < 2 ^ 63) →
      ∀ j, (increment p vec j).toInt = (vectorScheme (PID N)).tick p v j := by
    intro p vec v hv hfits j
    specialize hfits j
    specialize hv j
    by_cases hj : j = p
    . subst hj
      simp only [vectorScheme, Function.update_self] at hfits
      simp only [increment, ↓reduceIte, vectorScheme, Function.update_self]
      rw [Int64.toInt_add_of_range] <;> omega
    . simpa [increment, vectorScheme, hj] using hv
  constructor
  . intro j
    rfl
  . intro p clock v hv hfits
    exact htick p clock.vc v hv hfits
  . intro p clock e v hv hfits
    cases e with
    | signal => exact htick p clock.vc v hv hfits
    | message => exact htick p clock.vc v hv hfits
  . intro p clock e w hw
    cases e with
    | signal => simp [protocol, onSend] at hw
    | message =>
      simp only [protocol, onSend, List.mem_singleton, Event.message.injEq] at hw
      rw [hw]
      rfl
  . intro p clock e v ts hv hts hfits j
    dsimp only [protocol, time, onReceive, updateClock, combine] at *
    have hself : ∀ j, (vectorScheme (PID N)).tick p v j < 2 ^ 63 := by
      intro j
      exact Nat.lt_of_le_of_lt (Nat.le_max_left _ _) (hfits j)
    rw [Int64.toInt_max, htick p clock.vc v hv hself, hts]
    have hmerge : (vectorScheme (PID N)).merge p v ts j
        = max ((vectorScheme (PID N)).tick p v j) (ts j) := rfl
    omega

/--
What vector clocks are for: the components count the causal past, and the order on the times is
causality.
-/
structure CharacterisesCausality (w : Run N M) : Prop where
  counts : ∀ e, e ∈ (history w).events → ∀ j, ∃ t, timeOf w e = some t
    ∧ (t j).toInt = { d : EventId (PID N) | d.proc = j ∧ (history w).CausalPast d e }.ncard
  order : ∀ d e, d ∈ (history w).events → e ∈ (history w).events → d ≠ e →
    ∃ t t', timeOf w d = some t ∧ timeOf w e = some t'
      ∧ ((∀ j, t j ≤ t' j) ↔ (history w).HappensBefore d e)

def FewEvents (w : Run N M) : Prop := ∀ p, (w.node p).log.length < 2 ^ 63

instance (w : Run N M) : Decidable (FewEvents w) :=
  inferInstanceAs (Decidable (∀ p, (w.node p).log.length < 2 ^ 63))

theorem exists_linked [Message N M] {w : Run N M}
    (h : (protocol N S M).program.lts.Reach (fun _ _ w => FewEvents w) w)
    : ∃ cur stamp, Linked (protocol N S M) (vectorScheme (PID N))
        (fun t v => ∀ j, (t j).toInt = v j) w cur stamp := by
  apply LTS.Reach.invariant _ _ h
  . intro w hw
    rw [hw]
    exact ⟨_, _, Linked.init represents⟩
  . rintro w l w' - ⟨cur, stamp, hl⟩ hst hfew
    obtain ⟨p, src, hsrc, hhist, hlinked⟩ := hl.step represents hst
    refine ⟨_, _, hlinked ?_⟩
    -- a component never exceeds the number of events of its process
    intro j
    have hcomp := hl.comp.event (p := p) hsrc
    have hle := (Causality.vectorInv_of_computation hcomp).stamp_self_le (p := j) hcomp
      (History.mem_events_snoc.mpr (.inr rfl))
    rw [Function.update_self, ← hhist] at hle
    exact Nat.lt_of_le_of_lt hle (hfew j)

theorem characterisesCausality [Message N M] {w : Run N M}
    (h : (protocol N S M).program.lts.Reach (fun _ _ w => FewEvents w) w)
    : CharacterisesCausality w := by
  obtain ⟨cur, stamp, hl⟩ := exists_linked h
  constructor
  . intro e he j
    obtain ⟨t, ht, hrep⟩ := hl.times e he
    refine ⟨t, ht, ?_⟩
    rw [hrep j, Causality.ncard_causalPast hl.comp he]
  . intro d e hd he hne
    obtain ⟨t, ht, hrep⟩ := hl.times d hd
    obtain ⟨t', ht', hrep'⟩ := hl.times e he
    refine ⟨t, t', ht, ht', ?_⟩
    rw [← Causality.stamp_le_iff_happensBefore hl.comp hd he hne]
    apply forall_congr'
    intro j
    rw [Int64.le_iff_toInt_le, hrep j, hrep' j]
    exact Int.ofNat_le

theorem characterisesCausality_relay
    : ∃ w : Run 2 (AppMessage 2 Unit), timeOf w ⟨1, 0⟩ = some (fun _ => 1)
        ∧ CharacterisesCausality w := by
  let C := protocol 2 Unit (AppMessage 2 Unit)
  have h0 : C.program.lts.Reach (fun _ _ w => FewEvents w) C.program.initWorld := .init rfl
  have h1 := Program.Reach.input h0 0 (.send (.message (.unicast 0 1 ()))) rfl (by decide)
  have h2 := Program.Reach.receive h1 1
    ⟨⟨.unicast 0 1 (), increment 0 (fun _ => 0)⟩, ⟨0, 0⟩⟩ () 0 rfl rfl (by decide)
  exact ⟨_, by decide, characterisesCausality h2⟩

def internalRun (n : Nat) : Run 1 (AppMessage 1 Unit) where
  node := fun _ =>
    { clock := { vc := fun _ => Int64.ofNat n }
      log := List.replicate n none
      times := (List.range n).map (fun i _ => Int64.ofNat (i + 1)) }
  net := 0

theorem mem_events_internalRun {n i : Nat} (h : i < n)
    : (⟨0, i⟩ : EventId (PID 1)) ∈ (history (internalRun n)).events := by
  simpa [History.mk_mem_events, history, internalRun] using h

theorem timeOf_internalRun {n i : Nat} (h : i < n)
    : timeOf (internalRun n) ⟨0, i⟩ = some (fun _ => Int64.ofNat (i + 1)) := by
  simp [timeOf, internalRun, h]

theorem internalRun_reachable (n : Nat)
    : (protocol 1 Unit (AppMessage 1 Unit)).program.lts.Reachable (internalRun n) := by
  induction n with
  | zero => exact .init rfl
  | succ n ih =>
    have hnext := Program.Reach.input ih 0 .internal rfl trivial
    convert hnext using 1
    simp only [internalRun, World.mk.injEq]
    refine ⟨?_, rfl⟩
    funext p
    rw [Subsingleton.elim p 0, Function.update_self]
    have hvec : increment (0 : PID 1) (fun _ => Int64.ofNat n) = fun _ => Int64.ofNat (n + 1) := by
      funext i
      rw [Subsingleton.elim i 0, increment, if_pos rfl, Int64.ofNat_add]
      rfl
    have hclock : internal (0 : PID 1) { vc := fun _ => Int64.ofNat n }
        = { vc := fun _ => Int64.ofNat (n + 1) } := by
      rw [internal, updateClock, hvec]
    simp [Node.record, protocol, time, hclock, List.range_succ, List.replicate_succ']

theorem not_characterisesCausality_of_overflow
    : ¬ ∀ w : Run 1 (AppMessage 1 Unit),
        (protocol 1 Unit (AppMessage 1 Unit)).program.lts.Reachable w → CharacterisesCausality w := by
  intro hall
  have hchar := hall _ (internalRun_reachable (2 ^ 63))
  have hlt : 2 ^ 63 - 1 < 2 ^ 63 := by omega
  obtain ⟨t, ht, hcount⟩ := hchar.counts _ (mem_events_internalRun hlt) 0
  rw [timeOf_internalRun hlt, Option.some.injEq] at ht
  subst ht
  dsimp only at hcount
  have hneg : (Int64.ofNat (2 ^ 63 - 1 + 1)).toInt = - 2 ^ 63 := by decide
  omega

end VectorClock
