import ScalaNeko.Lib.MachineInt
import ScalaNeko.Protocol.Lemmas.LogicalClock

/-!
Lamport clocks measure causal depth.
-/

open AsyncNetwork
open Causality (EventId History scalarScheme)
open LogicalClock

namespace LamportClock

variable {N : Nat} {S M : Type}

@[simp]
theorem update_lc (clock : LamportClock) (f : Int64 → Int64)
    : (clock.update f).lc = if f clock.lc > clock.lc then f clock.lc else clock.lc := by
  unfold update
  dsimp only
  split <;> rfl

theorem represents
    : Represents (protocol N S M) (scalarScheme (PID N)) (fun t n => t.toInt = n)
        (fun n => n < 2 ^ 63) := by
  have hone : (1 : Int64).toInt = 1 := rfl
  have htick : ∀ (clock : LamportClock) (n : Nat), clock.lc.toInt = n → n + 1 < 2 ^ 63 →
      (clock.update (fun l => l + 1)).lc.toInt = (n + 1 : Nat) := by
    intro clock n hn hlt
    have hadd : (clock.lc + 1).toInt = clock.lc.toInt + 1 := by
      rw [Int64.toInt_add_of_range] <;> omega
    rw [update_lc, if_pos]
    . omega
    . rw [gt_iff_lt, Int64.lt_iff_toInt_lt]
      omega
  constructor
  . rfl
  . intro p clock n hn hlt
    exact htick clock n hn hlt
  . intro p clock e n hn hlt
    cases e with
    | signal => exact htick clock n hn hlt
    | message => exact htick clock n hn hlt
  . intro p clock e w hw
    cases e with
    | signal => simp [protocol, onSend] at hw
    | message =>
      simp only [protocol, onSend, List.mem_singleton, Event.message.injEq] at hw
      rw [hw]
      rfl
  . intro p clock e n ts hn hts hlt
    dsimp only [protocol, time, onReceive, scalarScheme] at *
    have hmax := Int64.toInt_max clock.lc e.ts
    have hadd : (1 + max clock.lc e.ts).toInt = 1 + (max clock.lc e.ts).toInt := by
      rw [Int64.toInt_add_of_range] <;> omega
    rw [update_lc, if_pos]
    . omega
    . rw [gt_iff_lt, Int64.lt_iff_toInt_lt]
      omega

def BelowMaxValue (w : World (PID N) (Node N LamportClock Int64) (Sent N (LCTimeStamped M))) : Prop :=
  ∀ p, (w.node p).clock.lc < Int64.maxValue

instance (w : World (PID N) (Node N LamportClock Int64) (Sent N (LCTimeStamped M)))
    : Decidable (BelowMaxValue w) :=
  inferInstanceAs (Decidable (∀ p, (w.node p).clock.lc < Int64.maxValue))

theorem exists_linked [Message N M]
    {w : World (PID N) (Node N LamportClock Int64) (Sent N (LCTimeStamped M))}
    (h : (protocol N S M).program.lts.Reach (fun w _ _ => BelowMaxValue w) w)
    : ∃ cur stamp, Linked (protocol N S M) (scalarScheme (PID N)) (fun t n => t.toInt = n) w cur stamp := by
  apply LTS.Reach.invariant _ _ h
  . intro w hw
    rw [hw]
    exact ⟨_, _, Linked.init represents⟩
  . rintro w l w' - ⟨cur, stamp, hl⟩ hst hok
    obtain ⟨p, src, hsrc, -, hlinked⟩ := hl.step represents hst
    refine ⟨_, _, hlinked ?_⟩
    -- a clock and a timestamp below the maximum leave room for one more
    have hcur : ∀ q, cur q + 1 < 2 ^ 63 := by
      intro q
      have hlt := hok q
      have hrep : (w.node q).clock.lc.toInt = cur q := hl.clock q
      rw [Int64.lt_iff_toInt_lt, Int64.toInt_maxValue] at hlt
      omega
    cases src with
    | none => exact hcur p
    | some d =>
      have hp := hcur p
      have hd := hcur d.proc
      have hle := Causality.stamp_le_cur hl.comp (hsrc d rfl)
      simp only [Causality.Scheme.advance, scalarScheme]
      omega

/--
The time of every event is the length of the longest chain of events that ends in it. The times are
below that of later events, and every message carries the time of the event that sent it.
-/
theorem time_isGreatest_chain [Message N M]
    {w : World (PID N) (Node N LamportClock Int64) (Sent N (LCTimeStamped M))}
    (h : (protocol N S M).program.lts.Reach (fun w _ _ => BelowMaxValue w) w)
    : (∀ e, e ∈ (history w).events →
        ∃ t : Int64, ∃ n : Nat, timeOf w e = some t ∧ t.toInt = n
          ∧ IsGreatest { k | (history w).Chain e k } n)
      ∧ (∀ d e, e ∈ (history w).events → (history w).HappensBefore d e →
        ∃ t t', timeOf w d = some t ∧ timeOf w e = some t' ∧ t < t')
      ∧ (∀ env, env ∈ w.net → env.msg.sentBy ∈ (history w).events
        ∧ timeOf w env.msg.sentBy = some env.msg.wrapped.ts) := by
  obtain ⟨cur, stamp, hl⟩ := exists_linked h
  refine ⟨?_, ?_, hl.net⟩
  . intro e he
    obtain ⟨t, ht, hrep⟩ := hl.times e he
    exact ⟨t, stamp e, ht, hrep, Causality.isGreatest_chain hl.comp he⟩
  . intro d e he hb
    have hd := hl.comp.closed.mem_of_causalPast he (History.causalPast_iff.mpr (.inr hb))
    obtain ⟨t, ht, hrep⟩ := hl.times d hd
    obtain ⟨t', ht', hrep'⟩ := hl.times e he
    refine ⟨t, t', ht, ht', ?_⟩
    have hlt := Causality.stamp_lt_of_happensBefore hl.comp he hb
    rw [Int64.lt_iff_toInt_lt]
    omega

theorem time_isGreatest_chain_relay
    : ∃ w : World (PID 2) (Node 2 LamportClock Int64) (Sent 2 (LCTimeStamped (AppMessage 2 Unit))),
        (⟨1, 0⟩ : EventId (PID 2)) ∈ (history w).events ∧ timeOf w ⟨1, 0⟩ = some 2
          ∧ IsGreatest { k | (history w).Chain ⟨1, 0⟩ k } 2 := by
  let C := protocol 2 Unit (AppMessage 2 Unit)
  have h0 : C.program.lts.Reach (fun w _ _ => BelowMaxValue w) C.program.initWorld := .init rfl
  have h1 := Program.Reach.input h0 0 (.send (.message (.unicast 0 1 ()))) rfl (by decide)
  have h2 := Program.Reach.receive h1 1 ⟨⟨.unicast 0 1 (), 1⟩, ⟨0, 0⟩⟩ () 0 rfl rfl (by decide)
  obtain ⟨t, n, ht, hn, hgreatest⟩ := (time_isGreatest_chain h2).1 ⟨1, 0⟩ (by decide)
  have htime : t = 2 := Option.some.inj (ht.symm.trans rfl)
  subst htime
  have hn : 2 = n := Int.ofNat.inj hn
  subst hn
  exact ⟨_, by decide, ht, hgreatest⟩

end LamportClock
