import ScalaNeko.Lib.Causality.Clock
import ScalaNeko.Network.Lemmas
import ScalaNeko.Protocol.Impl.LogicalClock

/-!
A clock protocol that represents a scheme of logical time assigns to the events of a run the values
that the scheme assigns to them.
-/

open AsyncNetwork
open Causality (EventId History Scheme)

namespace LogicalClock

variable {N : Nat} {S M W σ T τ : Type}

/--
The operations of `C` compute those of `R` under the representation `rep`, as long as the values fit
into the machine integers of `C`.
-/
structure Represents (C : LogicalClock N S M W σ T) (R : Scheme (PID N) τ) (rep : T → τ → Prop)
    (fits : τ → Prop)
    : Prop where
  init : rep (C.time C.init) R.zero
  internal : ∀ p s t, rep (C.time s) t → fits (R.tick p t) →
    rep (C.time (C.internal p s)) (R.tick p t)
  onSend : ∀ p s e t, rep (C.time s) t → fits (R.tick p t) →
    rep (C.time (C.onSend p s e).1) (R.tick p t)
  timestamp : ∀ p s e w, .message w ∈ (C.onSend p s e).2 →
    C.timestamp w = C.time (C.onSend p s e).1
  onReceive : ∀ p s w t ts, rep (C.time s) t → rep (C.timestamp w) ts → fits (R.merge p t ts) →
    rep (C.time (C.onReceive p s w).1) (R.merge p t ts)

structure Linked (C : LogicalClock N S M W σ T) (R : Scheme (PID N) τ) (rep : T → τ → Prop)
    (w : World (PID N) (Node N σ T) (Sent N W)) (cur : PID N → τ) (stamp : EventId (PID N) → τ)
    : Prop where
  comp : R.Computation (history w) cur stamp
  clock : ∀ p, rep (C.time (w.node p).clock) (cur p)
  length : ∀ p, (w.node p).times.length = (w.node p).log.length
  times : ∀ e, e ∈ (history w).events → ∃ t, timeOf w e = some t ∧ rep t (stamp e)
  net : ∀ env, env ∈ w.net → env.msg.sentBy ∈ (history w).events
    ∧ timeOf w env.msg.sentBy = some (C.timestamp env.msg.wrapped)

variable {C : LogicalClock N S M W σ T} {R : Scheme (PID N) τ} {rep : T → τ → Prop}
  {fits : τ → Prop} {w w' : World (PID N) (Node N σ T) (Sent N W)} {cur : PID N → τ}
  {stamp : EventId (PID N) → τ}

theorem Linked.init [Message N W] (hrep : Represents C R rep fits)
    : Linked C R rep C.program.initWorld (fun _ => R.zero) (fun _ => R.zero) where
  comp := .empty
  clock := fun _ => hrep.init
  length := fun _ => rfl
  times := by
    intro e he
    simp [History.mem_events, history, Program.initWorld, program] at he
  net := by
    intro env henv
    simp [Program.initWorld] at henv

theorem history_record {p : PID N} {clock : σ} {src : Option (EventId (PID N))}
    (hnode : w'.node = Function.update w.node p ((w.node p).record C clock src))
    : history w' = (history w).snoc p src := by
  funext q
  by_cases hq : q = p
  . subst hq
    simp [history, hnode, Node.record, History.snoc]
  . simp [history, hnode, History.snoc, Function.update_of_ne hq]

theorem Linked.record {p : PID N} {clock : σ} {src : Option (EventId (PID N))}
    (hl : Linked C R rep w cur stamp)
    (hnode : w'.node = Function.update w.node p ((w.node p).record C clock src))
    (hsrc : ∀ d, src = some d → d ∈ (history w).events)
    (hclock : rep (C.time clock) (R.advance p (cur p) stamp src))
    (hnet : ∀ env, env ∈ w'.net → env ∈ w.net
      ∨ (env.msg.sentBy = (history w).next p ∧ C.timestamp env.msg.wrapped = C.time clock))
    : Linked C R rep w' (Function.update cur p (R.advance p (cur p) stamp src))
        (Function.update stamp ((history w).next p) (R.advance p (cur p) stamp src)) := by
  have hhist := history_record hnode
  have hold : ∀ e, e ∈ (history w).events → timeOf w' e = timeOf w e := by
    rintro ⟨q, i⟩ he
    rw [History.mk_mem_events] at he
    simp only [timeOf, hnode]
    by_cases hq : q = p
    . subst hq
      rw [Function.update_self, Node.record]
      apply List.getElem?_append_left
      rw [hl.length]
      exact he
    . rw [Function.update_of_ne hq]
  have hnew : timeOf w' ((history w).next p) = some (C.time clock) := by
    simp only [timeOf, hnode, History.next, history, Function.update_self, Node.record]
    rw [← hl.length p]
    simp
  constructor
  . rw [hhist]
    exact .event hl.comp hsrc
  . intro q
    by_cases hq : q = p
    . subst hq
      simpa [hnode, Node.record] using hclock
    . simp only [hnode, Function.update_of_ne hq]
      exact hl.clock q
  . intro q
    by_cases hq : q = p
    . subst hq
      simp [hnode, Node.record, hl.length q]
    . simp only [hnode, Function.update_of_ne hq]
      exact hl.length q
  . intro e he
    rw [hhist, History.mem_events_snoc] at he
    cases he with
    | inl he =>
      rw [hold e he, Function.update_of_ne (History.ne_next_of_mem he p)]
      exact hl.times e he
    | inr he =>
      subst he
      rw [hnew, Function.update_self]
      exact ⟨_, rfl, hclock⟩
  . intro env henv
    rw [hhist, History.mem_events_snoc]
    rcases hnet env henv with hmem | ⟨hsent, hts⟩
    . obtain ⟨he, htime⟩ := hl.net env hmem
      rw [hold _ he]
      exact ⟨.inl he, htime⟩
    . rw [hsent, hnew, hts]
      exact ⟨.inr rfl, rfl⟩

theorem mem_transmit [Message N W] {sentBy : EventId (PID N)} {e : Event S W}
    {env : Envelope (PID N) (Sent N W)} (h : env ∈ transmit sentBy e)
    : env.msg.sentBy = sentBy ∧ e = .message env.msg.wrapped := by
  cases e with
  | signal => simp [transmit] at h
  | message m =>
    simp only [transmit, List.mem_map, mem_fanOut] at h
    obtain ⟨e, ⟨-, he⟩, rfl⟩ := h
    simp [he]

theorem Linked.step [Message N W] {l : Label (PID N) (Input S M) Unit (Sent N W)}
    (hrep : Represents C R rep fits) (hl : Linked C R rep w cur stamp)
    (hst : C.program.Step w l w')
    : ∃ p src, (∀ d, src = some d → d ∈ (history w).events)
        ∧ history w' = (history w).snoc p src
        ∧ (fits (R.advance p (cur p) stamp src) →
            Linked C R rep w' (Function.update cur p (R.advance p (cur p) stamp src))
              (Function.update stamp ((history w).next p) (R.advance p (cur p) stamp src))) := by
  cases hst with
  | @input p i s out h =>
    cases i with
    | internal =>
      simp only [program, Option.some.injEq, Prod.mk.injEq] at h
      obtain ⟨rfl, rfl⟩ := h
      refine ⟨p, none, by simp, history_record rfl, ?_⟩
      intro hfits
      apply hl.record rfl
      . simp
      . exact hrep.internal p _ _ (hl.clock p) hfits
      . intro env henv
        left
        simpa using henv
    | send e =>
      simp only [program, Option.some.injEq, Prod.mk.injEq] at h
      obtain ⟨rfl, rfl⟩ := h
      refine ⟨p, none, by simp, history_record rfl, ?_⟩
      intro hfits
      apply hl.record rfl
      . simp
      . exact hrep.onSend p _ e _ (hl.clock p) hfits
      . intro env henv
        simp only [Multiset.mem_add, Multiset.mem_coe, List.mem_flatMap] at henv
        rcases henv with ⟨ev, hev, hmem⟩ | hmem
        . right
          obtain ⟨hsent, hmsg⟩ := mem_transmit hmem
          rw [hmsg] at hev
          exact ⟨hsent, hrep.timestamp p _ e _ hev⟩
        . exact .inl hmem
  | @receive p m k s out rest hnet h =>
    simp only [program, Option.some.injEq, Prod.mk.injEq] at h
    obtain ⟨rfl, rfl⟩ := h
    obtain ⟨hmem, htime⟩ := hl.net ⟨p, m⟩ (by simp [hnet])
    have hsrc : ∀ d, some m.sentBy = some d → d ∈ (history w).events := by
      intro d hd
      cases hd
      exact hmem
    refine ⟨p, some m.sentBy, hsrc, history_record rfl, ?_⟩
    intro hfits
    apply hl.record rfl hsrc
    . obtain ⟨t, ht, hrept⟩ := hl.times _ hmem
      rw [htime, Option.some.injEq] at ht
      rw [← ht] at hrept
      exact hrep.onReceive p _ m.wrapped _ _ (hl.clock p) hrept hfits
    . intro env henv
      left
      rw [hnet]
      apply Multiset.mem_cons_of_mem
      simpa using henv

end LogicalClock
