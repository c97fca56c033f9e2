import ScalaNeko.NekoSimSystem.Lemmas
import ScalaNeko.Protocol.Impl.SafraStack
import ScalaNeko.Protocol.Lemmas.SafraDetection

/-!
Simulated systems that use Safra's detection: every process is delivered `Terminate` once, as the last
thing at all, unless the simulation ends with a process that is still active.
-/

open AsyncNetwork
open DelaySimNetwork (Job Sent)
open Kernel (Stamped TaskID Time)
open NekoSimSystem (Meets Regular DelaysWithin Idle)

namespace SafraTerminationDetection

variable {N : Nat} {S M : Type}

abbrev PartyRun (N : Nat) (S M : Type) := World (PID N) (Party S M) (SafraMessage N M)

def withoutClients (w : PartyRun N S M) : Run N M where
  node := fun p => (w.node p).node
  net := w.net

def isTerminate : Event (TerminationSignal S) M → Bool
  | .signal .terminate => true
  | _ => false

theorem isTerminate_iff {e : Event (TerminationSignal S) M}
    : isTerminate e = true ↔ e = .signal .terminate := by
  cases e with
  | signal ie =>
    cases ie with
    | terminate => exact ⟨fun _ => rfl, fun _ => rfl⟩
    | initiate | becomePassive | other => exact ⟨by rintro ⟨⟩, by rintro ⟨⟩⟩
  | message m => exact ⟨by rintro ⟨⟩, by rintro ⟨⟩⟩

-- What the client of the process is delivered.
def deliveries : Action (PID N) (Event (TerminationSignal S) M) Unit (SafraMessage N M) →
    List (Event (TerminationSignal S) M)
  | .input _ _ => []
  | .receive _ (.payload m) _ => [.message m]
  | .receive _ (.announce _ _) _ => [.signal .terminate]
  | .receive _ (.tokenHolder _ _ _) _ => []

section Process

variable [NeZero N]

theorem transmitToken_delivers (me : PID N) (s : SafraTerminationDetection) (token : Option Token)
    : (transmitToken me s token : SafraTerminationDetection × Effects N S M).2.delivers = [] := by
  cases token with
  | none => rfl
  | some tok => rw [transmitToken_some]

theorem onReceive_delivers (me : PID N) (s : SafraTerminationDetection) (m : SafraMessage N M) (k : Unit)
    : (s.onReceive (S := S) me m).2.delivers = deliveries (.receive me m k) := by
  cases m with
  | payload m => rfl
  | announce q dests => rfl
  | tokenHolder q dest tok =>
    simp only [onReceive, deliveries]
    split
    . rfl
    . split
      . rfl
      . exact transmitToken_delivers me s (some tok)

variable [Message N M]

theorem onSend_delivers {me : PID N} {s s' : SafraTerminationDetection}
    {e : Event (TerminationSignal S) M} {effects : Effects N S M} (h : s.onSend me e = some (s', effects))
    : effects.delivers = [] := by
  cases e with
  | message m =>
    simp only [onSend] at h
    split at h
    . cases h
      rfl
    . cases h
  | signal ie =>
    cases ie with
    | initiate =>
      cases h
      rfl
    | becomePassive =>
      simp only [onSend] at h
      split at h
      . rw [Option.some.injEq] at h
        have hdelivers := transmitToken_delivers (S := S) (M := M) me { s with state := .passive } s.token
        rw [h] at hdelivers
        exact hdelivers
      . cases h
    | terminate | other =>
      simp only [onSend] at h
      split at h
      . cases h
        rfl
      . cases h

variable {w w' : PartyRun N S M}
  {a : Action (PID N) (Event (TerminationSignal S) M) Unit (SafraMessage N M)}
  {out : List (Envelope (PID N) (SafraMessage N M))}

theorem process_exec {party party' : Party S M}
    (h : (process.program transmit).exec a party = some (party', out))
    : (program (S := S)).exec a party.node = some (party'.node, out)
        ∧ party'.delivered = party.delivered ++ deliveries a := by
  cases a with
  | input p e =>
    simp only [Program.exec, NekoProcess.program, process, Option.bind_eq_bind, Option.pure_def,
      Option.map_eq_some_iff, Option.bind_eq_some_iff, Option.some.injEq, Prod.exists,
      Prod.mk.injEq] at h
    obtain ⟨_, _, ⟨safra, effects, hsend, rfl, rfl⟩, rfl, rfl⟩ := h
    constructor
    . simp only [Program.exec, program, hsend]
      rfl
    . rw [onSend_delivers hsend]
      rfl
  | receive p m k =>
    simp only [Program.exec, NekoProcess.program, process, Option.map_some, Option.some.injEq,
      Prod.mk.injEq] at h
    obtain ⟨rfl, rfl⟩ := h
    exact ⟨rfl, congrArg _ (onReceive_delivers p party.node.safra m k)⟩

theorem withoutClients_init
    : withoutClients (process (S := S) (M := M) (N := N).program transmit).initWorld
      = (program (S := S)).initWorld :=
  rfl

/--
The clients do not change what happens, and are delivered what the receptions give them.
-/
theorem withoutClients_step (h : (process.program transmit).Step w ⟨a, out⟩ w')
    : (program (S := S)).Step (withoutClients w) ⟨a, out⟩ (withoutClients w')
        ∧ (w'.node a.proc).delivered = (w.node a.proc).delivered ++ deliveries a
        ∧ ∀ p, p ≠ a.proc → (w'.node p).delivered = (w.node p).delivered := by
  have hnode : ∀ (p : PID N) (party : Party S M),
      (fun q => (Function.update w.node p party q).node)
        = Function.update (fun q => (w.node q).node) p party.node := by
    intro p party
    funext q
    by_cases hq : q = p
    . subst hq
      rw [Function.update_self, Function.update_self]
    . rw [Function.update_of_ne hq, Function.update_of_ne hq]
  cases h with
  | @input p e party _ hinput =>
    obtain ⟨hexec, hdelivered⟩ := process_exec (a := .input p e) hinput
    refine ⟨?_, ?_, ?_⟩
    . unfold withoutClients
      dsimp only
      rw [hnode]
      exact .input hexec
    . dsimp only [Action.proc]
      rw [Function.update_self, hdelivered]
    . intro q hq
      exact congrArg Party.delivered (Function.update_of_ne hq _ _)
  | @receive p m k party _ rest hnet hreceive =>
    obtain ⟨hexec, hdelivered⟩ := process_exec (a := .receive p m k) hreceive
    refine ⟨?_, ?_, ?_⟩
    . unfold withoutClients
      dsimp only
      rw [hnode]
      exact .receive hnet hexec
    . dsimp only [Action.proc]
      rw [Function.update_self, hdelivered]
    . intro q hq
      exact congrArg Party.delivered (Function.update_of_ne hq _ _)

end Process

section Told

def told (w : PartyRun N S M) (p : PID N) : Nat := (w.node p).delivered.countP isTerminate

def announcesTo (net : Multiset (Envelope (PID N) (SafraMessage N M))) (p : PID N) : Nat :=
  (undelivered net p).countP (fun m => m.isAnnounce)

/--
What the clients know of the detection.
-/
inductive Told [NeZero N] (w : PartyRun N S M) : Prop where
  | before : TokenKept (withoutClients w) → (∀ p, told w p = 0) → Told w
  | after : Terminated (withoutClients w) → (∀ p, told w p + announcesTo w.net p = 1) →
      (∀ p, told w p = 0 ∨ ∃ early, (w.node p).delivered = early ++ [.signal .terminate]) → Told w

theorem announcesTo_add {net net' : Multiset (Envelope (PID N) (SafraMessage N M))} (p : PID N)
    : announcesTo (net + net') p = announcesTo net p + announcesTo net' p := by
  unfold announcesTo
  rw [undelivered_add, Multiset.countP_add]

theorem announcesTo_eq_zero {net : Multiset (Envelope (PID N) (SafraMessage N M))}
    (h : ∀ env, env ∈ net → ¬ env.msg.isAnnounce) (p : PID N)
    : announcesTo net p = 0 := by
  unfold announcesTo undelivered
  rw [Multiset.countP_eq_zero]
  intro m hm
  obtain ⟨env, henv, rfl⟩ := Multiset.mem_map.mp hm
  exact h env (Multiset.mem_of_mem_filter henv)

theorem announcesTo_singleton {p q : PID N} {m : SafraMessage N M}
    : announcesTo {⟨q, m⟩} p = if q = p then (if m.isAnnounce then 1 else 0) else 0 := by
  unfold announcesTo undelivered
  rw [Multiset.filter_singleton]
  split
  . rw [Multiset.map_singleton, ← Multiset.cons_zero, Multiset.countP_cons, Multiset.countP_zero, Nat.zero_add]
  . rfl

theorem told_pos {w : PartyRun N S M} {p : PID N} : 0 < told w p ↔ .signal .terminate ∈ (w.node p).delivered := by
  unfold told
  rw [List.countP_pos_iff]
  constructor
  . rintro ⟨e, he, hterminate⟩
    rw [← isTerminate_iff.mp hterminate]
    exact he
  . intro hmem
    exact ⟨_, hmem, rfl⟩

variable [Message N M]

theorem announcesTo_fanOut (p q : PID N)
    : announcesTo (Multiset.ofList (fanOut (.announce p Finset.univ : SafraMessage N M))) q = 1 := by
  have hall : q ∈ Message.destinations (.announce p Finset.univ : SafraMessage N M) := Finset.mem_univ q
  unfold announcesTo
  rw [undelivered_fanOut, if_pos hall]
  rfl

variable [NeZero N]

theorem announce_of_mem {node node' : Node}
    {a : Action (PID N) (Event (TerminationSignal S) M) Unit (SafraMessage N M)}
    {out : List (Envelope (PID N) (SafraMessage N M))} (h : Change node a node' out)
    (hannounce : ∃ env, env ∈ out ∧ env.msg.isAnnounce)
    : ∃ p, out = fanOut (.announce p Finset.univ) := by
  obtain ⟨env, henv, hannounce⟩ := hannounce
  cases h with
  | detect p => exact ⟨p, rfl⟩
  | send p m =>
    rw [mem_fanOut] at henv
    rw [henv.2] at hannounce
    cases hannounce
  | skip | passivate | announce | payload | hold => cases henv
  | passToken | forward =>
    rw [List.mem_singleton] at henv
    rw [henv] at hannounce
    cases hannounce

variable {w w' : PartyRun N S M}
  {a : Action (PID N) (Event (TerminationSignal S) M) Unit (SafraMessage N M)}
  {out : List (Envelope (PID N) (SafraMessage N M))}

/--
A client is told what its process receives.
-/
theorem told_step (hst : (process.program transmit).Step w ⟨a, out⟩ w') (p : PID N)
    : told w' p = told w p + announcesTo a.taken p := by
  obtain ⟨-, hdelivered, hother⟩ := withoutClients_step hst
  unfold told
  by_cases hp : p = a.proc
  . rw [hp, hdelivered, List.countP_append]
    congr 1
    cases a with
    | input q e => rfl
    | receive q m k =>
      dsimp only [Action.taken, Action.proc]
      rw [announcesTo_singleton, if_pos rfl]
      cases m with
      | payload m => rfl
      | announce q' dests => rfl
      | tokenHolder q' dest tok => rfl
  . rw [hother p hp]
    cases a with
    | input q e => rfl
    | receive q m k =>
      dsimp only [Action.taken]
      rw [announcesTo_singleton, if_neg (fun heq => hp heq.symm)]
      rfl

theorem told_add_step (hst : (process.program transmit).Step w ⟨a, out⟩ w') (p : PID N)
    : told w' p + announcesTo w'.net p = told w p + announcesTo w.net p + announcesTo (Multiset.ofList out) p := by
  obtain ⟨party, rest, -, -, hnet, hnet'⟩ := hst.effect
  rw [told_step hst, hnet, hnet', announcesTo_add, announcesTo_add]
  omega

theorem told_of_silent (hst : (process.program transmit).Step w ⟨a, out⟩ w')
    (hsilent : ∀ env, env ∈ w.net → ¬ env.msg.isAnnounce) (p : PID N)
    : told w' p = told w p := by
  obtain ⟨party, rest, -, -, hnet, -⟩ := hst.effect
  have hp := announcesTo_eq_zero hsilent p
  rw [hnet, announcesTo_add] at hp
  rw [told_step hst]
  omega

-- The one that announces the end has detected it.
theorem terminated_of_announce (hN : N < 2 ^ 31) {w w' : Run N M}
    (hst : program.Step w ⟨a, out⟩ w') (hfits : CountersFit w) (hinv : Inv w)
    (hannounce : ∃ env, env ∈ out ∧ env.msg.isAnnounce)
    : Terminated w' := by
  obtain ⟨env, henv, hmsg⟩ := hannounce
  cases hinv.token with
  | inl hone =>
    rcases token_step hN hfits hst hinv.counts hinv.flight hone with ⟨-, hout⟩ | hterm
    . exact absurd hmsg (hout env henv)
    . exact hterm
  | inr hterm => exact absurd hmsg ((hterm.step hst).2.1 env henv)

omit [Message N M] [NeZero N] in
theorem deliveries_of_no_payload
    (hpayload : ∀ p m k, a ≠ .receive p (.payload m) k)
    : deliveries a = [] ∨ deliveries a = [.signal .terminate] := by
  cases a with
  | input q e => exact .inl rfl
  | receive q m k =>
    cases m with
    | payload m => exact absurd rfl (hpayload q m k)
    | announce q' dests => exact .inr rfl
    | tokenHolder q' dest tok => exact .inl rfl

theorem Told.step (hN : N < 2 ^ 31) (hst : (process.program transmit).Step w ⟨a, out⟩ w')
    (hfits : CountersFit (withoutClients w)) (hinv : Inv (withoutClients w)) (h : Told w)
    : Told w' := by
  obtain ⟨hstep, hdelivered, hother⟩ := withoutClients_step hst
  have hadd := told_add_step hst
  cases h with
  | before hkept htold =>
    have htold' : ∀ p, told w' p = 0 := by
      intro p
      rw [told_of_silent hst hkept.silent, htold]
    by_cases hannounce : ∃ env, env ∈ out ∧ env.msg.isAnnounce
    . have hterm := terminated_of_announce hN hstep hfits hinv hannounce
      obtain ⟨node, rest, hexec, -⟩ := hstep.effect
      obtain ⟨q, rfl⟩ := announce_of_mem (exec_change hexec) hannounce
      apply Told.after hterm
      . intro p
        have hp := announcesTo_eq_zero hkept.silent p
        dsimp only [withoutClients] at hp
        rw [hadd, htold, hp, announcesTo_fanOut]
      . exact fun p => .inl (htold' p)
    . apply Told.before _ htold'
      apply hkept.step hstep
      intro env henv hmsg
      exact hannounce ⟨env, henv, hmsg⟩
  | after hterm hone hlast =>
    obtain ⟨hterm', hout, -, hpayload⟩ := hterm.step hstep
    apply Told.after hterm'
    . intro p
      rw [hadd, hone, announcesTo_eq_zero hout]
    . intro p
      by_cases hp : p = a.proc
      . subst hp
        rcases deliveries_of_no_payload hpayload with hempty | hempty
        . unfold told
          rw [hdelivered, hempty, List.append_nil]
          exact hlast a.proc
        . rw [hempty] at hdelivered
          exact .inr ⟨_, hdelivered⟩
      . unfold told
        rw [hother p hp]
        exact hlast p

theorem inv_of_party_reach (hN : N < 2 ^ 31)
    (h : (process.program transmit).lts.Reach (fun _ _ w => CountersFit (withoutClients w)) w)
    : CountersFit (withoutClients w) ∧ Inv (withoutClients w) := by
  apply inv_of_reach (S := S) hN
  apply LTS.Reach.refine withoutClients _ _ h
  . rintro w rfl
    exact withoutClients_init
  . intro w l w' _ hst hfits
    exact .single _ (withoutClients_step hst).1 hfits

theorem told_of_reach (hN : N < 2 ^ 31)
    (h : (process.program transmit).lts.Reach (fun _ _ w => CountersFit (withoutClients w)) w)
    : Told w := by
  apply LTS.Reach.invariant (I := Told) _ _ h
  . rintro w rfl
    exact .before (TokenKept.init (S := S)) (fun _ => rfl)
  . intro w l w' hreach htold hst _
    obtain ⟨hfits, hinv⟩ := inv_of_party_reach hN hreach
    exact htold.step hN hst hfits hinv

/--
`Terminate` is the last thing that a process is delivered. Then no process is active and no message is
under way.
-/
structure Informed (w : PartyRun N S M) : Prop where
  last : ∀ p early late, (w.node p).delivered = early ++ .signal .terminate :: late → late = []
  quiet : ∀ p, .signal .terminate ∈ (w.node p).delivered →
    (∀ q, (w.node q).node.safra.state = .passive) ∧ payloads w.net = 0

omit [Message N M] in
theorem Told.informed (h : Told w) : Informed w := by
  cases h with
  | before hkept htold =>
    have hnot : ∀ p, .signal .terminate ∉ (w.node p).delivered := by
      intro p hmem
      have hpos := told_pos.mpr hmem
      rw [htold] at hpos
      exact absurd hpos (Nat.lt_irrefl 0)
    constructor
    . intro p early late heq
      apply absurd _ (hnot p)
      rw [heq]
      exact List.mem_append_right _ List.mem_cons_self
    . intro p hmem
      exact absurd hmem (hnot p)
  | after hterm hone hlast =>
    refine ⟨?_, fun _ _ => ⟨hterm.passive, hterm.noPayload⟩⟩
    intro p early late heq
    have htold : told w p = early.countP isTerminate + (late.countP isTerminate + 1) := by
      unfold told
      rw [heq, List.countP_append, List.countP_cons_of_pos rfl]
    have hp := hone p
    rcases hlast p with hzero | ⟨early', hend⟩
    . omega
    . rcases late.eq_nil_or_concat with rfl | ⟨late, e, rfl⟩
      . rfl
      -- otherwise there would be a second one
      . rw [heq, List.concat_eq_append, ← List.cons_append, ← List.append_assoc] at hend
        obtain ⟨-, hlate⟩ := List.append_inj' hend rfl
        rw [List.singleton_inj] at hlate
        rw [hlate, List.concat_eq_append, List.countP_append, List.countP_singleton] at htold
        simp only [isTerminate, if_true] at htold
        omega

end Told

section Ring

/-!
Two processes become passive, and the token goes round once.
-/

attribute [local instance] PID.twoProcesses

abbrev Packet := SafraMessage 2 (AppMessage 2 Unit)

def white : Token := ⟨.white, 0⟩

def sentAt (time : Time) (id : TaskID) (m : Packet) : Sent 2 Packet :=
  ⟨m, time, fun _ _ => some 1, fun p => if p = 0 then id else id + 1⟩

def sentToken : Sent 2 Packet := sentAt 0 0 (.tokenHolder 0 1 white)

def sentBack : Sent 2 Packet := sentAt 1 2 (.tokenHolder 1 0 white)

def announced : Sent 2 Packet := sentAt 2 4 (.announce 0 Finset.univ)

def taskOf (x : Sent 2 Packet) (n : Nat) (p : PID 2) : Stamped (Job 2 Packet) :=
  x.stamped n (⟨p, x.msg⟩, 1)

def draws (id : TaskID) : Nat → Draw 2 Packet :=
  fun _ => ⟨fun _ _ => some 1, fun p => if p = 0 then id else id + 1⟩

def passiveParty (delivered : List (Event (TerminationSignal Unit) (AppMessage 2 Unit)))
    : Party Unit (AppMessage 2 Unit) :=
  ⟨{ safra := { state := .passive, token := none } }, delivered⟩

def started : PID 2 → Party Unit (AppMessage 2 Unit) :=
  Function.update (Function.update process.init 1 (passiveParty [])) 0 (passiveParty [])

def tokenTask : Stamped (Job 2 Packet) := taskOf sentToken 0 1

def backTask : Stamped (Job 2 Packet) := taskOf sentBack 1 0

end Ring

end SafraTerminationDetection
