import Mathlib.Tactic.Positivity
import ScalaNeko.Protocol.Lemmas.SafraStack

/-!
Safra's detection in simulated time: when no message takes longer than `hi`, all processes are told of
the termination within `3N + 1` times `hi`.
-/

open AsyncNetwork
open NekoSimSystem (Meets Regular DelaysWithin Timed)

namespace SafraTerminationDetection

variable {N : Nat} {S M : Type}

abbrev TimedRun (N : Nat) (S M : Type) := TimedNetwork.World (PID N) (Party S M) (SafraMessage N M) Int

def ringOf (w : TimedRun N S M) : Run N M := withoutClients w.untimed

section Deadline

variable [NeZero N]

/--
The termination will be announced by `deadline`, as the token has few hops to go, or it has been, and no
announcement is due much later.
-/
inductive Deadline (hi deadline : Int) (w : TimedRun N S M) : Prop where
  | passing (t q dest : PID N) (tok : Token) (k : Nat) (due : Int) : Quiet (ringOf w) t tok →
      Lap (ringOf w) t tok k → w.net = {(⟨t, .tokenHolder q dest tok⟩, due)} →
      due + (t.val + k * N) * hi ≤ deadline → Deadline hi deadline w
  | announced : Terminated (ringOf w) → (∀ x, x ∈ w.net → x.2 ≤ deadline + hi) → Deadline hi deadline w

variable [Message N M] {hi deadline : Int} {w w' : TimedRun N S M}
  {a : Action (PID N) (Event (TerminationSignal S) M) Unit (SafraMessage N M)}
  {out : List (Envelope (PID N) (SafraMessage N M) × Int)}

theorem ringOf_step (hst : TimedNetwork.Step (process.program transmit) w (.act a out) w')
    : (program (S := S)).Step (ringOf w) ⟨a, out.map Prod.fst⟩ (ringOf w') :=
  (withoutClients_step (TimedNetwork.untimed_step hst)).1

omit [Message N M] in
theorem Told.terminated (h : Told w.untimed) {x : Envelope (PID N) (SafraMessage N M) × Int}
    (hx : x ∈ w.net) (hannounce : x.1.msg.isAnnounce)
    : Terminated (ringOf w) := by
  cases h with
  | before hkept _ =>
    exact absurd hannounce (hkept.silent x.1 (Multiset.mem_map_of_mem Prod.fst hx))
  | after hterm _ _ => exact hterm

/--
When the computation has terminated, nothing is sent any more.
-/
theorem Terminated.out_eq_nil {w w' : Run N M} {out : List (Envelope (PID N) (SafraMessage N M))}
    (h : Terminated w) (hst : (program (S := S)).Step w ⟨a, out⟩ w')
    : out = [] := by
  obtain ⟨node, rest, -, -, -, hnet'⟩ := hst.effect
  obtain ⟨hterm, hsilent, -, -⟩ := h.step hst
  rw [List.eq_nil_iff_forall_not_mem]
  intro env henv
  have hmem : env ∈ w'.net := by
    rw [hnet', Multiset.mem_add]
    exact .inl henv
  obtain ⟨p, m⟩ := env
  cases m with
  | payload m =>
    have hpos : 0 < payloads w'.net := Multiset.countP_pos.mpr ⟨_, hmem, rfl⟩
    rw [hterm.noPayload] at hpos
    exact absurd hpos (Nat.lt_irrefl 0)
  | announce q dests => exact hsilent _ henv rfl
  | tokenHolder q dest tok =>
    have hholder : (p, tok) ∈ holders w'.net := (Multiset.mem_filterMap _ _).mpr ⟨_, hmem, rfl⟩
    rw [hterm.noHolder] at hholder
    exact absurd hholder (Multiset.notMem_zero _)

theorem Terminated.mem_net (h : Terminated (ringOf w))
    (hst : TimedNetwork.Step (process.program transmit) w (.act a out) w')
    {x : Envelope (PID N) (SafraMessage N M) × Int} (hx : x ∈ w'.net)
    : x ∈ w.net := by
  have hnil := List.map_eq_nil_iff.mp (h.out_eq_nil (ringOf_step hst))
  cases hst with
  | input _ =>
    rw [hnil] at hx
    exact (Multiset.mem_add.mp hx).resolve_left (Multiset.notMem_zero x)
  | receive hnet _ =>
    rw [hnil] at hx
    rw [hnet]
    exact Multiset.mem_cons_of_mem ((Multiset.mem_add.mp hx).resolve_left (Multiset.notMem_zero x))

omit [NeZero N] [Message N M] in
theorem net_of_flight {env : Envelope (PID N) (SafraMessage N M)} (h : (ringOf w).net = {env})
    : ∃ due, w.net = {(env, due)} := by
  obtain ⟨⟨_, due⟩, hnet, rfl⟩ := Multiset.map_eq_singleton.mp h
  exact ⟨due, hnet⟩

theorem Quiet.step_input {p : PID N} {e : Event (TerminationSignal S) M} {t : PID N} {tok : Token}
    {w w' : Run N M} {out : List (Envelope (PID N) (SafraMessage N M))} (h : Quiet w t tok)
    (hst : (program (S := S)).Step w ⟨.input p e, out⟩ w')
    : out = [] ∧ w' = w := by
  cases h.step_cases hst with
  | idle p ie => exact ⟨rfl, rfl⟩

theorem Deadline.step (hhi : 0 ≤ hi) (h : Deadline hi deadline w) (htold : Told w'.untimed)
    (hst : TimedNetwork.Step (process.program transmit) w (.act a out) w')
    (hout : ∀ x, x ∈ out → x.2 ≤ w.now + hi)
    : Deadline hi deadline w' := by
  have hring := ringOf_step hst
  cases h with
  | announced hterm hdue =>
    apply Deadline.announced (hterm.step hring).1
    exact fun x hx => hdue x (hterm.mem_net hst hx)
  | passing t q dest tok k due hquiet hlap hnet hle =>
    cases hst with
    | input _ =>
      obtain ⟨hnil, hsame⟩ := hquiet.step_input hring
      rw [List.map_eq_nil_iff] at hnil
      subst hnil
      rw [← hsame] at hquiet hlap
      exact .passing t q dest tok k due hquiet hlap ((Multiset.zero_add _).trans hnet) hle
    | @receive p m i s _ rest hnet' _ =>
      rw [hnet, Multiset.singleton_eq_cons_iff] at hnet'
      obtain ⟨hx, rfl⟩ := hnet'
      have hnow : due = w.now := congrArg Prod.snd hx
      have hnonneg : 0 ≤ ((t.val : Int) + k * N) * hi := Int.mul_nonneg (by positivity) hhi
      rcases hlap.step hquiet hring ⟨_, _, _, rfl⟩ with
        ⟨env, henv, hannounce⟩ | ⟨t', tok', k', hquiet', hlap', hlt⟩
      . obtain ⟨x, hx, rfl⟩ := List.mem_map.mp henv
        apply Deadline.announced (htold.terminated (Multiset.mem_add.mpr (.inl hx)) hannounce)
        intro x hx
        have hx' := hout x ((Multiset.mem_add.mp hx).resolve_right (Multiset.notMem_zero x))
        omega
      -- one hop later there are fewer to go
      . obtain ⟨q', dest', hflight⟩ := hquiet'.flight
        obtain ⟨due', hnet'⟩ := net_of_flight hflight
        apply Deadline.passing t' q' dest' tok' k' due' hquiet' hlap' hnet'
        have hdue' : due' ≤ w.now + hi := by
          apply hout (⟨t', .tokenHolder q' dest' tok'⟩, due')
          dsimp only at hnet'
          rw [Multiset.add_zero] at hnet'
          rw [← Multiset.mem_coe, hnet']
          exact Multiset.mem_singleton_self _
        have hmul : ((t'.val : Int) + k' * N + 1) * hi ≤ ((t.val : Int) + k * N) * hi := by
          apply Int.mul_le_mul_of_nonneg_right _ hhi
          exact_mod_cast hlt
        rw [Int.add_mul, Int.one_mul] at hmul
        omega

/--
The messages take no longer than `hi`, and the counters do not overflow.
-/
def InTime (hi : Int) (_w : TimedRun N S M)
    (l : TimedNetwork.Label (PID N) (Event (TerminationSignal S) M) Unit (SafraMessage N M) Int)
    (w' : TimedRun N S M) : Prop :=
  CountersFit (ringOf w')
    ∧ ∀ a out, l = .act a out → ∀ x, x ∈ out → _w.now ≤ x.2 ∧ x.2 ≤ _w.now + hi

abbrev timed (N : Nat) [NeZero N] (S M : Type) [Message N M]
    : LTS (TimedRun N S M)
        (TimedNetwork.Label (PID N) (Event (TerminationSignal S) M) Unit (SafraMessage N M) Int) :=
  TimedNetwork.lts (process.program transmit) 0

theorem untimed_reach (h : (timed N S M).Reach (InTime hi) w)
    : (process.program transmit).lts.Reach (fun _ _ w => CountersFit (withoutClients w)) w.untimed :=
  TimedNetwork.untimed_reach (fun _ _ _ _ hok => hok.1) h

theorem Deadline.path (hN : N < 2 ^ 31) (hhi : 0 ≤ hi) (h : (timed N S M).Reach (InTime hi) w)
    (hdeadline : Deadline hi deadline w) (hp : (timed N S M).Path (InTime hi) w w')
    : Deadline hi deadline w' := by
  induction hp with
  | refl => exact hdeadline
  | @tail v u l hp hst hok ih =>
    have htold := told_of_reach hN (untimed_reach ((hp.reach h).next l hst hok))
    cases l with
    | act a out => exact ih.step hhi htold hst (fun x hx => (hok.2 a out rfl x hx).2)
    | wait =>
      cases hst
      cases ih with
      | passing t q dest tok k due hquiet hlap hnet hle =>
        exact .passing t q dest tok k due hquiet hlap hnet hle
      | announced hterm hdue => exact .announced hterm hdue

theorem Deadline.start (hN : N < 2 ^ 31) (hhi : 0 ≤ hi) (h : (timed N S M).Reach (InTime hi) w)
    (hpassive : ∀ p, (w.node p).node.safra.state = .passive) (hpayload : payloads (ringOf w).net = 0)
    : Deadline hi (w.now + 3 * N * hi) w := by
  have hnear : ∀ x, x ∈ w.net → x.2 ≤ w.now + hi := by
    apply TimedNetwork.near (· + hi) (fun _ _ hle => Int.add_le_add_right hle hi)
    apply h.mono
    rintro w l w' ⟨-, hout⟩ a out heq x hx
    exact (hout a out heq x hx).2
  obtain ⟨hfits, hinv⟩ := inv_of_party_reach hN (untimed_reach h)
  cases told_of_reach hN (untimed_reach h) with
  | before hkept _ =>
    obtain ⟨t, tok, hquiet⟩ := hkept.quiet hfits hinv.counts hinv.flight hpassive hpayload
    obtain ⟨q, dest, hflight⟩ := hquiet.flight
    obtain ⟨due, hnet⟩ := net_of_flight hflight
    apply Deadline.passing t q dest tok 2 due hquiet .first hnet
    have hdue : due ≤ w.now + hi := hnear _ (by rw [hnet]; exact Multiset.mem_singleton_self _)
    have hlt := t.isLt
    have hmul : ((t.val : Int) + 2 * N + 1) * hi ≤ 3 * N * hi := by
      apply Int.mul_le_mul_of_nonneg_right _ hhi
      omega
    rw [Int.add_mul, Int.one_mul] at hmul
    dsimp only [Nat.cast_ofNat]
    omega
  | after hterm _ _ =>
    apply Deadline.announced hterm
    intro x hx
    have hx' := hnear x hx
    have hnonneg : 0 ≤ 3 * (N : Int) * hi := Int.mul_nonneg (by positivity) hhi
    omega

omit [Message N M] in
theorem Deadline.told (hhi : 0 ≤ hi) (h : Deadline hi deadline w) (htold : Told w.untimed)
    (hdue : ∀ x, x ∈ w.net → w.now ≤ x.2) (hlate : deadline + hi < w.now) (p : PID N)
    : .signal .terminate ∈ (w.node p).delivered := by
  cases h with
  | passing t q dest tok k due hquiet hlap hnet hle =>
    have hnow : w.now ≤ due := hdue _ (by rw [hnet]; exact Multiset.mem_singleton_self _)
    have hnonneg : 0 ≤ ((t.val : Int) + k * N) * hi := Int.mul_nonneg (by positivity) hhi
    omega
  | announced hterm hnear =>
    have hempty : w.net = 0 := by
      apply Multiset.eq_zero_of_forall_notMem
      intro x hx
      have hle := hnear x hx
      have hge := hdue x hx
      omega
    cases htold with
    | before hkept _ =>
      have hone := hkept.one
      have hheld : ∑ q, held (ringOf w) q = 0 := by
        apply Finset.sum_eq_zero
        intro q _
        rw [held, hterm.noToken q]
        rfl
      have hholders := hterm.noHolder
      dsimp only [ringOf] at hheld hholders
      rw [hheld, hholders] at hone
      cases hone
    | after _ hone _ =>
      have hp := hone p
      have hnone : announcesTo w.untimed.net p = 0 := by
        unfold TimedNetwork.World.untimed
        rw [hempty]
        rfl
      rw [hnone, Nat.add_zero] at hp
      apply (told_pos (w := w.untimed)).mp
      exact Nat.lt_of_lt_of_eq Nat.one_pos hp.symm

end Deadline

section Simulation

variable [Message N M] [NeZero N] {hi : Int}

theorem inTime_of_meets
    {s s' : NekoSimSystem N (Party S M) (SafraMessage N M)}
    {a : NekoSimSystem.Action N (Event (TerminationSignal S) M) Unit (SafraMessage N M)}
    (h : Meets (Regular Network.clique) process Network.clique s a
      ∧ Meets (fun _ a => DelaysWithin 1 hi a) process Network.clique s a
      ∧ CountersFit (withoutClients s'.world))
    : Meets (Regular Network.clique) process Network.clique s a
      ∧ ∀ l, Timed process Network.clique s a l → InTime hi s.timedWorld l s'.timedWorld := by
  obtain ⟨hmeets, hdelays, hfits⟩ := h
  refine ⟨hmeets, ?_⟩
  intro l hl
  constructor
  . rw [ringOf, NekoSimSystem.untimed_timedWorld]
    exact hfits
  . rintro b out rfl x hx
    have hwithin := hl.within hdelays x hx
    omega

attribute [local instance] PID.twoProcesses

end Simulation

end SafraTerminationDetection
