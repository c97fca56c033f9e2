import ScalaNeko.Lib.MachineInt
import ScalaNeko.Lib.Probe
import ScalaNeko.Protocol.Lemmas.SafraStep

/-!
Safra's detection announces the termination of computations that have terminated.
-/

open AsyncNetwork
open Probe (Probed)

namespace SafraTerminationDetection

variable {N : Nat} {S M : Type}

structure Terminated (w : Run N M) : Prop where
  passive : ∀ p, (w.node p).safra.state = .passive
  noPayload : payloads w.net = 0
  noToken : ∀ p, (w.node p).safra.token = none
  noHolder : holders w.net = 0

def CountersFit (w : Run N M) : Prop :=
  ∀ p, -2 ^ 31 ≤ ((w.node p).sent : Int) - (w.node p).received
    ∧ ((w.node p).sent : Int) - (w.node p).received < 2 ^ 31

instance (w : Run N M) : Decidable (CountersFit w) :=
  inferInstanceAs (Decidable (∀ p, -2 ^ 31 ≤ ((w.node p).sent : Int) - (w.node p).received
    ∧ ((w.node p).sent : Int) - (w.node p).received < 2 ^ 31))

section Ring

def ring (w : Run N M) : Probe.Computation (PID N) where
  count := fun p => (w.node p).sent - (w.node p).received
  active := fun p => (w.node p).safra.state = .active
  black := fun p => (w.node p).safra.color = .black

/--
What is known about a token that is at or on its way to `p`.
-/
structure Sound (w : Run N M) (p : PID N) (tok : Token) : Prop where
  probed : Probed (ring w) p tok.count.toInt (tok.color = .black)
  bound : -(2 ^ 31 * ((N : Int) - 1 - p)) ≤ tok.count.toInt
    ∧ tok.count.toInt ≤ 2 ^ 31 * ((N : Int) - 1 - p)

inductive OneToken [NeZero N] (w : Run N M) : Prop where
  | held (p : PID N) (tok : Token) : (w.node p).safra.token = some tok →
      (w.node p).safra.state = .active → (∀ q, q ≠ p → (w.node q).safra.token = none) →
      holders w.net = 0 → (p ≠ initiator → Sound w p tok) → OneToken w
  | inFlight (p : PID N) (tok : Token) : (∀ q, (w.node q).safra.token = none) →
      holders w.net = {(p, tok)} → Sound w p tok → OneToken w

structure Inv [NeZero N] (w : Run N M) : Prop where
  counts : ∀ p, (w.node p).safra.msgCount = Int32.ofInt ((ring w).count p)
  flight : (ring w).inFlight = payloads w.net
  token : OneToken w ∨ Terminated w

variable {w w' : Run N M} {p : PID N} {node : Node}

theorem ring_of_ne (hnode : w'.node = Function.update w.node p node) {i : PID N} (hi : i ≠ p)
    : (ring w').count i = (ring w).count i ∧ (ring w').active i = (ring w).active i
      ∧ (ring w').black i = (ring w).black i := by
  simp [ring, hnode, Function.update_of_ne hi]

theorem inFlight_update (hnode : w'.node = Function.update w.node p node) {k : Int}
    (hcount : (ring w').count p = (ring w).count p + k)
    : (ring w').inFlight = (ring w).inFlight + k := by
  have hsum := Probe.sum_of_update hcount (fun i hi => (ring_of_ne hnode hi).1) Finset.univ
  simpa [Probe.Computation.inFlight] using hsum

theorem le_nextProcess_initiator [NeZero N] (p : PID N) : p ≤ nextProcess initiator := by
  have hlt := p.isLt
  have hlast : (nextProcess (initiator : PID N)).val = (0 + N - 1) % N := rfl
  rw [Nat.mod_eq_of_lt (by omega)] at hlast
  rw [Fin.le_def]
  omega

theorem nextProcess_val [NeZero N] (hp : p ≠ initiator) : (nextProcess p).val + 1 = p.val := by
  have hpos : p.val ≠ 0 := by
    intro h
    exact hp (Fin.ext h)
  have hlt := p.isLt
  have hsplit : p.val + N - 1 = p.val - 1 + N := by omega
  have hmod : (nextProcess p).val = (p.val + N - 1) % N := rfl
  rw [hsplit, Nat.add_mod_right, Nat.mod_eq_of_lt (by omega)] at hmod
  omega

theorem ring_active_of (hnode : w'.node = Function.update w.node p node)
    (hact : node.safra.state = .active → (w.node p).safra.state = .active)
    : ∀ i, (ring w').active i → (ring w).active i := by
  intro i
  by_cases hi : i = p
  . subst hi
    simpa [ring, hnode] using hact
  . rw [(ring_of_ne hnode hi).2.1]
    exact id

theorem ring_black_of (hnode : w'.node = Function.update w.node p node)
    (hblack : (w.node p).safra.color = .black → node.safra.color = .black)
    : ∀ i, (ring w).black i → (ring w').black i := by
  intro i
  by_cases hi : i = p
  . subst hi
    simpa [ring, hnode] using hblack
  . rw [(ring_of_ne hnode hi).2.2]
    exact id

theorem ring_count_of (hnode : w'.node = Function.update w.node p node)
    (hsent : node.sent = (w.node p).sent) (hreceived : node.received = (w.node p).received)
    : ∀ i, (ring w').count i = (ring w).count i := by
  intro i
  by_cases hi : i = p
  . subst hi
    simp [ring, hnode, hsent, hreceived]
  . exact (ring_of_ne hnode hi).1

theorem OneToken.keep [NeZero N] (h : OneToken w)
    (hnode : w'.node = Function.update w.node p node)
    (htoken : node.safra.token = (w.node p).safra.token)
    (hactive : ∀ tok, (w.node p).safra.token = some tok → (w.node p).safra.state = .active →
      node.safra.state = .active)
    (hholders : holders w'.net = holders w.net)
    (hprobed : ∀ t q b, Probed (ring w) t q b → Probed (ring w') t q b)
    : OneToken w' := by
  have htoken' : ∀ q, (w'.node q).safra.token = (w.node q).safra.token := by
    rw [hnode]
    exact field_update (fun x => (Node.safra x).token) htoken
  cases h with
  | held q tok htok hact hother hnone hsound =>
    apply OneToken.held q tok
    . rw [htoken']
      exact htok
    . by_cases hq : q = p
      . subst hq
        rw [hnode, Function.update_self]
        exact hactive tok htok hact
      . rw [hnode, Function.update_of_ne hq]
        exact hact
    . intro i hi
      rw [htoken']
      exact hother i hi
    . rw [hholders]
      exact hnone
    . intro hq
      exact ⟨hprobed _ _ _ (hsound hq).probed, (hsound hq).bound⟩
  | inFlight q tok hnone hflight hsound =>
    apply OneToken.inFlight q tok
    . intro i
      rw [htoken']
      exact hnone i
    . rw [hholders]
      exact hflight
    . exact ⟨hprobed _ _ _ hsound.probed, hsound.bound⟩

theorem OneToken.of_held [NeZero N] {tok : Token} (h : OneToken w)
    (htok : (w.node p).safra.token = some tok)
    : (∀ q, q ≠ p → (w.node q).safra.token = none) ∧ holders w.net = 0
      ∧ (p ≠ initiator → Sound w p tok) := by
  cases h with
  | held p' tok' htok' _ hother hnone hsound =>
    have hp : p = p' := by
      by_contra hne
      rw [hother p hne] at htok
      simp at htok
    subst hp
    rw [htok', Option.some.injEq] at htok
    subst htok
    exact ⟨hother, hnone, hsound⟩
  | inFlight p' tok' hnone =>
    rw [hnone p] at htok
    simp at htok

theorem OneToken.of_received [NeZero N] {tok : Token}
    {rest : Multiset (Envelope (PID N) (SafraMessage N M))} (h : OneToken w) {q dest : PID N}
    (hnet : w.net = {⟨p, .tokenHolder q dest tok⟩} + rest)
    : (∀ q, (w.node q).safra.token = none) ∧ holders rest = 0 ∧ Sound w p tok := by
  have hholders : holders w.net = (p, tok) ::ₘ holders rest := by
    rw [hnet, Multiset.singleton_add, holders_cons_tokenHolder]
  cases h with
  | held _ _ _ _ _ hnone =>
    rw [hnone] at hholders
    exact absurd hholders Multiset.zero_ne_cons
  | inFlight p' tok' hnone hflight hsound =>
    rw [hflight, ← Multiset.cons_zero, Multiset.cons_eq_cons] at hholders
    rcases hholders with ⟨heq, hrest⟩ | ⟨-, cs, hcs, -⟩
    . cases heq
      exact ⟨hnone, hrest.symm, hsound⟩
    . exact absurd hcs Multiset.zero_ne_cons

theorem msgCount_toInt (hcounts : (w.node p).safra.msgCount = Int32.ofInt ((ring w).count p))
    (hfits : CountersFit w)
    : (w.node p).safra.msgCount.toInt64.toInt = (ring w).count p := by
  rw [hcounts, Int32.toInt_toInt64]
  exact Int32.toInt_ofInt_of_le (hfits p).1 (hfits p).2

theorem Sound.start [NeZero N] (w : Run N M) : Sound w (nextProcess initiator) ⟨.white, 0⟩ where
  probed := Probed.start le_nextProcess_initiator
  bound := by
    have hlast := (nextProcess (initiator : PID N)).isLt
    simp only [Int64.toInt_zero]
    omega

theorem Sound.pass [NeZero N] {tok : Token} (h : Sound w p tok) (hN : N < 2 ^ 31)
    (hfits : CountersFit w)
    (hcounts : (w.node p).safra.msgCount = Int32.ofInt ((ring w).count p)) (hp : p ≠ initiator)
    (hnode : w'.node = Function.update w.node p
      { w.node p with
          safra := { (w.node p).safra with state := .passive, color := .white, token := none } })
    : Sound w' (nextProcess p) (passOn p (w.node p).safra tok) := by
  obtain ⟨hprobed, hlo, hhi⟩ := h
  have hval := nextProcess_val hp
  have hlt := p.isLt
  have hcount := msgCount_toInt hcounts hfits
  obtain ⟨hcountlo, hcounthi⟩ : -2 ^ 31 ≤ (ring w).count p ∧ (ring w).count p < 2 ^ 31 := hfits p
  have hadd : ((w.node p).safra.msgCount.toInt64 + tok.count).toInt
      = (ring w).count p + tok.count.toInt := by
    rw [Int64.toInt_add_of_range, hcount]
    . omega
    . omega
  rw [passOn, if_neg hp]
  constructor
  . rw [hadd]
    apply hprobed.pass
    . intro i
      rw [Fin.le_def, Fin.lt_def]
      omega
    . simp [ring, hnode]
    . exact ring_count_of hnode rfl rfl
    . exact ring_active_of hnode (by simp)
    . intro i hi
      rw [(ring_of_ne hnode hi).2.2]
      exact id
    . rintro (hb | hb)
      . dsimp only
        split
        . rfl
        . exact hb
      . exact if_pos hb
  . dsimp only
    rw [hadd]
    omega

theorem OneToken.transmit [NeZero N] {tok : Token} (hN : N < 2 ^ 31) (hfits : CountersFit w)
    (hcounts : (w.node p).safra.msgCount = Int32.ofInt ((ring w).count p))
    (hnode : w'.node = Function.update w.node p
      { w.node p with
          safra := { (w.node p).safra with state := .passive, color := .white, token := none } })
    (hother : ∀ q, q ≠ p → (w.node q).safra.token = none)
    (hsound : p ≠ initiator → Sound w p tok)
    (hholders : holders w'.net = {(nextProcess p, passOn p (w.node p).safra tok)})
    : OneToken w' := by
  apply OneToken.inFlight _ _ _ hholders
  . by_cases hp : p = initiator
    . rw [passOn, if_pos hp, hp]
      exact .start w'
    . exact (hsound hp).pass hN hfits hcounts hp hnode
  . intro q
    by_cases hq : q = p
    . subst hq
      simp [hnode]
    . rw [hnode, Function.update_of_ne hq]
      exact hother q hq

theorem OneToken.hold [NeZero N] {tok : Token}
    (hnode : w'.node = Function.update w.node p
      { w.node p with safra := { (w.node p).safra with token := some tok } })
    (hactive : (w.node p).safra.state = .active) (hnone : ∀ q, (w.node q).safra.token = none)
    (hsound : Sound w p tok) (hholders : holders w'.net = 0)
    : OneToken w' := by
  apply OneToken.held p tok
  . simp [hnode]
  . simpa [hnode] using hactive
  . intro i hi
    rw [hnode, Function.update_of_ne hi]
    exact hnone i
  . exact hholders
  . intro _
    refine ⟨?_, hsound.bound⟩
    apply hsound.probed.passivate
    . exact ring_count_of hnode rfl rfl
    . exact ring_active_of hnode id
    . exact ring_black_of hnode id

theorem Sound.terminated [NeZero N] {tok : Token} (h : Sound w p tok) (hN : N < 2 ^ 31)
    (hfits : CountersFit w)
    (hcounts : (w.node p).safra.msgCount = Int32.ofInt ((ring w).count p)) (hp : p = initiator)
    (hcolor : tok.color = .white) (hsum : (w.node p).safra.msgCount.toInt64 + tok.count = 0)
    (hwhite : (w.node p).safra.color = .white) (hpassive : (w.node p).safra.state = .passive)
    : (∀ q, (w.node q).safra.state = .passive) ∧ (ring w).inFlight = 0 := by
  have hcount := msgCount_toInt hcounts hfits
  obtain ⟨hcountlo, hcounthi⟩ : -2 ^ 31 ≤ (ring w).count p ∧ (ring w).count p < 2 ^ 31 := hfits p
  have hval : p.val = 0 := by
    rw [hp]
    rfl
  have hzero : (ring w).count p + tok.count.toInt = 0 := by
    obtain ⟨-, hlo, hhi⟩ := h
    rw [← hcount, ← Int64.toInt_add_of_range, hsum]
    . rfl
    . omega
    . omega
  have hfirst : ∀ q : PID N, p ≤ q := by
    intro q
    rw [Fin.le_def]
    omega
  obtain ⟨hquiet, hempty⟩ := h.probed.terminated hfirst (by simp [ring, hpassive])
    (by simp [ring, hwhite]) (by simp [hcolor]) hzero
  refine ⟨?_, hempty⟩
  intro q
  cases hq : (w.node q).safra.state with
  | active => exact absurd hq (hquiet q)
  | passive => rfl

end Ring

section Step

variable [Message N M] [NeZero N] {w w' : Run N M}
  {a : Action (PID N) (Event (TerminationSignal S) M) Unit (SafraMessage N M)}
  {out : List (Envelope (PID N) (SafraMessage N M))}

theorem counts_step (hst : program.Step w ⟨a, out⟩ w')
    (h : ∀ p, (w.node p).safra.msgCount = Int32.ofInt ((ring w).count p))
    : ∀ p, (w'.node p).safra.msgCount = Int32.ofInt ((ring w').count p) := by
  obtain ⟨node, rest, hexec, hnode, -, -⟩ := hst.effect
  have hchange := exec_change hexec
  intro i
  have hi := h i
  by_cases hp : i = a.proc
  . subst hp
    simp only [ring] at hi
    simp only [ring, hnode, Function.update_self]
    cases hchange with
    | skip | passivate | passToken | announce | detect | hold | forward => exact hi
    | send p m =>
      dsimp only [Action.proc] at hi ⊢
      rw [hi, ← Int32.ofInt_eq_ofNat, ← Int32.ofInt_add]
      congr 1
      omega
    | payload p m =>
      have hone : (1 : Int32) = Int32.ofInt 1 := rfl
      dsimp only [Action.proc] at hi ⊢
      rw [hi, hone, ← Int32.ofInt_sub]
      congr 1
      omega
  . rw [(ring_of_ne hnode hp).1, hnode, Function.update_of_ne hp]
    exact hi

theorem flight_step (hst : program.Step w ⟨a, out⟩ w') (h : (ring w).inFlight = payloads w.net)
    : (ring w').inFlight = payloads w'.net := by
  obtain ⟨node, rest, hexec, hnode, hnet, hnet'⟩ := hst.effect
  have hchange := exec_change hexec
  obtain ⟨k, hcount, hpay⟩ : ∃ k : Int, (ring w').count a.proc = (ring w).count a.proc + k
      ∧ (payloads (Multiset.ofList out) : Int) = payloads a.taken + k := by
    simp only [ring, hnode, Function.update_self]
    cases hchange with
    | skip | passivate | passToken | announce | hold | forward =>
      exact ⟨0, by simp, rfl⟩
    | detect p q dest tok =>
      refine ⟨0, by simp, ?_⟩
      rw [payloads_fanOut_announce]
      rfl
    | send p m =>
      refine ⟨(Message.destinations m).card, ?_, ?_⟩
      . dsimp only [Action.proc]
        omega
      . rw [payloads_fanOut_payload]
        simp [Action.taken, payloads]
    | payload p m =>
      refine ⟨-1, ?_, rfl⟩
      dsimp only [Action.proc]
      omega
  rw [inFlight_update hnode hcount, h, hnet, hnet', payloads_add, payloads_add]
  omega

theorem token_step (hN : N < 2 ^ 31) (hfits : CountersFit w) (hst : program.Step w ⟨a, out⟩ w')
    (hcounts : ∀ p, (w.node p).safra.msgCount = Int32.ofInt ((ring w).count p))
    (hflight : (ring w).inFlight = payloads w.net) (h : OneToken w)
    : OneToken w' ∧ (∀ env, env ∈ out → ¬ env.msg.isAnnounce) ∨ Terminated w' := by
  obtain ⟨node, rest, hexec, hnode, hnet, hnet'⟩ := hst.effect
  have hchange := exec_change hexec
  cases hchange with
  | skip | announce =>
    refine .inl ⟨?_, by simp⟩
    apply h.keep hnode rfl (fun _ _ => id)
    . simp [hnet, hnet', Action.taken]
    . rw [Function.update_eq_self] at hnode
      simp [ring, hnode]
  | passivate p hactive htok =>
    refine .inl ⟨?_, by simp⟩
    apply h.keep hnode htok.symm
    . intro tok htok'
      rw [htok] at htok'
      simp at htok'
    . simp [hnet, hnet', Action.taken]
    . intro t q b hprobed
      apply hprobed.passivate
      . exact ring_count_of hnode rfl rfl
      . exact ring_active_of hnode (by simp)
      . exact ring_black_of hnode id
  | passToken p tok hactive htok =>
    obtain ⟨hnone, hholders, hsound⟩ := h.of_held htok
    refine .inl ⟨?_, by simp [SafraMessage.isAnnounce]⟩
    apply OneToken.transmit hN hfits (hcounts p) hnode hnone hsound
    have hrest : holders rest = 0 := by
      rw [hnet] at hholders
      simpa [Action.taken] using hholders
    simp [hnet', hrest, Action.proc]
  | send p m hactive =>
    refine .inl ⟨?_, ?_⟩
    . apply h.keep hnode rfl (fun _ _ => id)
      . simp [hnet, hnet', Action.taken, holders_fanOut_payload]
      . intro t q b hprobed
        apply hprobed.send (p := p) (k := (Message.destinations m).card) hactive
        . omega
        . simp [ring, hnode, Action.proc]
          omega
        . intro i hi
          exact (ring_of_ne hnode hi).1
        . exact ring_active_of hnode id
        . exact ring_black_of hnode id
    . intro env henv
      rw [mem_fanOut] at henv
      simp [henv.2, SafraMessage.isAnnounce]
  | payload p m =>
    refine .inl ⟨?_, by simp⟩
    apply h.keep hnode rfl (fun _ _ _ => rfl)
    . simp [hnet, hnet', Action.taken]
    . intro t q b hprobed
      apply hprobed.receive (p := p)
      . rw [hflight]
        apply Int.natCast_pos.mpr
        exact Multiset.countP_pos.mpr ⟨⟨p, .payload m⟩, by simp [hnet, Action.taken], rfl⟩
      . simp [ring, hnode, Action.proc]
        omega
      . intro i hi
        exact (ring_of_ne hnode hi).1
      . simp [ring, hnode, Action.proc]
      . exact ring_black_of hnode (fun _ => rfl)
  | detect p q dest tok hcolor hp hsum hwhite hpassive =>
    obtain ⟨hnone, hrest, hsound⟩ := h.of_received hnet
    obtain ⟨hquiet, hempty⟩ :=
      hsound.terminated hN hfits (hcounts p) hp hcolor hsum hwhite hpassive
    rw [Function.update_eq_self] at hnode
    right
    constructor
    . rw [hnode]
      exact hquiet
    . rw [hflight, hnet, payloads_add] at hempty
      rw [hnet', payloads_add, payloads_fanOut_announce]
      omega
    . rw [hnode]
      exact hnone
    . rw [hnet', holders_add, holders_fanOut_announce, hrest]
      rfl
  | hold p q dest tok hactive =>
    obtain ⟨hnone, hrest, hsound⟩ := h.of_received hnet
    refine .inl ⟨?_, by simp⟩
    apply OneToken.hold hnode hactive hnone hsound
    simpa [hnet'] using hrest
  | forward p q dest tok hpassive =>
    obtain ⟨hnone, hrest, hsound⟩ := h.of_received hnet
    refine .inl ⟨?_, by simp [SafraMessage.isAnnounce]⟩
    apply OneToken.transmit hN hfits (hcounts p) hnode (fun q _ => hnone q) (fun _ => hsound)
    simp [hnet', hrest, Action.proc]

theorem Terminated.step (h : Terminated w) (hst : program.Step w ⟨a, out⟩ w')
    : Terminated w' ∧ (∀ env, env ∈ out → ¬ env.msg.isAnnounce)
      ∧ (∀ p m, a ≠ .input p (.message m)) ∧ (∀ p m k, a ≠ .receive p (.payload m) k) := by
  obtain ⟨node, rest, hexec, hnode, hnet, hnet'⟩ := hst.effect
  have hchange := exec_change hexec
  have hpay : payloads a.taken = 0 ∧ payloads rest = 0 := by
    have hpay := h.noPayload
    rw [hnet, payloads_add] at hpay
    omega
  have hhold : holders a.taken = 0 ∧ holders rest = 0 := by
    have hhold := h.noHolder
    rw [hnet, holders_add] at hhold
    constructor
    . rw [← Multiset.le_zero, ← hhold]
      exact Multiset.le_add_right _ _
    . rw [← Multiset.le_zero, ← hhold]
      exact Multiset.le_add_left _ _
  have hsame : node = w.node a.proc → out = [] → Terminated w' := by
    rintro rfl rfl
    rw [Function.update_eq_self] at hnode
    constructor
    . rw [hnode]
      exact h.passive
    . simpa [hnet'] using hpay.2
    . rw [hnode]
      exact h.noToken
    . simpa [hnet'] using hhold.2
  have hactive : (w.node a.proc).safra.state ≠ .active := by
    rw [h.passive]
    simp
  cases hchange with
  | skip p ie => exact ⟨hsame rfl rfl, by simp, by simp, by simp⟩
  | announce p q dests => exact ⟨hsame rfl rfl, by simp, by simp, by simp⟩
  | passivate p hact => exact absurd hact hactive
  | passToken p tok hact => exact absurd hact hactive
  | send p m hact => exact absurd hact hactive
  | hold p q dest tok hact => exact absurd hact hactive
  | payload p m => exact absurd hpay.1 Nat.one_ne_zero
  | detect p q dest tok => exact absurd hhold.1 (Multiset.singleton_ne_zero (p, tok))
  | forward p q dest tok => exact absurd hhold.1 (Multiset.singleton_ne_zero (p, tok))

end Step

section Safety

variable [Message N M] [NeZero N] {w w' : Run N M}

theorem Inv.init : Inv (program (S := S) (M := M) (N := N)).initWorld where
  counts := fun p => rfl
  flight := by
    simp [Probe.Computation.inFlight, ring, Program.initWorld, program, payloads]
  token := by
    left
    apply OneToken.held initiator ⟨.white, 0⟩
    . simp [Program.initWorld, program, SafraTerminationDetection.init]
    . rfl
    . intro q hq
      simp [Program.initWorld, program, SafraTerminationDetection.init, hq]
    . rfl
    . intro h
      exact absurd rfl h

theorem inv_of_reach (hN : N < 2 ^ 31)
    (h : (program (S := S)).lts.Reach (fun _ _ w => CountersFit w) w)
    : CountersFit w ∧ Inv w := by
  apply LTS.Reach.invariant (I := fun w => CountersFit w ∧ Inv w) _ _ h
  . rintro w rfl
    refine ⟨?_, Inv.init⟩
    intro p
    simp [Program.initWorld, program]
  . rintro w ⟨a, out⟩ w' - ⟨hfits, hinv⟩ hst hfits'
    refine ⟨hfits', counts_step hst hinv.counts, flight_step hst hinv.flight, ?_⟩
    cases hinv.token with
    | inl hone =>
      rcases token_step hN hfits hst hinv.counts hinv.flight hone with ⟨hone', -⟩ | hterm
      . exact .inl hone'
      . exact .inr hterm
    | inr hterm => exact .inr (hterm.step hst).1

end Safety

end SafraTerminationDetection
