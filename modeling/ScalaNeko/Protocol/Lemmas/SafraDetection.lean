import Mathlib.Algebra.Order.BigOperators.Group.Finset
import ScalaNeko.Protocol.Lemmas.SafraTerminationDetection

/-!
Safra's detection detects every termination within three rounds of the token.
-/

open AsyncNetwork

namespace SafraTerminationDetection

variable {N : Nat} {S M : Type}

section Token

def held (w : Run N M) (p : PID N) : Int := if (w.node p).safra.token.isSome then 1 else 0

structure TokenKept (w : Run N M) : Prop where
  one : (∑ p, held w p) + (holders w.net).card = 1
  active : ∀ p, (w.node p).safra.token.isSome → (w.node p).safra.state = .active
  silent : ∀ env, env ∈ w.net → ¬ env.msg.isAnnounce

theorem sum_held_nonneg (w : Run N M) (s : Finset (PID N)) : 0 ≤ ∑ p ∈ s, held w p := by
  apply Finset.sum_nonneg
  intro p _
  unfold held
  split
  . exact Int.one_nonneg
  . exact Int.le_refl 0

theorem held_eq_zero_of_holders {w : Run N M} (h : TokenKept w) (hholders : holders w.net ≠ 0)
    (p : PID N)
    : (w.node p).safra.token = none := by
  have hcard := Multiset.card_pos.mpr hholders
  have hone := h.one
  have hsplit := Finset.add_sum_erase Finset.univ (held w) (Finset.mem_univ p)
  have hrest := sum_held_nonneg w (Finset.univ.erase p)
  rw [← Option.not_isSome_iff_eq_none]
  intro hsome
  have hp : held w p = 1 := if_pos hsome
  omega

theorem countP_holders (net : Multiset (Envelope (PID N) (SafraMessage N M)))
    (hsilent : ∀ env, env ∈ net → ¬ env.msg.isAnnounce)
    : net.card = payloads net + (holders net).card := by
  induction net using Multiset.induction with
  | empty => rfl
  | cons env net ih =>
    have hrest := ih (fun env henv => hsilent env (Multiset.mem_cons_of_mem henv))
    have henv := hsilent env (Multiset.mem_cons_self _ _)
    obtain ⟨p, m⟩ := env
    cases m with
    | payload m =>
      rw [holders_cons_payload, Multiset.card_cons, hrest, payloads, payloads,
        Multiset.countP_cons_of_pos (p := fun env : Envelope (PID N) (SafraMessage N M) =>
          env.msg.isPayload) _ rfl]
      omega
    | announce q dests => exact absurd rfl henv
    | tokenHolder q dest tok =>
      rw [holders_cons_tokenHolder, Multiset.card_cons, Multiset.card_cons, hrest, payloads, payloads,
        Multiset.countP_cons_of_neg (p := fun env : Envelope (PID N) (SafraMessage N M) =>
          env.msg.isPayload) _ (by simp [SafraMessage.isPayload])]
      omega

section Step

variable [Message N M] [NeZero N] {w w' : Run N M}
  {a : Action (PID N) (Event (TerminationSignal S) M) Unit (SafraMessage N M)}
  {out : List (Envelope (PID N) (SafraMessage N M))}

theorem TokenKept.init : TokenKept (program (S := S) (M := M) (N := N)).initWorld where
  one := by
    have hheld : ∀ p, held (program (S := S) (M := M) (N := N)).initWorld p
        = if p = initiator then 1 else 0 := by
      intro p
      by_cases hp : p = initiator
      . simp [held, Program.initWorld, program, SafraTerminationDetection.init, hp]
      . simp [held, Program.initWorld, program, SafraTerminationDetection.init, hp]
    rw [Finset.sum_congr rfl (fun p _ => hheld p), Finset.sum_ite_eq', if_pos (Finset.mem_univ _)]
    rfl
  active := fun _ _ => rfl
  silent := by simp [Program.initWorld]

-- What the process loses, the network gains.
theorem TokenKept.balance {node : Node} {rest : Multiset (Envelope (PID N) (SafraMessage N M))}
    (h : TokenKept w) (hchange : Change (w.node a.proc) a node out) (hnet : w.net = a.taken + rest)
    (hout : ∀ env, env ∈ out → ¬ env.msg.isAnnounce)
    : ∃ i j : Nat, (holders a.taken).card = i ∧ (holders (Multiset.ofList out)).card = j
        ∧ (if node.safra.token.isSome then (1 : Int) else 0) = held w a.proc + (i - j)
        ∧ (node.safra.token.isSome → node.safra.state = .active) := by
  have hnone := fun hne => held_eq_zero_of_holders h hne a.proc
  rw [hnet, holders_add] at hnone
  have hactive := h.active a.proc
  unfold held
  cases hchange with
  | skip | announce => exact ⟨0, 0, rfl, rfl, by simp, hactive⟩
  | passivate p hact htok =>
    rw [htok]
    exact ⟨0, 0, rfl, rfl, by simp, by simp⟩
  | passToken p tok hact htok =>
    rw [htok]
    exact ⟨0, 1, rfl, rfl, by simp, by simp⟩
  | send p m hact =>
    exact ⟨0, 0, rfl, by rw [holders_fanOut_payload]; rfl, by simp [Action.proc], hactive⟩
  | payload p m => exact ⟨0, 0, rfl, rfl, by simp [Action.proc], fun _ => rfl⟩
  | detect p q dest tok =>
    exact absurd rfl (hout ⟨p, .announce p Finset.univ⟩ (mem_fanOut_announce.mpr rfl))
  | hold p q dest tok hact =>
    have hfree := hnone (fun heq => Multiset.cons_ne_zero ((Multiset.singleton_add _ _).symm.trans heq))
    rw [hfree]
    exact ⟨1, 0, rfl, rfl, by simp, fun _ => hact⟩
  | forward p q dest tok hact =>
    have hfree := hnone (fun heq => Multiset.cons_ne_zero ((Multiset.singleton_add _ _).symm.trans heq))
    rw [hfree]
    exact ⟨1, 1, rfl, rfl, by simp, by simp⟩

theorem TokenKept.step (h : TokenKept w) (hst : program.Step w ⟨a, out⟩ w')
    (hout : ∀ env, env ∈ out → ¬ env.msg.isAnnounce)
    : TokenKept w' := by
  obtain ⟨node, rest, hexec, hnode, hnet, hnet'⟩ := hst.effect
  have hchange := exec_change hexec
  have hother : ∀ i, i ≠ a.proc → held w' i = held w i := by
    intro i hi
    rw [held, held, hnode, Function.update_of_ne hi]
  obtain ⟨i, j, htaken, hsent, hmoved, hactive⟩ := h.balance hchange hnet hout
  have hself : held w' a.proc = held w a.proc + (i - j) := by
    rw [← hmoved, held, hnode, Function.update_self]
  constructor
  . have hone := h.one
    rw [hnet, holders_add, Multiset.card_add, htaken] at hone
    rw [hnet', holders_add, Multiset.card_add, hsent, Probe.sum_of_update hself hother,
      if_pos (Finset.mem_univ _)]
    omega
  . intro i
    rw [hnode]
    by_cases hi : i = a.proc
    . subst hi
      rw [Function.update_self]
      exact hactive
    . rw [Function.update_of_ne hi]
      exact h.active i
  . intro env henv
    rw [hnet', Multiset.mem_add, Multiset.mem_coe] at henv
    rcases henv with henv | henv
    . exact hout env henv
    . apply h.silent
      rw [hnet]
      exact Multiset.mem_add.mpr (.inr henv)

end Step

end Token

section Quiet

/--
The computation has terminated, and the token is on its way to `t`.
-/
structure Quiet (w : Run N M) (t : PID N) (tok : Token) : Prop where
  passive : ∀ p, (w.node p).safra.state = .passive
  unheld : ∀ p, (w.node p).safra.token = none
  flight : ∃ q dest, w.net = {⟨t, .tokenHolder q dest tok⟩}
  counts : ∀ p, (w.node p).safra.msgCount.toInt64 = Int64.ofInt ((ring w).count p)
  balance : (ring w).inFlight = 0

theorem TokenKept.quiet {w : Run N M} (h : TokenKept w) (hfits : CountersFit w)
    (hcounts : ∀ p, (w.node p).safra.msgCount = Int32.ofInt ((ring w).count p))
    (hflight : (ring w).inFlight = payloads w.net)
    (hpassive : ∀ p, (w.node p).safra.state = .passive) (hpayload : payloads w.net = 0)
    : ∃ t tok, Quiet w t tok := by
  have hunheld : ∀ p, (w.node p).safra.token = none := by
    intro p
    rw [← Option.not_isSome_iff_eq_none]
    intro hsome
    have := h.active p hsome
    rw [hpassive p] at this
    cases this
  have hone := h.one
  have hheld : ∑ p, held w p = 0 := by
    apply Finset.sum_eq_zero
    intro p _
    rw [held, hunheld p]
    rfl
  have hcard : w.net.card = 1 := by
    rw [countP_holders w.net h.silent]
    omega
  obtain ⟨⟨t, m⟩, hnet⟩ := Multiset.card_eq_one.mp hcard
  have hcounts' : ∀ p, (w.node p).safra.msgCount.toInt64 = Int64.ofInt ((ring w).count p) := by
    intro p
    rw [← msgCount_toInt (hcounts p) hfits, Int64.ofInt_toInt]
  rw [hpayload] at hflight
  cases m with
  | payload m =>
    rw [hnet] at hpayload
    exact absurd hpayload Nat.one_ne_zero
  | announce q dests =>
    exact absurd rfl (h.silent ⟨t, .announce q dests⟩ (by rw [hnet]; exact Multiset.mem_singleton_self _))
  | tokenHolder q dest tok =>
    exact ⟨t, tok, hpassive, hunheld, ⟨q, dest, hnet⟩, hcounts', hflight⟩

variable [Message N M] [NeZero N] {w w' : Run N M} {t : PID N} {tok : Token}
  {a : Action (PID N) (Event (TerminationSignal S) M) Unit (SafraMessage N M)}
  {out : List (Envelope (PID N) (SafraMessage N M))}

def Detected (t : PID N) (s : SafraTerminationDetection) (tok : Token) : Prop :=
  tok.color = .white ∧ t = initiator ∧ s.msgCount.toInt64 + tok.count = 0 ∧ s.color = .white
    ∧ s.state = .passive

theorem receive_of_detected {q dest : PID N} {node : Node} (h : Detected t node.safra tok)
    : (program (S := S)).receive t (.tokenHolder q dest tok : SafraMessage N M) () node
      = some (node, fanOut (.announce t Finset.univ)) := by
  unfold Detected at h
  simp only [program, onReceive, if_pos h, transmit_message]
  rfl

inductive QuietCase (w : Run N M) (t : PID N) (tok : Token)
    : Action (PID N) (Event (TerminationSignal S) M) Unit (SafraMessage N M) →
      List (Envelope (PID N) (SafraMessage N M)) → Run N M → Prop where
  | idle (p : PID N) (ie : TerminationSignal S) : QuietCase w t tok (.input p (.signal ie)) [] w
  | announced (q dest : PID N) (w' : Run N M) : w.net = {⟨t, .tokenHolder q dest tok⟩} →
      QuietCase w t tok (.receive t (.tokenHolder q dest tok) ()) (fanOut (.announce t Finset.univ)) w'
  | passed (q dest : PID N) (w' : Run N M) : w.net = {⟨t, .tokenHolder q dest tok⟩} →
      ¬ Detected t (w.node t).safra tok →
      w'.node = Function.update w.node t
        { w.node t with
            safra := { (w.node t).safra with state := .passive, color := .white, token := none } } →
      w'.net
        = {⟨nextProcess t, .tokenHolder t (nextProcess t) (passOn t (w.node t).safra tok)⟩} →
      QuietCase w t tok (.receive t (.tokenHolder q dest tok) ())
        [⟨nextProcess t, .tokenHolder t (nextProcess t) (passOn t (w.node t).safra tok)⟩] w'

theorem Quiet.step_cases (h : Quiet w t tok) (hst : program.Step w ⟨a, out⟩ w')
    : QuietCase w t tok a out w' := by
  obtain ⟨node, rest, hexec, hnode, hnet, hnet'⟩ := hst.effect
  have hchange := exec_change hexec
  obtain ⟨q₀, dest₀, hflight⟩ := h.flight
  rw [hflight] at hnet
  have htaken : ∀ env, a.taken = {env} → env = ⟨t, .tokenHolder q₀ dest₀ tok⟩ ∧ rest = 0 := by
    intro env henv
    rw [henv, Multiset.singleton_add, ← Multiset.cons_zero, Multiset.cons_eq_cons] at hnet
    rcases hnet with ⟨heq, hrest⟩ | ⟨-, cs, hcs, -⟩
    . exact ⟨heq.symm, hrest.symm⟩
    . exact absurd hcs Multiset.zero_ne_cons
  have hinactive : (w.node a.proc).safra.state ≠ .active := by
    rw [h.passive]
    simp
  cases hchange with
  | skip p ie =>
    rw [Function.update_eq_self] at hnode
    have hsame : w' = w := by
      have hempty : w'.net = w.net := by
        rw [hnet', hflight, hnet]
        rfl
      cases w'
      cases w
      simp_all
    rw [hsame]
    exact .idle p ie
  | passivate p hact => exact absurd hact hinactive
  | passToken p tok hact => exact absurd hact hinactive
  | send p m hact => exact absurd hact hinactive
  | hold p q dest tok hact => exact absurd hact hinactive
  | announce p q dests => cases (htaken _ rfl).1
  | payload p m => cases (htaken _ rfl).1
  | detect p q dest tok' =>
    cases (htaken _ rfl).1
    exact .announced _ _ w' hflight
  | forward p q dest tok' =>
    obtain ⟨heq, hrest⟩ := htaken _ rfl
    cases heq
    rw [hrest, Multiset.add_zero] at hnet'
    by_cases hdetected : Detected t (w.node t).safra tok
    . have hdetect := hexec.symm.trans (receive_of_detected hdetected)
      simp only [Option.some.injEq, Prod.mk.injEq] at hdetect
      rw [hdetect.2]
      exact .announced _ _ w' hflight
    . exact .passed _ _ w' hflight hdetected hnode hnet'

end Quiet

section Laps

/--
What is known in the last lap of the token, the one before, and the first one, where nothing is.
-/
inductive Lap (w : Run N M) (t : PID N) (tok : Token) : Nat → Prop where
  | third : tok.color = .white → tok.count = Int64.ofInt (∑ p with t < p, (ring w).count p) →
      (∀ p, p ≤ t → (w.node p).safra.color = .white) → Lap w t tok 0
  | second : (∀ p, t < p → (w.node p).safra.color = .white) → Lap w t tok 1
  | first : Lap w t tok 2

variable {w w' : Run N M} {t : PID N} {tok : Token} {k : Nat}

theorem color_passed
    (hnode : w'.node = Function.update w.node t
      { w.node t with
          safra := { (w.node t).safra with state := .passive, color := .white, token := none } })
    {p : PID N} (hp : p = t ∨ (w.node p).safra.color = .white)
    : (w'.node p).safra.color = .white := by
  by_cases heq : p = t
  . rw [heq, hnode, Function.update_self]
  . rw [hnode, Function.update_of_ne heq]
    exact hp.resolve_left heq

variable [NeZero N]

theorem Quiet.passed (h : Quiet w t tok)
    (hnode : w'.node = Function.update w.node t
      { w.node t with
          safra := { (w.node t).safra with state := .passive, color := .white, token := none } })
    (hnet : w'.net
      = {⟨nextProcess t, .tokenHolder t (nextProcess t) (passOn t (w.node t).safra tok)⟩})
    : Quiet w' (nextProcess t) (passOn t (w.node t).safra tok) := by
  have hcount := ring_count_of hnode rfl rfl
  constructor
  . intro p
    by_cases hp : p = t
    . rw [hp, hnode, Function.update_self]
    . rw [hnode, Function.update_of_ne hp, h.passive]
  . intro p
    by_cases hp : p = t
    . rw [hp, hnode, Function.update_self]
    . rw [hnode, Function.update_of_ne hp, h.unheld]
  . exact ⟨_, _, hnet⟩
  . intro p
    rw [hcount, ← h.counts]
    by_cases hp : p = t
    . rw [hp, hnode, Function.update_self]
    . rw [hnode, Function.update_of_ne hp]
  . rw [← h.balance]
    exact Finset.sum_congr rfl (fun p _ => hcount p)

theorem le_nextProcess (ht : t ≠ initiator) (p : PID N) : p ≤ nextProcess t ↔ p < t := by
  have hval := nextProcess_val ht
  rw [Fin.le_def, Fin.lt_def]
  omega

theorem Lap.pass (h : Lap w t tok k) (hquiet : Quiet w t tok) (ht : t ≠ initiator)
    (hnode : w'.node = Function.update w.node t
      { w.node t with
          safra := { (w.node t).safra with state := .passive, color := .white, token := none } })
    : Lap w' (nextProcess t) (passOn t (w.node t).safra tok) k := by
  have hnext := le_nextProcess ht
  rw [passOn, if_neg ht]
  cases h with
  | third hcolor hcount hwhite =>
    have hself := hwhite t (le_refl t)
    apply Lap.third
    . simp [hself, hcolor]
    . simp only [ring_count_of hnode rfl rfl]
      rw [Probe.sum_after_pred _ hnext, Int64.ofInt_add, hcount, hquiet.counts]
    . intro p hp
      exact color_passed hnode (.inr (hwhite p (le_of_lt ((hnext p).mp hp))))
  | second hwhite =>
    apply Lap.second
    intro p hp
    rw [← not_le, hnext, not_lt, le_iff_eq_or_lt] at hp
    apply color_passed hnode
    rcases hp with hp | hp
    . exact .inl hp.symm
    . exact .inr (hwhite p hp)
  | first => exact .first

theorem Lap.restart (h : Lap w t tok k) (hquiet : Quiet w t tok) (ht : t = initiator)
    (hdetected : ¬ Detected t (w.node t).safra tok)
    (hnode : w'.node = Function.update w.node t
      { w.node t with
          safra := { (w.node t).safra with state := .passive, color := .white, token := none } })
    : 0 < k ∧ Lap w' (nextProcess t) (passOn t (w.node t).safra tok) (k - 1) := by
  have hfirst : ∀ p, t ≤ p := by
    intro p
    rw [ht, Fin.le_def]
    exact Nat.zero_le _
  have hlast : ∀ p, p ≤ nextProcess t := by
    rw [ht]
    exact le_nextProcess_initiator
  rw [passOn, if_pos ht]
  cases h with
  | third hcolor hcount hwhite =>
    -- the token comes back white with the opposite of the counter of the initiator
    have hsum := Probe.sum_after_first (ring w).count hfirst
    rw [← Probe.Computation.inFlight, hquiet.balance] at hsum
    have hzero : (w.node t).safra.msgCount.toInt64 + tok.count = 0 := by
      rw [hcount, hquiet.counts, ← Int64.ofInt_add, ← hsum]
      rfl
    exact absurd ⟨hcolor, ht, hzero, hwhite t (le_refl t), hquiet.passive t⟩ hdetected
  | second hwhite =>
    refine ⟨Nat.one_pos, ?_⟩
    apply Lap.third rfl
    . rw [Probe.sum_after_last _ hlast]
      rfl
    . intro p _
      apply color_passed hnode
      rcases eq_or_lt_of_le (hfirst p) with hp | hp
      . exact .inl hp.symm
      . exact .inr (hwhite p hp)
  | first =>
    refine ⟨Nat.two_pos, ?_⟩
    apply Lap.second
    intro p hp
    exact absurd (hlast p) (not_le.mpr hp)

theorem Lap.step [Message N M] (h : Lap w t tok k) (hquiet : Quiet w t tok)
    {a : Action (PID N) (Event (TerminationSignal S) M) Unit (SafraMessage N M)}
    {out : List (Envelope (PID N) (SafraMessage N M))} (hst : program.Step w ⟨a, out⟩ w')
    (ha : ∃ p m i, a = .receive p m i)
    : (∃ env, env ∈ out ∧ env.msg.isAnnounce)
      ∨ ∃ t' tok' k', Quiet w' t' tok' ∧ Lap w' t' tok' k' ∧ t'.val + k' * N < t.val + k * N := by
  cases hquiet.step_cases hst with
  | idle p ie =>
    obtain ⟨_, _, _, ha⟩ := ha
    cases ha
  | announced q dest w' htoken =>
    exact .inl ⟨⟨t, .announce t Finset.univ⟩, mem_fanOut_announce.mpr rfl, rfl⟩
  | passed q dest w' htoken hdetected hnode hnet =>
    right
    by_cases ht : t = initiator
    . obtain ⟨hpos, hlap⟩ := h.restart hquiet ht hdetected hnode
      refine ⟨_, _, _, hquiet.passed hnode hnet, hlap, ?_⟩
      have hlt := (nextProcess t).isLt
      obtain ⟨k, rfl⟩ := Nat.exists_eq_add_of_le' hpos
      rw [Nat.add_sub_cancel, Nat.succ_mul]
      omega
    . refine ⟨_, _, k, hquiet.passed hnode hnet, h.pass hquiet ht hnode, ?_⟩
      have hval := nextProcess_val ht
      omega

end Laps

section Detection

variable [Message N M] [NeZero N]

variable {w : Run N M}

theorem kept_of_reach
    (h : (program (S := S)).lts.Reach (fun _ l _ => ∀ env, env ∈ l.out → ¬ env.msg.isAnnounce) w)
    : TokenKept w ∧ (∀ p, (w.node p).safra.msgCount = Int32.ofInt ((ring w).count p))
      ∧ (ring w).inFlight = payloads w.net := by
  apply LTS.Reach.invariant (I := fun w => TokenKept w
    ∧ (∀ p, (w.node p).safra.msgCount = Int32.ofInt ((ring w).count p))
    ∧ (ring w).inFlight = payloads w.net) _ _ h
  . rintro w rfl
    exact ⟨TokenKept.init, Inv.init.counts, Inv.init.flight⟩
  . rintro w ⟨a, out⟩ w' - ⟨hkept, hcounts, hflight⟩ hst hout
    exact ⟨hkept.step hst hout, counts_step hst hcounts, flight_step hst hflight⟩

end Detection

section Overflow

end Overflow

end SafraTerminationDetection
