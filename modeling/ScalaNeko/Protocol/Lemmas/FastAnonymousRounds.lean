import Mathlib.Algebra.BigOperators.Fin
import Mathlib.Algebra.Order.BigOperators.Group.Finset
import Mathlib.Tactic.Abel
import ScalaNeko.Lib.Record
import ScalaNeko.Network.Lemmas
import ScalaNeko.Protocol.Impl.FastAnonymousRounds

/-!
The coordinator gives all processes the same lists of contents. It announces a list when it has
collected one proposal of each process, and no process proposes again before it is delivered the
list.
-/

open AsyncNetwork

namespace FastAnonymousRounds

open Message (destinations)

abbrev Run (N : Nat) (A : Type) := World (PID N) (Node N A) (FastAnonymousMessage N A)

abbrev Net (N : Nat) (A : Type) := Multiset (Envelope (PID N) (FastAnonymousMessage N A))

variable {N : Nat} {S M A : Type}

def isRound : FastAnonymousMessage N A → Bool
  | .round _ _ _ _ => true
  | .roundPropose _ _ _ _ => false

def Node.startRounds (node : Node N A) : List (StartRound A) :=
  node.signals.filterMap fun
    | .initRound => none
    | .startRound e => some e

def Node.proposed (node : Node N A) : List A := node.proposes.map Prod.fst

/-!
What is in flight.
-/

section Net

variable {net net' : Net N A} {p : PID N} {e : FastAnonymousMessage N A}

-- The messages of one class that are in flight to `p`.
def inFlight (round : Bool) (net : Net N A) (p : PID N) : Multiset (FastAnonymousMessage N A) :=
  (undelivered net p).filter (fun e => isRound e = round)

theorem inFlight_add (round : Bool)
    : inFlight round (net + net') p = inFlight round net p + inFlight round net' p := by
  rw [inFlight, undelivered_add, Multiset.filter_add]
  rfl

theorem inFlight_transmit (round : Bool) (e : FastAnonymousMessage N A) (p : PID N)
    : inFlight round ↑(transmit [(.message e : Event (ClientSignal S A) _)]) p
      = if p ∈ destinations e ∧ isRound e = round then {e} else 0 := by
  have htransmit : transmit [(.message e : Event (ClientSignal S A) _)] = fanOut e :=
    List.append_nil _
  rw [htransmit, inFlight, undelivered_fanOut]
  by_cases hp : p ∈ destinations e
  . simp only [hp, if_true, true_and]
    rw [Multiset.filter_singleton]
    rfl
  . simp only [hp, if_false, false_and]
    rfl

theorem inFlight_taken (hnet : net = ⟨p, e⟩ ::ₘ net')
    : inFlight (isRound e) net p = e ::ₘ inFlight (isRound e) net' p := by
  have hfilter := Multiset.filter_cons_of_pos (p := fun x => isRound x = isRound e) (a := e)
    (undelivered net' p) rfl
  rw [inFlight, undelivered_taken hnet, hfilter]
  rfl

theorem inFlight_rest (hnet : net = ⟨p, e⟩ ::ₘ net') {round : Bool} {q : PID N}
    (h : q ≠ p ∨ isRound e ≠ round)
    : inFlight round net' q = inFlight round net q := by
  rw [inFlight, inFlight]
  by_cases hq : q = p
  . subst hq
    have hfilter := Multiset.filter_cons_of_neg (p := fun x => isRound x = round) (a := e)
      (undelivered net' q) (h.resolve_left (fun hne => hne rfl))
    rw [undelivered_taken hnet, hfilter]
  . rw [undelivered_rest hnet, Function.update_of_ne hq]

end Net

/-!
What is expected of the processes, when the coordinator has announced `lists`.
-/

def starts (lists : List (List A)) : List (StartRound A) :=
  lists.mapIdx (fun i all => ⟨Int32.ofNat (i + 1), all⟩)

-- What a process is still to receive when it has been delivered `k` of the `lists`.
def announcement (p : PID N) (lists : List (List A)) (k : Nat)
    : Multiset (FastAnonymousMessage N A) :=
  Multiset.ofList
    (lists[k]?.toList.map (fun all => .round p Finset.univ all (Int32.ofNat (k + 1))))

def proposal (round : Nat) (x : PID N × A) : FastAnonymousMessage N A :=
  .roundPropose x.1 (coordinator x.1) x.2 (Int32.ofNat round)

def proposals (round : Nat) (p : PID N) (proposed : List A)
    : Multiset (FastAnonymousMessage N A) :=
  Multiset.ofList (proposed[round]?.toList.map (fun a => proposal round (p, a)))

theorem proposal_injective (round : Nat)
    : Function.Injective (proposal round : PID N × A → FastAnonymousMessage N A) := by
  rintro ⟨p, a⟩ ⟨q, b⟩ h
  simp only [proposal, FastAnonymousMessage.roundPropose.injEq] at h
  obtain ⟨rfl, -, rfl, -⟩ := h
  rfl

theorem announcement_eq_cons {p : PID N} {lists : List (List A)} {k : Nat}
    {e : FastAnonymousMessage N A} {rest : Multiset (FastAnonymousMessage N A)}
    (h : announcement p lists k = e ::ₘ rest)
    : ∃ all, lists[k]? = some all ∧ e = .round p Finset.univ all (Int32.ofNat (k + 1))
        ∧ rest = 0 := by
  unfold announcement at h
  cases hall : lists[k]? with
  | none =>
    rw [hall] at h
    exact absurd h Multiset.zero_ne_cons
  | some all =>
    rw [hall] at h
    obtain ⟨rfl, rfl⟩ := (Multiset.singleton_eq_cons_iff rest).mp h
    exact ⟨all, rfl, rfl, rfl⟩

theorem mem_proposals {round : Nat} {p : PID N} {proposed : List A} {e : FastAnonymousMessage N A}
    : e ∈ proposals round p proposed ↔ ∃ a, proposed[round]? = some a ∧ proposal round (p, a) = e := by
  rw [proposals, Multiset.mem_coe, List.mem_map]
  simp only [Option.mem_toList]

theorem card_proposals (round : Nat) (p : PID N) (proposed : List A)
    : (proposals round p proposed).card = if round < proposed.length then 1 else 0 := by
  rw [proposals, Multiset.coe_card, List.length_map]
  by_cases h : round < proposed.length
  . rw [if_pos h, List.getElem?_eq_getElem h]
    rfl
  . rw [if_neg h, List.getElem?_eq_none (Nat.le_of_not_lt h)]
    rfl

theorem card_sum_proposals (round : Nat) (proposed : PID N → List A)
    : (∑ q, proposals round q (proposed q)).card
      = (Finset.univ.filter (fun q => round < (proposed q).length)).card := by
  rw [Multiset.card_sum, Finset.card_filter]
  apply Finset.sum_congr rfl
  intro q _
  exact card_proposals round q (proposed q)

/--
A list of contents of which each process has proposed one, as its proposal for the given round.
-/
def Permutes (proposed : PID N → List A) (round : Nat) (all : List A) : Prop :=
  ∃ content : PID N → A, (∀ q, (proposed q)[round]? = some (content q))
    ∧ all.Perm (List.ofFn content)

theorem permutes_of_collected {round : Nat} {proposed : PID N → List A}
    {collected : List (PID N × A)}
    (hcollected : (↑(collected.map (proposal round)) : Multiset (FastAnonymousMessage N A))
      = ∑ q, proposals round q (proposed q))
    (hall : ∀ q, round < (proposed q).length)
    : Permutes proposed round (collected.map Prod.snd) := by
  let content : PID N → A := fun q => (proposed q).get ⟨round, hall q⟩
  have hcontent : ∀ q, (proposed q)[round]? = some (content q) :=
    fun q => List.getElem?_eq_getElem (hall q)
  refine ⟨content, hcontent, ?_⟩
  have hsingle : ∀ q, proposals round q (proposed q) = {proposal round (q, content q)} := by
    intro q
    rw [proposals, hcontent q]
    rfl
  have hpairs : (↑collected : Multiset (PID N × A)) = Finset.univ.val.map (fun q => (q, content q)) := by
    apply Multiset.map_injective (proposal_injective round)
    rw [Multiset.map_coe, hcollected, Multiset.map_map, Finset.sum, Multiset.map_congr rfl
      (fun q _ => hsingle q)]
    have hsum := Multiset.sum_map_singleton
      (Finset.univ.val.map (fun q => proposal round (q, content q)))
    rw [Multiset.map_map] at hsum
    exact hsum
  rw [← Multiset.coe_eq_coe, ← Multiset.map_coe, hpairs, Multiset.map_map, ← Fin.univ_val_map]
  rfl

theorem Permutes.append {proposed proposed' : PID N → List A} {round : Nat} {all : List A}
    (h : Permutes proposed round all) (hinitial : ∀ q, proposed q <+: proposed' q)
    : Permutes proposed' round all := by
  obtain ⟨content, hcontent, hperm⟩ := h
  exact ⟨content, fun q => Record.getElem?_of_prefix (hinitial q) (hcontent q), hperm⟩

theorem length_starts (lists : List (List A)) : (starts lists).length = lists.length :=
  List.length_mapIdx

theorem starts_append (lists : List (List A)) (all : List A)
    : starts (lists ++ [all]) = starts lists ++ [⟨Int32.ofNat (lists.length + 1), all⟩] :=
  List.mapIdx_concat

theorem getElem?_starts (lists : List (List A)) (i : Nat)
    : (starts lists)[i]? = lists[i]?.map (fun all => ⟨Int32.ofNat (i + 1), all⟩) :=
  List.getElem?_mapIdx

theorem ofNat_succ (k : Nat) : Int32.ofNat k + 1 = Int32.ofNat (k + 1) :=
  (Int32.ofNat_add k 1).symm

/--
Where a process stands when the coordinator has announced `lists`.
-/
structure Placed (lists : List (List A)) (node : Node N A) : Prop where
  startRounds : node.startRounds <+: starts lists
  length_signals : node.signals.length = node.startRounds.length + if node.isStarted then 1 else 0
  sendRound : node.rounds.sendRound = Int32.ofNat node.startRounds.length
  announced : lists.length ≤ node.proposed.length
  proposed : node.proposed.length ≤ node.signals.length
  round : ∀ i x, node.proposes[i]? = some x → x.2 = Int32.ofNat i
  unmatched : node.unmatched = []

theorem proposed_append (node : Node N A) (a : A) (round : Int32)
    : Node.proposed { node with proposes := node.proposes ++ [(a, round)] } = node.proposed ++ [a] :=
  List.map_append

namespace Placed

variable {lists : List (List A)} {node : Node N A}

theorem init : Placed [] ({} : Node N A) where
  startRounds := List.nil_prefix
  length_signals := rfl
  sendRound := rfl
  announced := Nat.le_refl 0
  proposed := Nat.le_refl 0
  round := nofun
  unmatched := rfl

theorem startRounds_le (h : Placed lists node) : node.startRounds.length ≤ lists.length := by
  have hle := h.startRounds.length_le
  rwa [length_starts] at hle

theorem signals_le (h : Placed lists node)
    : node.signals.length ≤ node.startRounds.length + 1 := by
  rw [h.length_signals]
  split
  . exact Nat.le_refl _
  . exact Nat.le_succ _

theorem lists_le (h : Placed lists node) : lists.length ≤ node.startRounds.length + 1 := by
  have hannounced := h.announced
  have hproposed := h.proposed
  have hsignals := h.signals_le
  omega

theorem proposed_le (h : Placed lists node) : node.proposed.length ≤ lists.length + 1 := by
  have hproposed := h.proposed
  have hsignals := h.signals_le
  have hstarts := h.startRounds_le
  omega

theorem timer (h : Placed lists node) (hnew : node.isStarted = false)
    : Placed lists { node with isStarted := true, signals := node.signals ++ [.initRound] } := by
  have hsame : Node.startRounds { node with
      isStarted := true, signals := node.signals ++ [.initRound] } = node.startRounds := by
    simp [Node.startRounds]
  have hlength := h.length_signals
  constructor
  . rw [hsame]
    exact h.startRounds
  . simp only [hnew] at hlength
    rw [hsame, List.length_append, hlength]
    rfl
  . rw [hsame]
    exact h.sendRound
  . exact h.announced
  . rw [List.length_append]
    exact Nat.le_add_right_of_le h.proposed
  . exact h.round
  . exact h.unmatched

theorem propose (h : Placed lists node) (hround : node.proposed.length = lists.length)
    (hlt : lists.length < node.signals.length) (a : A)
    : Placed lists
        { node with proposes := node.proposes ++ [(a, Int32.ofNat lists.length)] } where
  startRounds := h.startRounds
  length_signals := h.length_signals
  sendRound := h.sendRound
  announced := by
    rw [proposed_append, List.length_append, hround]
    exact Nat.le_succ _
  proposed := by
    rw [proposed_append, List.length_append, hround]
    exact hlt
  round := by
    rw [Node.proposed, List.length_map] at hround
    intro i x hx
    rcases Record.getElem?_snoc hx with hold | ⟨heq, hlast⟩
    . exact h.round i x hold
    . rw [hlast, heq, hround]
  unmatched := h.unmatched

theorem collect {rounds : FastAnonymousRounds A} (h : Placed lists node)
    (hsame : rounds.sendRound = node.rounds.sendRound)
    : Placed lists { node with rounds } where
  startRounds := h.startRounds
  length_signals := h.length_signals
  sendRound := hsame.trans h.sendRound
  announced := h.announced
  proposed := h.proposed
  round := h.round
  unmatched := h.unmatched

theorem announce (h : Placed lists node) (hlt : lists.length < node.proposed.length)
    (all : List A)
    : Placed (lists ++ [all]) node where
  startRounds := by
    rw [starts_append]
    exact h.startRounds.trans (List.prefix_append _ _)
  length_signals := h.length_signals
  sendRound := h.sendRound
  announced := by
    rw [List.length_append]
    exact hlt
  proposed := h.proposed
  round := h.round
  unmatched := h.unmatched

theorem deliver {all : List A} {k : Nat} (h : Placed lists node)
    (hk : node.startRounds.length = k) (hall : lists[k]? = some all)
    : let node' := { node with
        rounds := { node.rounds with sendRound := Int32.ofNat (k + 1) }
        signals := node.signals ++ [.startRound ⟨Int32.ofNat (k + 1), all⟩] }
      node'.startRounds.length = k + 1 ∧ Placed lists node' := by
  intro node'
  have hstarts : node'.startRounds = node.startRounds ++ [⟨Int32.ofNat (k + 1), all⟩] := by
    simp [node', Node.startRounds]
  have hlength : node'.startRounds.length = k + 1 := by
    rw [hstarts, List.length_append, hk]
    rfl
  refine ⟨hlength, ?_, ?_, ?_, h.announced, ?_, h.round, h.unmatched⟩
  . rw [List.prefix_iff_eq_take, hlength, List.take_add_one, getElem?_starts, hall, hstarts, ← hk,
      ← List.prefix_iff_eq_take.mp h.startRounds]
    rfl
  . rw [hlength, List.length_append, h.length_signals, hk]
    dsimp only [node']
    simp only [List.length_singleton]
    omega
  . rw [hlength]
  . rw [List.length_append]
    exact Nat.le_add_right_of_le h.proposed

end Placed

structure Inv (me : PID N) (lists : List (List A)) (collected : List (PID N × A)) (w : Run N A)
    : Prop where
  placed : ∀ p, Placed lists (w.node p)
  permutes : ∀ i all, lists[i]? = some all → Permutes (fun q => (w.node q).proposed) i all
  roundNum : (w.node (coordinator me)).rounds.roundNum = Int32.ofNat lists.length
  anonList : (w.node (coordinator me)).rounds.anonList = collected.map Prod.snd
  few : collected.length < N
  announced : ∀ p, inFlight true w.net p
    = announcement (coordinator me) lists (w.node p).startRounds.length
  pending : inFlight false w.net (coordinator me) + ↑(collected.map (proposal lists.length))
    = ∑ q, proposals lists.length q (w.node q).proposed
  elsewhere : ∀ p, p ≠ coordinator me → inFlight false w.net p = 0

namespace Inv

variable {me p : PID N} {lists : List (List A)} {collected collected' : List (PID N × A)}
variable {w : Run N A} {node' : Node N A} {net' : Net N A}

theorem init (me : PID N) : Inv me [] [] ⟨fun _ => ({} : Node N A), 0⟩ where
  placed := fun _ => .init
  permutes := nofun
  roundNum := rfl
  anonList := rfl
  few := me.pos
  announced := fun _ => rfl
  pending := (Finset.sum_const_zero).symm
  elsewhere := fun _ _ => rfl

theorem update (h : Inv me lists collected w) (hplaced : Placed lists node')
    (hinitial : (w.node p).proposed <+: node'.proposed)
    (hrounds : p = coordinator me → node'.rounds.roundNum = (w.node p).rounds.roundNum
      ∧ node'.rounds.anonList = collected'.map Prod.snd)
    (hcollected : p ≠ coordinator me → collected' = collected) (hfew : collected'.length < N)
    (hannounced : ∀ q, q ≠ p → inFlight true net' q = inFlight true w.net q)
    (hannounced' : inFlight true net' p
      = announcement (coordinator me) lists node'.startRounds.length)
    (hpending : inFlight false net' (coordinator me) + ↑(collected'.map (proposal lists.length))
      = ∑ q, proposals lists.length q (Function.update w.node p node' q).proposed)
    (helsewhere : ∀ q, q ≠ coordinator me → inFlight false net' q = 0)
    : Inv me lists collected' ⟨Function.update w.node p node', net'⟩ := by
  have hgrows : ∀ q, (w.node q).proposed <+: (Function.update w.node p node' q).proposed := by
    intro q
    by_cases hq : q = p
    . subst hq
      rw [Function.update_self]
      exact hinitial
    . rw [Function.update_of_ne hq]
  constructor
  . exact (Function.forall_update_iff w.node (fun _ x => Placed lists x)).mpr
      ⟨hplaced, fun q _ => h.placed q⟩
  . intro i all hall
    exact (h.permutes i all hall).append hgrows
  . by_cases hp : coordinator me = p
    . dsimp only
      rw [hp, Function.update_self, (hrounds hp.symm).1, ← hp, h.roundNum]
    . dsimp only
      rw [Function.update_of_ne hp, h.roundNum]
  . by_cases hp : coordinator me = p
    . dsimp only
      rw [hp, Function.update_self, (hrounds hp.symm).2]
    . dsimp only
      rw [Function.update_of_ne hp, h.anonList, hcollected (fun heq => hp heq.symm)]
  . exact hfew
  . intro q
    by_cases hq : q = p
    . subst hq
      dsimp only
      rw [hannounced', Function.update_self]
    . dsimp only
      rw [hannounced q hq, h.announced, Function.update_of_ne hq]
  . exact hpending
  . exact helsewhere

-- The proposals that count are those for the current round.
theorem sum_proposals_update (node' : Node N A) (round : Nat)
    : ∑ q, proposals round q (Function.update w.node p node' q).proposed
        + proposals round p (w.node p).proposed
      = ∑ q, proposals round q (w.node q).proposed + proposals round p node'.proposed := by
  have hupdate := Fintype.sum_eq_add_sum_compl p
    (fun q => proposals round q (Function.update w.node p node' q).proposed)
  have hsame := Fintype.sum_eq_add_sum_compl p (fun q => proposals round q (w.node q).proposed)
  have hrest : ∑ q ∈ {p}ᶜ, proposals round q (Function.update w.node p node' q).proposed
      = ∑ q ∈ {p}ᶜ, proposals round q (w.node q).proposed := by
    apply Finset.sum_congr rfl
    intro q hq
    rw [Finset.mem_compl, Finset.mem_singleton] at hq
    rw [Function.update_of_ne hq]
  rw [hupdate, hsame, hrest, Function.update_self]
  abel

theorem sum_proposals_of_eq (heq : node'.proposed = (w.node p).proposed) (round : Nat)
    : ∑ q, proposals round q (Function.update w.node p node' q).proposed
      = ∑ q, proposals round q (w.node q).proposed := by
  apply Finset.sum_congr rfl
  intro q _
  rw [field_update Node.proposed heq]

theorem idle (h : Inv me lists collected w) (hplaced : Placed lists node')
    (hproposed : node'.proposed = (w.node p).proposed) (hrounds : node'.rounds = (w.node p).rounds)
    (hstarts : node'.startRounds.length = (w.node p).startRounds.length)
    : Inv me lists collected ⟨Function.update w.node p node', w.net⟩ := by
  apply h.update hplaced
  . rw [hproposed]
  . intro hp
    rw [hrounds, hp]
    exact ⟨rfl, h.anonList⟩
  . exact fun _ => rfl
  . exact h.few
  . exact fun _ _ => rfl
  . rw [hstarts]
    exact h.announced p
  . rw [sum_proposals_of_eq hproposed]
    exact h.pending
  . exact h.elsewhere

theorem propose (h : Inv me lists collected w) (a : A)
    (hle : (w.node p).proposed.length + 1 ≤ (w.node p).signals.length)
    : Inv me lists collected
        ⟨Function.update w.node p { w.node p with
            proposes := (w.node p).proposes ++ [(a, (w.node p).rounds.sendRound)] },
          ↑(transmit [(.message (.roundPropose p (coordinator p) a (w.node p).rounds.sendRound)
            : Event (ClientSignal S A) (FastAnonymousMessage N A))]) + w.net⟩ := by
  have hplaced := h.placed p
  have hsignals := hplaced.signals_le
  have hstarts := hplaced.startRounds_le
  have hannounced := hplaced.announced
  have hround : (w.node p).startRounds.length = lists.length := by omega
  have hproposed : (w.node p).proposed.length = lists.length := by omega
  have hsend : (w.node p).rounds.sendRound = Int32.ofNat lists.length := by
    rw [hplaced.sendRound, hround]
  have hmsg : FastAnonymousMessage.roundPropose p (coordinator p) a (Int32.ofNat lists.length)
      = proposal lists.length (p, a) := rfl
  have hnode := proposed_append (w.node p) a (Int32.ofNat lists.length)
  rw [hsend, hmsg]
  apply h.update
  . exact hplaced.propose hproposed (by omega) a
  . rw [hnode]
    exact List.prefix_append _ _
  . intro hp
    refine ⟨rfl, ?_⟩
    dsimp only
    rw [hp, h.anonList]
  . exact fun _ => rfl
  . exact h.few
  . intro q _
    rw [inFlight_add, inFlight_transmit, if_neg (by simp [proposal, isRound]), Multiset.zero_add]
  . rw [inFlight_add, inFlight_transmit, if_neg (by simp [proposal, isRound]), Multiset.zero_add]
    exact h.announced p
  . have hsum := sum_proposals_update (w := w) (p := p) { w.node p with
      proposes := (w.node p).proposes ++ [(a, Int32.ofNat lists.length)] } lists.length
    have hbefore : proposals lists.length p (w.node p).proposed = 0 := by
      rw [proposals, List.getElem?_eq_none (Nat.le_of_eq hproposed)]
      rfl
    have hafter : proposals lists.length p ((w.node p).proposed ++ [a])
        = {proposal lists.length (p, a)} := by
      rw [proposals, ← hproposed, List.getElem?_concat_length]
      rfl
    rw [hnode, hbefore, hafter, ← h.pending, Multiset.add_zero] at hsum
    rw [hsum, inFlight_add, inFlight_transmit, if_pos ⟨Finset.mem_singleton_self _, rfl⟩]
    abel
  . intro q hq
    rw [inFlight_add, inFlight_transmit, if_neg, Multiset.zero_add]
    . exact h.elsewhere q hq
    . rintro ⟨hmem, -⟩
      exact hq (Finset.mem_singleton.mp hmem)

theorem deliver {e : FastAnonymousMessage N A} (h : Inv me lists collected w)
    (hnet : w.net = ⟨p, e⟩ ::ₘ net') (hround : isRound e = true)
    : ∃ all, let k := (w.node p).startRounds.length
        let node' := { w.node p with
          rounds := { (w.node p).rounds with sendRound := Int32.ofNat (k + 1) }
          signals := (w.node p).signals ++ [.startRound ⟨Int32.ofNat (k + 1), all⟩] }
        e = .round (coordinator me) Finset.univ all (Int32.ofNat (k + 1))
          ∧ Inv me lists collected ⟨Function.update w.node p node', net'⟩ := by
  have hplaced := h.placed p
  have htaken := inFlight_taken hnet
  rw [hround, h.announced p] at htaken
  obtain ⟨all, hall, rfl, hrest⟩ := announcement_eq_cons htaken
  obtain ⟨hk, hplaced'⟩ := hplaced.deliver rfl hall
  refine ⟨all, rfl, ?_⟩
  apply h.update hplaced'
  . rfl
  . intro hp
    refine ⟨rfl, ?_⟩
    dsimp only
    rw [hp, h.anonList]
  . exact fun _ => rfl
  . exact h.few
  . exact fun q hq => inFlight_rest hnet (.inl hq)
  . rw [hk, hrest]
    have hle := hplaced.lists_le
    rw [announcement, List.getElem?_eq_none hle]
    rfl
  . rw [sum_proposals_of_eq (by rfl), inFlight_rest hnet (.inr (by rw [hround]; nofun))]
    exact h.pending
  . intro q hq
    rw [inFlight_rest hnet (.inr (by rw [hround]; nofun))]
    exact h.elsewhere q hq

/--
A proposal that arrives is one for the current round, and it arrives at the coordinator.
-/
theorem exists_proposal {e : FastAnonymousMessage N A} (h : Inv me lists collected w)
    (hnet : w.net = ⟨p, e⟩ ::ₘ net') (hround : isRound e = false)
    : p = coordinator me ∧ ∃ x, e = proposal lists.length x
        ∧ inFlight false net' p + ↑((x :: collected).map (proposal lists.length))
          = ∑ q, proposals lists.length q (w.node q).proposed := by
  have htaken := inFlight_taken hnet
  rw [hround] at htaken
  have hp : p = coordinator me := by
    by_contra hne
    rw [h.elsewhere p hne] at htaken
    exact Multiset.zero_ne_cons htaken
  refine ⟨hp, ?_⟩
  have hpending := h.pending
  rw [← hp, htaken, Multiset.cons_add] at hpending
  have hmem : e ∈ ∑ q, proposals lists.length q (w.node q).proposed := by
    rw [← hpending]
    exact Multiset.mem_cons_self _ _
  obtain ⟨q, -, hq⟩ := Multiset.mem_sum.mp hmem
  obtain ⟨a, -, rfl⟩ := mem_proposals.mp hq
  refine ⟨(q, a), rfl, ?_⟩
  rw [← hpending, List.map_cons, ← Multiset.cons_coe, Multiset.add_cons]

theorem collect {x : PID N × A} (h : Inv me lists collected w)
    (hnet : w.net = ⟨p, proposal lists.length x⟩ ::ₘ net') (hp : p = coordinator me)
    (hsum : inFlight false net' p + ↑((x :: collected).map (proposal lists.length))
      = ∑ q, proposals lists.length q (w.node q).proposed)
    (hlt : collected.length + 1 < N)
    : Inv me lists (x :: collected)
        ⟨Function.update w.node p { w.node p with
          rounds := { (w.node p).rounds with anonList := x.2 :: (w.node p).rounds.anonList } },
          net'⟩ := by
  apply h.update
  . apply (h.placed p).collect
    rfl
  . rfl
  . intro _
    refine ⟨rfl, ?_⟩
    dsimp only
    rw [hp, h.anonList]
    rfl
  . exact fun hne => absurd hp hne
  . exact hlt
  . exact fun q hq => inFlight_rest hnet (.inl hq)
  . rw [inFlight_rest hnet (.inr (by simp [proposal, isRound]))]
    exact h.announced p
  . rw [sum_proposals_of_eq (by rfl), ← hp]
    exact hsum
  . intro q hq
    rw [inFlight_rest hnet (.inl (by rw [hp]; exact hq))]
    exact h.elsewhere q hq

theorem all_proposed {x : PID N × A} (h : Inv me lists collected w)
    (hsum : inFlight false net' p + ↑((x :: collected).map (proposal lists.length))
      = ∑ q, proposals lists.length q (w.node q).proposed)
    (heq : collected.length + 1 = N)
    : inFlight false net' p = 0 ∧ ∀ q, (w.node q).proposed.length = lists.length + 1 := by
  have hcard := congrArg Multiset.card hsum
  rw [card_sum_proposals, Multiset.card_add, Multiset.coe_card, List.length_map, List.length_cons,
    heq] at hcard
  have hle := Finset.card_filter_le Finset.univ
    (fun q => lists.length < (w.node q).proposed.length)
  rw [Finset.card_univ, Fintype.card_fin] at hle
  constructor
  . rw [← Multiset.card_eq_zero]
    omega
  . intro q
    have hfilter := (Finset.card_filter_eq_iff (s := Finset.univ)
      (p := fun q => lists.length < (w.node q).proposed.length)).mp
      (by rw [Finset.card_univ, Fintype.card_fin]; omega)
    have hlt := hfilter q (Finset.mem_univ q)
    have hproposed := (h.placed q).proposed_le
    omega

theorem announce {x : PID N × A} (h : Inv me lists collected w)
    (hnet : w.net = ⟨p, proposal lists.length x⟩ ::ₘ net') (hp : p = coordinator me)
    (hsum : inFlight false net' p + ↑((x :: collected).map (proposal lists.length))
      = ∑ q, proposals lists.length q (w.node q).proposed)
    (heq : collected.length + 1 = N)
    : let anonList := x.2 :: (w.node p).rounds.anonList
      let roundNum := (w.node p).rounds.roundNum + 1
      Inv me (lists ++ [anonList]) []
        ⟨Function.update w.node p { w.node p with
          rounds := { (w.node p).rounds with roundNum, anonList := [] } },
          ↑(transmit [(.message (.round p Finset.univ anonList roundNum)
            : Event (ClientSignal S A) (FastAnonymousMessage N A))]) + net'⟩ := by
  intro anonList roundNum
  obtain ⟨hnone, hall⟩ := h.all_proposed hsum heq
  have hsame : ∀ q, (Function.update w.node p { w.node p with
      rounds := { (w.node p).rounds with roundNum, anonList := [] } } q).proposed
        = (w.node q).proposed :=
    field_update Node.proposed rfl
  have hlist : anonList = (x :: collected).map Prod.snd := by
    rw [List.map_cons, ← h.anonList, ← hp]
  constructor
  . have hplaced : ∀ q, Placed (lists ++ [anonList]) (w.node q) :=
      fun q => (h.placed q).announce (by rw [hall q]; exact Nat.lt_succ_self _) anonList
    exact (Function.forall_update_iff w.node (fun _ x => Placed (lists ++ [anonList]) x)).mpr
      ⟨(hplaced p).collect rfl, fun q _ => hplaced q⟩
  . intro i all hi
    simp only [hsame]
    rcases Record.getElem?_snoc hi with hold | ⟨heq, hlast⟩
    . exact h.permutes i all hold
    . rw [heq, hlast, hlist]
      rw [hnone, Multiset.zero_add] at hsum
      exact permutes_of_collected hsum (fun q => by rw [hall q]; exact Nat.lt_succ_self _)
  . dsimp only
    rw [← hp, Function.update_self]
    dsimp only [roundNum]
    rw [hp, h.roundNum, ofNat_succ, List.length_append]
    rfl
  . dsimp only
    rw [← hp, Function.update_self]
    rfl
  . exact me.pos
  . intro q
    have hstarts : ∀ r, (Function.update w.node p { w.node p with
        rounds := { (w.node p).rounds with roundNum, anonList := [] } } r).startRounds
          = (w.node r).startRounds :=
      field_update Node.startRounds rfl
    have hk : (w.node q).startRounds.length = lists.length := by
      have hle := (h.placed q).startRounds_le
      have hproposed := (h.placed q).proposed
      have hsignals := (h.placed q).signals_le
      have hq := hall q
      omega
    have hbefore : inFlight true net' q = 0 := by
      rw [inFlight_rest hnet (.inr (by simp [proposal, isRound])), h.announced q, hk, announcement,
        List.getElem?_eq_none (Nat.le_refl _)]
      rfl
    dsimp only
    rw [inFlight_add, inFlight_transmit, if_pos ⟨Finset.mem_univ q, rfl⟩, hbefore, hstarts, hk,
      announcement, List.getElem?_concat_length, ← hp]
    dsimp only [roundNum]
    rw [hp, h.roundNum, ofNat_succ]
    rfl
  . dsimp only
    simp only [hsame]
    rw [inFlight_add, inFlight_transmit, if_neg (by simp [isRound]), ← hp, hnone,
      Finset.sum_eq_zero]
    . rfl
    . intro q _
      rw [proposals, List.getElem?_eq_none (by rw [hall q, List.length_append]; rfl)]
      rfl
  . intro q hq
    dsimp only
    rw [inFlight_add, inFlight_transmit, if_neg (by simp [isRound]),
      inFlight_rest hnet (.inl (by rw [hp]; exact hq)), h.elsewhere q hq]
    rfl

end Inv

/--
Every client answers each signal at most once.
-/
def Answers (w : Run N A) : Prop :=
  ∀ p, (w.node p).proposed.length ≤ (w.node p).signals.length

theorem onSend_cases {rounds : FastAnonymousRounds A} {p : PID N} {e : Event (ClientSignal S A) M}
    {sends : List (Event (ClientSignal S A) (FastAnonymousMessage N A))}
    (h : rounds.onSend p e = some sends)
    : (∃ a, e = .signal (.anonymous a)
        ∧ sends = [.message (.roundPropose p (coordinator p) a rounds.sendRound)])
      ∨ rounds.proposes e = [] ∧ transmit sends = [] := by
  match e with
  | .signal (.anonymous a) =>
    cases h
    exact .inl ⟨a, rfl, rfl⟩
  | .signal .done =>
    cases h
    exact .inr ⟨rfl, rfl⟩
  | .signal (.other ie) =>
    cases h
    exact .inr ⟨rfl, rfl⟩
  | .message m => cases h

theorem step_inv {me : PID N} {lists : List (List A)} {collected : List (PID N × A)} {w w' : Run N A}
    {l : Label (PID N) (Input S M A) Unit (FastAnonymousMessage N A)}
    (h : Inv me lists collected w) (hst : program.Step w l w') (hanswers : Answers w')
    : ∃ lists' collected', Inv me lists' collected' w' := by
  cases hst with
  | @input p i node' out hinput =>
    cases i with
    | timer =>
      simp only [program] at hinput
      split at hinput
      . cases hinput
      . next hnew =>
        cases hinput
        refine ⟨lists, collected, ?_⟩
        rw [Multiset.coe_nil, Multiset.zero_add]
        apply h.idle
        . exact (h.placed p).timer (eq_false_of_ne_true hnew)
        . rfl
        . rfl
        . simp [Node.startRounds]
    | client e =>
      simp only [program, Option.map_eq_some_iff, Prod.mk.injEq] at hinput
      obtain ⟨sends, hsends, rfl, rfl⟩ := hinput
      refine ⟨lists, collected, ?_⟩
      rcases onSend_cases hsends with ⟨a, rfl, rfl⟩ | ⟨hnone, hquiet⟩
      . apply h.propose
        have hle := hanswers p
        dsimp only at hle
        rw [Function.update_self] at hle
        simpa [Node.proposed, proposes] using hle
      . rw [hnone, hquiet, Multiset.coe_nil, Multiset.zero_add, List.append_nil]
        apply h.idle
        . exact h.placed p
        . rfl
        . rfl
        . rfl
  | @receive p e _ node' out rest hnet hreceive =>
    by_cases hround : isRound e = true
    . obtain ⟨all, rfl, hinv⟩ := h.deliver hnet hround
      refine ⟨lists, collected, ?_⟩
      simp only [program, onReceive, (h.placed p).sendRound, ofNat_succ, if_true] at hreceive
      cases hreceive
      rw [← Multiset.zero_add rest] at hinv
      exact hinv
    . obtain ⟨hp, x, rfl, hsum⟩ := h.exists_proposal hnet (eq_false_of_ne_true hround)
      have hnum : (w.node p).rounds.roundNum = Int32.ofNat lists.length := by
        rw [hp, h.roundNum]
      have hlength : (x.2 :: (w.node p).rounds.anonList).length = collected.length + 1 := by
        rw [hp, h.anonList, List.length_cons, List.length_map]
      have hcoordinator : p = coordinator p := hp
      simp only [program, onReceive, proposal] at hreceive
      rw [if_pos ⟨hcoordinator, hnum.symm⟩, hlength] at hreceive
      have hfew := h.few
      by_cases hN : collected.length + 1 = N
      . rw [if_pos hN] at hreceive
        cases hreceive
        have hinv := h.announce (S := S) hnet hp hsum hN
        rw [List.append_nil]
        exact ⟨_, _, hinv⟩
      . rw [if_neg hN] at hreceive
        cases hreceive
        have hinv := h.collect hnet hp hsum (by omega)
        rw [← Multiset.zero_add rest] at hinv
        rw [List.append_nil]
        exact ⟨_, _, hinv⟩

theorem exists_inv {w : Run N A}
    (h : (program (S := S) (M := M)).lts.Reach (fun _ _ w => Answers w) w) (me : PID N)
    : ∃ lists collected, Inv me lists collected w := by
  apply LTS.Reach.invariant (I := fun w => ∃ lists collected, Inv me lists collected w) _ _ h
  . rintro w rfl
    exact ⟨[], [], .init me⟩
  . rintro w l w' - ⟨lists, collected, hinv⟩ hst hanswers
    exact step_inv hinv hst hanswers

structure Agreement (w : Run N A) : Prop where
  numbers : ∀ p (i : Nat) start, (w.node p).startRounds[i]? = some start →
    start.round = Int32.ofNat (i + 1)
  rounds : ∀ p (i : Nat) x, (w.node p).proposes[i]? = some x → x.2 = Int32.ofNat i
  agree : ∀ p q (i : Nat) start start', (w.node p).startRounds[i]? = some start →
    (w.node q).startRounds[i]? = some start' → start.all = start'.all
  permutes : ∀ p (i : Nat) start, (w.node p).startRounds[i]? = some start →
    Permutes (fun q => (w.node q).proposed) i start.all
  matched : ∀ p, (w.node p).unmatched = []
  progress : ∀ i : Nat, (∀ p, i < (w.node p).proposed.length) → w.net = 0 →
    ∀ p, i < (w.node p).startRounds.length

namespace Inv

variable {me p : PID N} {lists : List (List A)} {collected : List (PID N × A)} {w : Run N A}

theorem getElem?_startRounds {i : Nat} {start : StartRound A} (h : Inv me lists collected w)
    (hstart : (w.node p).startRounds[i]? = some start)
    : start.round = Int32.ofNat (i + 1) ∧ lists[i]? = some start.all := by
  have hstarts := Record.getElem?_of_prefix (h.placed p).startRounds hstart
  rw [getElem?_starts, Option.map_eq_some_iff] at hstarts
  obtain ⟨all, hall, rfl⟩ := hstarts
  exact ⟨rfl, hall⟩

theorem progress {i : Nat} (h : Inv me lists collected w) (hnet : w.net = 0)
    (hall : ∀ q, i < (w.node q).proposed.length)
    : i < (w.node p).startRounds.length := by
  have hlists : i < lists.length := by
    by_contra hge
    have hpending := congrArg Multiset.card h.pending
    have hlt : ∀ q, q ∈ Finset.univ → lists.length < (w.node q).proposed.length := by
      intro q _
      have hq := hall q
      have hround := (h.placed q).proposed_le
      omega
    rw [card_sum_proposals, Finset.filter_true_of_mem hlt, Finset.card_univ, Fintype.card_fin, hnet,
      Multiset.card_add, Multiset.coe_card, List.length_map] at hpending
    have hfew := h.few
    have hzero : (inFlight false (0 : Net N A) (coordinator me)).card = 0 := rfl
    omega
  have hannounced := h.announced p
  by_contra hge
  have hlt : (w.node p).startRounds.length < lists.length := by omega
  rw [hnet, announcement, List.getElem?_eq_getElem hlt] at hannounced
  exact Nat.zero_ne_one (congrArg Multiset.card hannounced)

end Inv

theorem agreement_of_answers {w : Run N A}
    (h : (program (S := S) (M := M)).lts.Reach (fun _ _ w => Answers w) w)
    : Agreement w := by
  constructor
  . intro p i start hstart
    obtain ⟨lists, collected, hinv⟩ := exists_inv h p
    exact (hinv.getElem?_startRounds hstart).1
  . intro p
    obtain ⟨lists, collected, hinv⟩ := exists_inv h p
    exact (hinv.placed p).round
  . intro p q i start start' hstart hstart'
    obtain ⟨lists, collected, hinv⟩ := exists_inv h p
    have hall := (hinv.getElem?_startRounds hstart).2
    rw [(hinv.getElem?_startRounds hstart').2, Option.some_inj] at hall
    exact hall.symm
  . intro p i start hstart
    obtain ⟨lists, collected, hinv⟩ := exists_inv h p
    exact hinv.permutes i start.all (hinv.getElem?_startRounds hstart).2
  . intro p
    obtain ⟨lists, collected, hinv⟩ := exists_inv h p
    exact (hinv.placed p).unmatched
  . intro i hall hnet p
    obtain ⟨lists, collected, hinv⟩ := exists_inv h p
    exact hinv.progress hnet hall

instance (w : Run N A) : Decidable (Answers w) :=
  inferInstanceAs (Decidable (∀ p, (w.node p).proposed.length ≤ (w.node p).signals.length))

theorem agreement_of_answers_two
    : ∃ w : Run 2 Nat, (∀ p, (w.node p).startRounds.map StartRound.all = [[7, 8]])
        ∧ w.net = 0 ∧ Agreement w := by
  let prog : Program (PID 2) _ (Input Unit Unit Nat) _ (FastAnonymousMessage 2 Nat) := program
  have h0 : prog.lts.Reach (fun _ _ w => Answers w) prog.initWorld := .init rfl
  have h1 := Program.Reach.input h0 0 .timer rfl (by decide)
  have h2 := Program.Reach.input h1 1 .timer rfl (by decide)
  have h3 := Program.Reach.input h2 0 (.client (.signal (.anonymous 7))) rfl (by decide)
  have h4 := Program.Reach.input h3 1 (.client (.signal (.anonymous 8))) rfl (by decide)
  have h5 := Program.Reach.receive h4 1 (.roundPropose 1 1 8 0) ()
    {⟨1, .roundPropose 0 1 7 0⟩} (by decide) rfl (by decide)
  have h6 := Program.Reach.receive h5 1 (.roundPropose 0 1 7 0) () 0 (by decide) rfl (by decide)
  have h7 := Program.Reach.receive h6 0 (.round 1 Finset.univ [7, 8] 1) ()
    {⟨1, .round 1 Finset.univ [7, 8] 1⟩} (by decide) rfl (by decide)
  have h8 := Program.Reach.receive h7 1 (.round 1 Finset.univ [7, 8] 1) () 0 (by decide) rfl
    (by decide)
  exact ⟨_, by decide, by decide, agreement_of_answers h8⟩

/-!
A process alone, which starts more and more rounds.
-/

namespace Alone

structure After (n : Nat) (node : Node 1 Unit) : Prop where
  rounds : node.rounds = ⟨Int32.ofNat n, [], Int32.ofNat n⟩
  startRounds : node.startRounds.length = n
  signals : node.signals.length = n + 1
  proposed : node.proposed.length = n

def proposing (node : Node 1 Unit) (n : Nat) : Node 1 Unit :=
  { node with
      rounds := ⟨Int32.ofNat n, [], Int32.ofNat n⟩
      proposes := node.proposes ++ [((), Int32.ofNat n)] }

def announcing (node : Node 1 Unit) (n : Nat) : Node 1 Unit :=
  { node with rounds := ⟨Int32.ofNat n + 1, [], Int32.ofNat n⟩ }

def starting (node : Node 1 Unit) (n : Nat) : Node 1 Unit :=
  { node with
      rounds := ⟨Int32.ofNat n + 1, [], Int32.ofNat n + 1⟩
      signals := node.signals ++ [.startRound ⟨Int32.ofNat n + 1, [()]⟩] }

variable {n : Nat} {node : Node 1 Unit}

theorem After.succ (h : After n node)
    : After (n + 1) (starting (announcing (proposing node n) n) n) where
  rounds := by
    rw [← ofNat_succ]
    rfl
  startRounds := by
    have hstartRounds := h.startRounds
    simp only [Node.startRounds] at hstartRounds
    simp [Node.startRounds, starting, announcing, proposing, hstartRounds]
  signals := by
    simp [starting, announcing, proposing, h.signals]
  proposed := by
    have hproposed := h.proposed
    simp only [Node.proposed, List.length_map] at hproposed
    simp [Node.proposed, starting, announcing, proposing, hproposed]

abbrev aloneProgram : Program (PID 1) (Node 1 Unit) (Input Unit Unit Unit) Unit
    (FastAnonymousMessage 1 Unit) :=
  program

theorem After.propose (h : After n node)
    : aloneProgram.input 0 (.client (.signal (.anonymous ()))) node
      = some (proposing node n, [⟨0, .roundPropose 0 0 () (Int32.ofNat n)⟩]) := by
  simp only [program, onSend, proposes, h.rounds]
  rfl

theorem announce (node : Node 1 Unit) (n : Nat)
    : aloneProgram.receive 0 (.roundPropose 0 0 () (Int32.ofNat n)) () (proposing node n)
      = some (announcing (proposing node n) n,
        [⟨0, .round 0 Finset.univ [()] (Int32.ofNat n + 1)⟩]) := by
  have hcoordinator : (0 : PID 1) = coordinator 0 := rfl
  simp only [program, onReceive, proposing, and_true]
  rw [if_pos hcoordinator]
  simp only [announcing, List.length_singleton, if_true, List.append_nil]
  rfl

theorem start (node : Node 1 Unit) (n : Nat)
    : aloneProgram.receive 0 (.round 0 Finset.univ [()] (Int32.ofNat n + 1)) () (announcing node n)
      = some (starting (announcing node n) n, []) := by
  simp only [program, onReceive, announcing, starting, if_true]
  rfl

theorem answers {node : PID 1 → Node 1 Unit} {net : Net 1 Unit}
    (h : (node 0).proposed.length ≤ (node 0).signals.length)
    : Answers ⟨node, net⟩ := by
  intro p
  rw [Fin.eq_zero p]
  exact h

theorem exists_after (n : Nat)
    : ∃ w, aloneProgram.lts.Reach (fun _ _ w => Answers w) w ∧ w.net = 0 ∧ After n (w.node 0) := by
  induction n with
  | zero =>
    have h0 : aloneProgram.lts.Reach (fun _ _ w => Answers w) aloneProgram.initWorld := .init rfl
    have h1 := Program.Reach.input h0 0 .timer rfl (answers (by decide))
    exact ⟨_, h1, rfl, rfl, rfl, rfl, rfl⟩
  | succ n ih =>
    obtain ⟨w, hreach, hnet, hafter⟩ := ih
    have hafter' := hafter.succ
    have h1 := Program.Reach.input hreach 0 (.client (.signal (.anonymous ()))) hafter.propose
      (answers (by
        rw [Function.update_self]
        exact Nat.le_trans (Nat.le_of_eq hafter'.proposed) (Nat.le_of_eq hafter.signals.symm)))
    rw [hnet] at h1
    have h2 := Program.Reach.receive h1 0 (.roundPropose 0 0 () (Int32.ofNat n)) () 0 rfl
      (by dsimp only; rw [Function.update_self]; exact announce _ n)
      (answers (by
        rw [Function.update_self]
        exact Nat.le_trans (Nat.le_of_eq hafter'.proposed) (Nat.le_of_eq hafter.signals.symm)))
    have h3 := Program.Reach.receive h2 0 (.round 0 Finset.univ [()] (Int32.ofNat n + 1)) () 0 rfl
      (by dsimp only; rw [Function.update_self]; exact start _ n)
      (answers (by
        rw [Function.update_self, hafter'.proposed, hafter'.signals]
        exact Nat.le_succ _))
    refine ⟨_, h3, rfl, ?_⟩
    dsimp only
    rw [Function.update_self]
    exact hafter'

theorem not_numbers_of_overflow
    : ¬ ∀ w : Run 1 Unit, aloneProgram.lts.Reach (fun _ _ w => Answers w) w →
        ∀ p (i : Nat) start, (w.node p).startRounds[i]? = some start →
          start.round.toInt = i + 1 := by
  intro hall
  obtain ⟨w, hreach, -, hafter⟩ := exists_after (2 ^ 31)
  have hlt : 2 ^ 31 - 1 < (w.node 0).startRounds.length := by
    rw [hafter.startRounds]
    decide
  have hstart := List.getElem?_eq_getElem hlt
  obtain ⟨lists, collected, hinv⟩ := exists_inv hreach 0
  have hnumber := hall w hreach 0 _ _ hstart
  rw [(hinv.getElem?_startRounds hstart).1] at hnumber
  revert hnumber
  decide

end Alone

end FastAnonymousRounds
