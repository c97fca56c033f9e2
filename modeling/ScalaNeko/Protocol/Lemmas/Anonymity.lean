import Mathlib.Algebra.BigOperators.Group.Finset.Piecewise
import Mathlib.Data.Finset.Max
import ScalaNeko.Protocol.Lemmas.AnonymousRounds

/-!
What a process may be delivered in anonymous rounds follows from its own contents and, in each
round, from those of the others without their senders: every sequence that they allow is delivered
in some run, in which each process waits for the slowest.
-/

open AsyncNetwork
open DisjointCover

namespace AnonymousRounds

open RoundBased (Regular)
open RoundBased.Party (SendCase)

variable {N : Nat} {S M A : Type}

/--
Each process `q` answers its signal number `i` with `c q i`.
-/
def Gives (c : PID N → Nat → A) (w : Run N A) : Prop :=
  ∀ q (i : Nat) a, (w.node q).answers[i]? = some a → a = c q i

structure Allowed (c : PID N → Nat → A) (p : PID N) (starts : List (AnonymousStart A)) : Prop where
  length_lt : starts.length < 2 ^ 31
  start : ∀ (i : Nat) s, starts[i]? = some s →
    s.round = Int32.ofNat (i + 1) ∧ s.mine = c p i ∧ s.other.Perm ((others p).map (fun q => c q i))

theorem Allowed.congr {c c' : PID N → Nat → A} {p : PID N} {starts : List (AnonymousStart A)}
    (h : Allowed c p starts) (hmine : c p = c' p)
    (hother : ∀ i, ((others p).map (fun q => c q i)).Perm ((others p).map (fun q => c' q i)))
    : Allowed c' p starts where
  length_lt := h.length_lt
  start := by
    intro i s hs
    obtain ⟨hround, hcontent, hperm⟩ := h.start i s hs
    rw [hmine] at hcontent
    exact ⟨hround, hcontent, hperm.trans (hother i)⟩

theorem gives_append {f : Nat → A} {answers : List A}
    (h : ∀ (i : Nat) a, answers[i]? = some a → a = f i)
    : ∀ (i : Nat) a, (answers ++ [f answers.length])[i]? = some a → a = f i := by
  intro i a ha
  rcases Record.getElem?_snoc ha with hold | ⟨heq, hlast⟩
  . exact h i a hold
  . rw [heq, hlast]

/-!
The steps that are left, where a client hands over each content to all.
-/

def Node.load (bound : Nat) (node : Node N A) : Nat :=
  -- each of the `N` copies of an answer is handed out, received and taken
  (3 * N + 2) * (bound - node.rounds.party.startRounds.length)
    + (3 * N + 1) * node.rounds.outbox.length
    + 2 * node.rounds.queue.length
    + match node.rounds.control with
      | .new => 3 * N + 3
      | .loop => 1
      | _ => 0

def load (bound : Nat) (w : Run N A) : Nat :=
  ∑ q, (w.node q).load bound + 3 * Multiset.card w.net

theorem load_update_lt {bound : Nat} {w : Run N A} {q : PID N} {node' : Node N A}
    {net' : Multiset (Envelope (PID N) (Round (Anonymized N A)))}
    (h : node'.load bound + 3 * Multiset.card net'
      < (w.node q).load bound + 3 * Multiset.card w.net)
    : load bound ⟨Function.update w.node q node', net'⟩ < load bound w := by
  have hold := Finset.sum_update_of_mem (Finset.mem_univ q) (fun r => (w.node r).load bound)
    ((w.node q).load bound)
  have hnew := Finset.sum_update_of_mem (Finset.mem_univ q) (fun r => (w.node r).load bound)
    (node'.load bound)
  rw [Function.update_eq_self] at hold
  have hnode : ∑ r, (Function.update w.node q node' r).load bound
      = ∑ r, Function.update (fun r => (w.node r).load bound) q (node'.load bound) r :=
    Finset.sum_congr rfl
      (fun r _ => Function.apply_update (fun _ x => Node.load bound x) w.node q node' r)
  unfold load
  dsimp only
  rw [hnode]
  omega

structure Node.Attends (node : Node N A) : Prop where
  control : node.rounds.control ≠ .ended
  isDone : node.rounds.isDone = false
  started : node.rounds.control = .new ∨ node.rounds.isStarted = true

/--
The runs in which `p` is delivered a prefix of `starts` and no process goes further.
-/
structure Underway (c : PID N → Nat → A) (p : PID N) (starts : List (AnonymousStart A))
    (w : Run N A) : Prop where
  gives : Gives c w
  attends : ∀ q, (w.node q).Attends
  delivered : (w.node p).startRounds <+: starts
  length_le : ∀ q, (w.node q).rounds.party.startRounds.length ≤ starts.length

theorem Underway.update {c : PID N → Nat → A} {p q : PID N} {starts : List (AnonymousStart A)}
    {w : Run N A} {node' : Node N A}
    {net' : Multiset (Envelope (PID N) (Round (Anonymized N A)))} (h : Underway c p starts w)
    (hgives : ∀ (i : Nat) a, node'.answers[i]? = some a → a = c q i) (hattends : node'.Attends)
    (hdelivered : q = p → node'.startRounds <+: starts)
    (hlength : node'.rounds.party.startRounds.length ≤ starts.length)
    : Underway c p starts ⟨Function.update w.node q node', net'⟩ where
  gives := (Function.forall_update_iff w.node
    (fun r x => ∀ (i : Nat) a, (Node.answers x)[i]? = some a → a = c r i)).mpr
      ⟨hgives, fun r _ => h.gives r⟩
  attends := (Function.forall_update_iff w.node (fun _ x => Node.Attends x)).mpr
    ⟨hattends, fun r _ => h.attends r⟩
  delivered := (Function.forall_update_iff w.node
    (fun r x => r = p → Node.startRounds x <+: starts)).mpr
      ⟨hdelivered, fun r _ hr => by rw [hr]; exact h.delivered⟩ p rfl
  length_le := (Function.forall_update_iff w.node
    (fun _ x => (Node.rounds x).party.startRounds.length ≤ starts.length)).mpr
      ⟨hlength, fun r _ => h.length_le r⟩

theorem take_frame (node : SynchronousRounds.Node N (Anonymized N A)) (e : Round (Anonymized N A))
    (queue : List (Round (Anonymized N A))) (reaction : List (Anonymized N A))
    : (node.take e queue reaction).isStarted = node.isStarted
        ∧ (node.take e queue reaction).isDone = node.isDone
        ∧ (node.take e queue reaction).queue = queue
        ∧ ((node.take e queue reaction).control = .loop
          ∨ (node.take e queue reaction).control = .failed)
        ∧ (node.take e queue reaction).outbox
          = node.outbox ++ ((node.party.onReceive e).2.toList.map (fun _ => reaction)).flatten := by
  have hcontrol : (node.take e queue reaction).control = .loop
      ∨ (node.take e queue reaction).control = .failed := by
    unfold SynchronousRounds.Node.take
    dsimp only
    split
    . exact .inl rfl
    . exact .inr rfl
  unfold SynchronousRounds.Node.take RoundBased.Node.onReceive at hcontrol ⊢
  cases hresult : node.party.onReceive e with
  | mk party start =>
    rw [hresult] at hcontrol
    cases start with
    | none => exact ⟨rfl, rfl, rfl, hcontrol, (List.append_nil _).symm⟩
    | some start =>
      refine ⟨rfl, rfl, rfl, hcontrol, ?_⟩
      rw [Option.toList_some, List.map_singleton, List.flatten_singleton]
      rfl

theorem Node.Attends.take {node : Node N A} (h : node.Attends) (hcontrol : node.rounds.control = .receive)
    (e : Round (Anonymized N A)) (queue : List (Round (Anonymized N A)))
    (reaction : List (Anonymized N A)) (delivered : List (RoundSignal A)) (answers : List A)
    : Node.Attends ⟨node.rounds.take e queue reaction, delivered, answers⟩ := by
  obtain ⟨hstarted, hdone, -, htaken, -⟩ := take_frame node.rounds e queue reaction
  constructor
  . intro hended
    dsimp only at hended
    rw [hended] at htaken
    rcases htaken with hloop | hfailed
    . cases hloop
    . cases hfailed
  . exact hdone.trans h.isDone
  . rcases h.started with hnew | hold
    . rw [hcontrol] at hnew
      cases hnew
    . exact .inr (hstarted.trans hold)

theorem Node.load_take_lt {node : Node N A} {bound : Nat} {e : Round (Anonymized N A)}
    {queue : List (Round (Anonymized N A))} {reaction : List (Anonymized N A)}
    (delivered : List (RoundSignal A)) (answers : List A) (hqueue : node.rounds.queue = e :: queue)
    (hlt : node.rounds.party.startRounds.length < bound) (hreaction : reaction.length ≤ 1)
    : Node.load bound ⟨node.rounds.take e queue reaction, delivered, answers⟩ < node.load bound := by
  obtain ⟨-, -, hrest, htaken, houtbox⟩ := take_frame node.rounds e queue reaction
  have hstartRounds := (take_startRounds node.rounds e queue reaction).1
  have hcontrol : (match (node.rounds.take e queue reaction).control with
      | .new => 3 * N + 3
      | .loop => 1
      | _ => 0) ≤ 1 := by
    rcases htaken with hloop | hfailed
    . rw [hloop]
    . rw [hfailed]
      exact Nat.zero_le 1
  simp only [Node.load]
  rw [hrest, houtbox, hstartRounds, hqueue, List.length_append, List.length_append, List.length_cons]
  cases (node.rounds.party.onReceive e).2 with
  | none =>
    simp only [Option.toList_none, List.map_nil, List.flatten_nil, List.length_nil, Nat.add_zero]
    omega
  | some start =>
    simp only [Option.toList_some, List.map_singleton, List.flatten_singleton, List.length_singleton]
    obtain ⟨left, hleft⟩ := Nat.exists_eq_add_of_lt hlt
    have hbefore : bound - node.rounds.party.startRounds.length = left + 1 := by omega
    have hafter : bound - (node.rounds.party.startRounds.length + 1) = left := by omega
    have houtbox := Nat.mul_le_mul_left (3 * N + 1)
      (Nat.add_le_add_left hreaction node.rounds.outbox.length)
    rw [Nat.mul_succ] at houtbox
    rw [hbefore, hafter, Nat.mul_succ]
    omega

section Steps

variable {c : PID N → Nat → A} {p q : PID N} {starts : List (AnonymousStart A)} {w : Run N A}

theorem Underway.init
    : Underway c p starts (⟨fun _ => ({} : Node N A), 0⟩ : Run N A) where
  gives := nofun
  attends := fun _ =>
    { control := nofun
      isDone := rfl
      started := .inl rfl }
  delivered := List.nil_prefix
  length_le := fun _ => Nat.zero_le _

theorem exists_shuffled {n : Nat} (h : Underway c p starts w) (hallowed : Allowed c p starts)
    (hlength : (w.node q).startRounds.length = n) (hlt : n < starts.length)
    : ∃ shuffled, shuffled.Perm ((others q).map (fun r => c r n))
        ∧ (q = p → (w.node q).startRounds ++ [⟨Int32.ofNat (n + 1), c q n, shuffled⟩] <+: starts) := by
  by_cases hq : q = p
  . subst hq
    have hs := List.getElem?_eq_getElem hlt
    obtain ⟨hround, hmine, hperm⟩ := hallowed.start n _ hs
    refine ⟨_, hperm, fun _ => ?_⟩
    apply Record.snoc_prefix h.delivered
    rw [hlength, hs, ← hround, ← hmine]
  . exact ⟨_, List.Perm.refl _, fun heq => absurd heq hq⟩

variable [DecidableEq A]

theorem handOver_of_cons {node : SynchronousRounds.Node N (Anonymized N A)} {m : Anonymized N A}
    {outbox : List (Anonymized N A)} (houtbox : node.outbox = m :: outbox) (q : PID N)
    : ∃ result, SendCase (S := SynchronousRounds.ClientSignal S) node.party q m result
        ∧ node.handOver S q = some ({ node with
            party := result.1
            outbox
            handed := node.handed ++ [m] }, result.2) := by
  refine ⟨_, RoundBased.Party.onSend_cases node.party q m, ?_⟩
  unfold SynchronousRounds.Node.handOver
  rw [houtbox]
  rfl

theorem length_transmit_le {party : RoundBased.Party N (Anonymized N A)} {m : Anonymized N A}
    {result : RoundBased.Party N (Anonymized N A) × List (Event S (Round (Anonymized N A)))}
    (hcase : party.SendCase q m result)
    : (transmit result.2).length ≤ N := by
  cases hcase with
  | refused => exact Nat.zero_le N
  | kept => exact Nat.zero_le N
  | completed _ hsize =>
    rw [transmit, List.length_flatMap, List.map_map, List.map_map]
    have hlength : ∀ b : Anonymized N A,
        (fanOut (⟨b, party.rounds.sendRound⟩ : Round (Anonymized N A))).length
          = (Message.destinations b).card := by
      intro b
      rw [fanOut, List.length_map, Message.length_destList]
      rfl
    have hmap := List.map_congr_left
      (fun b (_ : b ∈ party.rounds.sendBatch.insert m) => hlength b)
    rw [size, ← hmap] at hsize
    exact Nat.le_of_eq hsize

def Advances (S M : Type) (c : PID N → Nat → A) (p : PID N) (starts : List (AnonymousStart A))
    (w : Run N A) : Prop :=
  ∃ l w', (program (S := S) (M := M)).Step w l w' ∧ Underway c p starts w'
    ∧ load starts.length w' < load starts.length w

theorem Underway.input {i : Input S M A} {node' : Node N A}
    {out : List (Envelope (PID N) (Round (Anonymized N A)))} (h : Underway c p starts w)
    (hinput : program.input q i (w.node q) = some (node', out))
    (hgives : ∀ (i : Nat) a, node'.answers[i]? = some a → a = c q i) (hattends : node'.Attends)
    (hdelivered : q = p → node'.startRounds <+: starts)
    (hlength : node'.rounds.party.startRounds.length ≤ starts.length)
    (hload : node'.load starts.length + 3 * out.length < (w.node q).load starts.length)
    : Advances S M c p starts w := by
  refine ⟨_, _, .input hinput, h.update hgives hattends hdelivered hlength, ?_⟩
  apply load_update_lt
  rw [Multiset.card_add, Multiset.coe_card]
  omega

theorem Underway.input_below {i : Input S M A} {rounds : SynchronousRounds.Node N (Anonymized N A)}
    {out : List (Envelope (PID N) (Round (Anonymized N A)))} (h : Underway c p starts w)
    (hinput : program.input q i (w.node q) = some ({ w.node q with rounds }, out))
    (hattends : Node.Attends { w.node q with rounds })
    (hstartRounds : rounds.party.startRounds = (w.node q).rounds.party.startRounds)
    (hload : Node.load starts.length { w.node q with rounds } + 3 * out.length
      < (w.node q).load starts.length)
    : Advances S M c p starts w := by
  refine h.input hinput (h.gives q) hattends ?_ ?_ hload
  . rintro rfl
    exact h.delivered
  . rw [hstartRounds]
    exact h.length_le q

theorem Underway.run (h : Underway c p starts w) (hcontrol : (w.node q).rounds.control = .new)
    : Advances S M c p starts w := by
  have hstartRounds : (w.node q).rounds.party.startRounds
      = ((w.node q).rounds.run [anonymized q (c q (w.node q).answers.length)]).party.startRounds := by
    simp [SynchronousRounds.Node.run, RoundBased.Node.preStart, RoundBased.Node.react,
      RoundBased.Party.deliver, RoundBased.Party.startRounds]
  have hinput : program.input q (.run (c q (w.node q).answers.length) : Input S M A) (w.node q)
      = some ({ w.node q with
          rounds := (w.node q).rounds.run [anonymized q (c q (w.node q).answers.length)]
          delivered := (w.node q).delivered ++ [.initRound]
          answers := (w.node q).answers ++ [c q (w.node q).answers.length] }, []) := by
    simp only [program, hcontrol, if_true]
  refine h.input hinput (gives_append (h.gives q)) ⟨by simp [SynchronousRounds.Node.run], ?_, ?_⟩ ?_ ?_ ?_
  . exact (h.attends q).isDone
  . exact .inr rfl
  . rintro rfl
    have hdelivered := h.delivered
    simpa [Node.startRounds] using hdelivered
  . dsimp only
    rw [← hstartRounds]
    exact h.length_le q
  . simp only [Node.load]
    rw [← hstartRounds, hcontrol]
    simp [SynchronousRounds.Node.run, RoundBased.Node.preStart, RoundBased.Node.react, Nat.mul_add]
    omega

theorem Underway.test (h : Underway c p starts w) (hcontrol : (w.node q).rounds.control = .loop)
    : Advances S M c p starts w := by
  have hinput : program.input q (.test : Input S M A) (w.node q)
      = some ({ w.node q with rounds := { (w.node q).rounds with control := .receive } }, []) := by
    simp only [program, Node.below, SynchronousRounds.program, hcontrol, if_true, Option.map_some,
      SynchronousRounds.Node.test, (h.attends q).isDone, Bool.false_eq_true, if_false]
  refine h.input_below hinput ⟨by simp, (h.attends q).isDone, .inr ?_⟩ rfl ?_
  . rcases (h.attends q).started with hnew | hstarted
    . rw [hcontrol] at hnew
      cases hnew
    . exact hstarted
  . simp only [Node.load, hcontrol]
    rw [List.length_nil]
    omega

theorem Underway.handOver {m : Anonymized N A} {outbox : List (Anonymized N A)}
    (h : Underway c p starts w) (houtbox : (w.node q).rounds.outbox = m :: outbox)
    : Advances S M c p starts w := by
  obtain ⟨result, hcase, hhand⟩ := handOver_of_cons (S := S) houtbox q
  have hinput : program.input q (.handOver : Input S M A) (w.node q)
      = some ({ w.node q with
          rounds := { (w.node q).rounds with
            party := result.1
            outbox
            handed := (w.node q).rounds.handed ++ [m] } }, transmit result.2) := by
    simp only [program, Node.below, SynchronousRounds.program, hhand, Option.map_some]
  have hstartRounds : result.1.startRounds = (w.node q).rounds.party.startRounds := by
    rw [RoundBased.Party.startRounds, hcase.frame.2.2.1]
    rfl
  obtain ⟨hcontrol, hdone, hstarted⟩ := h.attends q
  refine h.input_below hinput ⟨hcontrol, hdone, hstarted⟩ hstartRounds ?_
  have htransmit := length_transmit_le hcase
  simp only [Node.load]
  rw [hstartRounds, houtbox, List.length_cons, Nat.mul_succ]
  omega

theorem Underway.receive {e : Round (Anonymized N A)}
    {rest : Multiset (Envelope (PID N) (Round (Anonymized N A)))} (h : Underway c p starts w)
    (hnet : w.net = ⟨q, e⟩ ::ₘ rest)
    : Advances S M c p starts w := by
  obtain ⟨hcontrol, hdone, hstarted⟩ := h.attends q
  refine ⟨⟨.receive q e (), []⟩, _, .receive hnet rfl,
    h.update (h.gives q) ⟨hcontrol, hdone, hstarted⟩ ?_ (h.length_le q), ?_⟩
  . rintro rfl
    exact h.delivered
  . apply load_update_lt
    simp only [Node.load]
    rw [hnet, Multiset.coe_nil, Multiset.zero_add, Multiset.card_cons, List.length_append,
      List.length_singleton]
    omega

theorem program_take {node node' : Node N A} {e : Round (Anonymized N A)}
    {queue : List (Round (Anonymized N A))} {shuffled : List A} {answer : A}
    (hcontrol : node.rounds.control = .receive) (hqueue : node.rounds.queue = e :: queue)
    (htake : node.take q e queue shuffled answer = some node')
    : (program (S := S) (M := M)).input q (.take shuffled answer) node = some (node', []) := by
  simp only [program, hcontrol, hqueue, htake, Option.map_some]

theorem Underway.take {e : Round (Anonymized N A)} {queue : List (Round (Anonymized N A))}
    (h : Underway c p starts w) (hallowed : Allowed c p starts) (hinv : Inv S w) (hshort : Short w)
    (hcontrol : (w.node q).rounds.control = .receive) (hqueue : (w.node q).rounds.queue = e :: queue)
    (hlt : (w.node q).rounds.party.startRounds.length < starts.length)
    : Advances S M c p starts w := by
  have hlength := (hinv.relays q).length
  cases hstart : ((w.node q).rounds.party.onReceive e).2 with
  | none =>
    have hstartRounds := (take_startRounds (w.node q).rounds e queue []).1
    rw [hstart, Option.toList_none, List.append_nil] at hstartRounds
    have htake : (w.node q).take q e queue [] (c q 0) = some _ := take_of_none hstart
    have hinput := program_take (S := S) (M := M) hcontrol hqueue htake
    apply h.input_below hinput ((h.attends q).take hcontrol e queue [] _ _) hstartRounds
    rw [List.length_nil, Nat.mul_zero, Nat.add_zero]
    exact Node.load_take_lt _ _ hqueue hlt (Nat.zero_le 1)
  | some start =>
    let answer := c q (w.node q).answers.length
    have hbound := Nat.lt_of_le_of_lt (Nat.succ_le_of_lt hlt) hallowed.length_lt
    obtain ⟨hround, content, hcontent, hreceive⟩ :=
      hinv.exists_taken hcontrol hqueue hstart hbound hshort answer
    have hgives := gives_append (h.gives q)
    have hcontent : content = fun r => c r (w.node q).startRounds.length := by
      funext r
      have hr := hcontent r
      split at hr
      . next heq =>
        subst heq
        exact hgives _ _ hr
      . rw [List.append_nil] at hr
        exact h.gives r _ _ hr
    rw [hcontent] at hreceive
    rw [← hlength] at hlt
    obtain ⟨shuffled, hperm, hdelivered⟩ := exists_shuffled h hallowed rfl hlt
    rw [← hround] at hdelivered
    have htake : (w.node q).take q e queue shuffled answer = some _ :=
      (take_of_some hstart hreceive).mpr ⟨hperm, rfl⟩
    have hinput := program_take (S := S) (M := M) hcontrol hqueue htake
    have hstartRounds := take_party htake
    rw [hstart, Option.toList_some] at hstartRounds
    rw [hlength] at hlt
    apply h.input hinput hgives ((h.attends q).take hcontrol e queue _ _ _)
    . intro hq
      have hinitial := hdelivered hq
      simpa [Node.startRounds] using hinitial
    . rw [hstartRounds, List.length_append]
      exact hlt
    . rw [List.length_nil, Nat.mul_zero, Nat.add_zero]
      exact Node.load_take_lt _ _ hqueue hlt (Nat.le_refl 1)

/--
If nothing else can be done, the process in the earliest round has received what it waits for.
-/
theorem Underway.exists_queue (h : Underway c p starts w) (hinv : Inv S w) (hshort : Short w)
    (hnew : ∀ r, (w.node r).rounds.control ≠ .new) (houtbox : ∀ r, (w.node r).rounds.outbox = [])
    (hnet : w.net = 0)
    (hmin : ∀ r, (w.node q).rounds.party.startRounds.length
      ≤ (w.node r).rounds.party.startRounds.length)
    : ∃ e queue, (w.node q).rounds.queue = e :: queue := by
  have hlockstep := (SynchronousRounds.inv_of_reach hinv.reach).lockstep
  have hregular := regular_below hshort (fun r => (hinv.relays r).reactions)
  have hhanded : ∀ r, (w.node r).rounds.HandedOver (w.node q).rounds.party.startRounds.length := by
    intro r
    apply (hlockstep.follows r).handedOver (houtbox r)
    have hreacted := hlockstep.reacted r
    unfold RoundBased.Node.Reacted at hreacted
    have hstarted : ((below w).node r).isStarted = true :=
      (h.attends r).started.resolve_left (hnew r)
    rw [if_pos hstarted] at hreacted
    exact Nat.lt_of_lt_of_eq (Nat.lt_succ_of_le (hmin r)) hreacted.symm
  cases hqueue : (w.node q).rounds.queue with
  | cons e queue => exact ⟨e, queue, rfl⟩
  | nil =>
    have hflight : SynchronousRounds.flight (fun r => (w.node r).rounds) w.net q = 0 := by
      rw [SynchronousRounds.flight, hqueue, hnet]
      rfl
    exact absurd (hlockstep.progress hregular.batches hflight hhanded) (Nat.lt_irrefl _)

theorem Underway.advances (h : Underway c p starts w) (hallowed : Allowed c p starts)
    (hinv : Inv S w) (hshort : Short w) (hlt : (w.node p).startRounds.length < starts.length)
    : Advances S M c p starts w := by
  by_cases hnew : ∃ r, (w.node r).rounds.control = .new
  . obtain ⟨r, hr⟩ := hnew
    exact h.run hr
  by_cases hloop : ∃ r, (w.node r).rounds.control = .loop
  . obtain ⟨r, hr⟩ := hloop
    exact h.test hr
  by_cases houtbox : ∃ r, (w.node r).rounds.outbox ≠ []
  . obtain ⟨r, hr⟩ := houtbox
    obtain ⟨m, outbox, hcons⟩ := List.exists_cons_of_ne_nil hr
    exact h.handOver hcons
  rcases w.net.empty_or_exists_mem with hnet | ⟨⟨r, e⟩, hmem⟩
  -- all wait in `Receive` and nothing is in flight: the slowest process takes a message
  . push Not at hnew hloop houtbox
    obtain ⟨q, -, hmin⟩ := Finset.exists_min_image Finset.univ
      (fun r => (w.node r).rounds.party.startRounds.length) ⟨p, Finset.mem_univ p⟩
    have hmin := fun r => hmin r (Finset.mem_univ r)
    obtain ⟨e, queue, hqueue⟩ := h.exists_queue hinv hshort hnew houtbox hnet hmin
    have hcontrol : (w.node q).rounds.control = .receive := by
      cases hq : (w.node q).rounds.control with
      | new => exact absurd hq (hnew q)
      | loop => exact absurd hq (hloop q)
      | receive => rfl
      | ended => exact absurd hq (h.attends q).control
      | failed => exact absurd hq (hinv.running q)
    rw [(hinv.relays p).length] at hlt
    exact h.take hallowed hinv hshort hcontrol hqueue (Nat.lt_of_le_of_lt (hmin p) hlt)
  . obtain ⟨rest, hrest⟩ := Multiset.exists_cons_of_mem hmem
    exact h.receive hrest

/--
Whatever the contents allow is delivered in some run.
-/
theorem exists_run (hallowed : Allowed c p starts)
    : ∃ w, (program (S := S) (M := M)).lts.Reach (fun _ _ w => Short w ∧ Gives c w) w
        ∧ (w.node p).startRounds = starts := by
  have hstep : ∀ w, (program (S := S) (M := M)).lts.Reach (fun _ _ w => Short w ∧ Gives c w) w →
      Underway c p starts w → ¬ starts.length ≤ (w.node p).startRounds.length →
      ∃ l w', (program (S := S) (M := M)).lts.step w l w' ∧ (Short w' ∧ Gives c w')
        ∧ Underway c p starts w' ∧ load starts.length w' < load starts.length w := by
    intro w hreach hunderway hgoal
    obtain ⟨hinv, hshort⟩ := inv_of_reach (hreach.mono (fun _ _ _ h => h.1))
    obtain ⟨l, w', hst, hunderway', hload⟩ :=
      hunderway.advances (S := S) (M := M) hallowed hinv hshort (not_le.mp hgoal)
    have hshort' : Short w' :=
      fun q => Nat.lt_of_le_of_lt (hunderway'.length_le q) hallowed.length_lt
    exact ⟨l, w', hst, ⟨hshort', hunderway'.gives⟩, hunderway', hload⟩
  obtain ⟨w, hreach, hunderway, hlength⟩ :=
    LTS.Reach.exists_of_rank (load starts.length) hstep (.init rfl) .init
  exact ⟨w, hreach, hunderway.delivered.eq_of_length_le hlength⟩

theorem allowed_of_reach
    (h : (program (S := S) (M := M)).lts.Reach (fun _ _ w => Short w ∧ Gives c w) w)
    : Allowed c p (w.node p).startRounds := by
  obtain ⟨hinv, hshort⟩ := inv_of_reach (h.mono (fun _ _ _ h => h.1))
  have hgives : Gives c w := by
    cases h with
    | init h0 =>
      rw [h0]
      nofun
    | step _ _ hok => exact hok.2
  constructor
  . rw [(hinv.relays p).length]
    exact hshort p
  . intro i s hs
    obtain ⟨hround, content, hcontent, hmine, hperm⟩ := hinv.exists_start hs
    have hcontent : content = fun q => c q i := by
      funext q
      exact hgives q i _ (hcontent q)
    rw [hcontent] at hmine hperm
    exact ⟨hround, hmine, hperm⟩

end Steps

/--
The sequences of `StartRound`s that may be delivered at `p` where the clients answer with `c`.
-/
def Observes (S M : Type) [DecidableEq A] (c : PID N → Nat → A) (p : PID N)
    : Set (List (AnonymousStart A)) :=
  { starts | ∃ w, (program (S := S) (M := M)).lts.Reach (fun _ _ w => Short w ∧ Gives c w) w
      ∧ (w.node p).startRounds = starts }

def MayStart (S M : Type) [DecidableEq A] (c : PID N → Nat → A) (p : PID N)
    : Set (AnonymousStart A) :=
  { s | ∃ starts, starts ∈ Observes S M c p ∧ s ∈ starts }

variable [DecidableEq A]

theorem mem_observes_iff {c : PID N → Nat → A} {p : PID N} {starts : List (AnonymousStart A)}
    : starts ∈ Observes S M c p ↔ Allowed c p starts := by
  constructor
  . rintro ⟨w, hreach, rfl⟩
    exact allowed_of_reach hreach
  . exact exists_run

theorem observes_congr {c c' : PID N → Nat → A} {p : PID N} (hmine : c p = c' p)
    (hother : ∀ i, ((others p).map (fun q => c q i)).Perm ((others p).map (fun q => c' q i)))
    : Observes S M c p = Observes S M c' p := by
  ext starts
  rw [mem_observes_iff, mem_observes_iff]
  exact ⟨fun h => h.congr hmine hother, fun h => h.congr hmine.symm (fun i => (hother i).symm)⟩

theorem lossless_and_anonymous
    : (∀ w : Run N A, (program (S := S) (M := M)).lts.Reach (fun _ _ w => Short w) w → Lossless w)
        ∧ ∀ (c c' : PID N → Nat → A) p, c p = c' p →
          (∀ i, ((others p).map (fun q => c q i)).Perm ((others p).map (fun q => c' q i))) →
          Observes S M c p = Observes S M c' p ∧ MayStart S M c p = MayStart S M c' p := by
  constructor
  . intro w hreach
    obtain ⟨hinv, hshort⟩ := inv_of_reach hreach
    exact hinv.lossless hshort
  . intro c c' p hmine hother
    have heq := observes_congr (S := S) (M := M) hmine hother
    refine ⟨heq, ?_⟩
    unfold MayStart
    rw [heq]

/-!
Three processes, where the senders of two contents are exchanged.
-/

def content (q : PID 3) (_ : Nat) : Bool := q = 1

def exchanged (q : PID 3) (_ : Nat) : Bool := q = 2

theorem allowed_content : Allowed content 0 [⟨1, false, [false, true]⟩] where
  length_lt := by decide
  start := by
    intro i s hs
    cases i with
    | zero =>
      cases hs
      decide
    | succ i => cases hs

theorem lossless_and_anonymous_exchanged
    : (∃ w : Run 3 Bool, (w.node 0).startRounds = [⟨1, false, [false, true]⟩] ∧ Lossless w)
        ∧ Observes Unit Unit content 0 = Observes Unit Unit exchanged 0 := by
  constructor
  . obtain ⟨w, hreach, hstart⟩ := exists_run (S := Unit) (M := Unit) allowed_content
    exact ⟨w, hstart, lossless_and_anonymous.1 w (hreach.mono (fun _ _ _ h => h.1))⟩
  . have hperm : ∀ i, ((others 0).map (fun q => content q i)).Perm
        ((others 0).map (fun q => exchanged q i)) := by
      intro i
      show [true, false].Perm [false, true]
      decide
    exact (lossless_and_anonymous.2 content exchanged 0 rfl hperm).1

namespace Alone

/-!
One process alone.
-/

open SynchronousRounds (Control)

abbrev aloneProgram : Program (PID 1) (Node 1 Unit) (Input Unit Unit Unit) Unit
    (Round (Anonymized 1 Unit)) :=
  program

def m : Anonymized 1 Unit := anonymized (Fin.last 0) ()

structure At (send recv : Int32) (outbox : List (Anonymized 1 Unit))
    (queue : List (Round (Anonymized 1 Unit))) (control : Control) (node : Node 1 Unit) : Prop where
  rounds : node.rounds.party.rounds = ⟨send, [], recv, fun _ => []⟩
  outbox : node.rounds.outbox = outbox
  queue : node.rounds.queue = queue
  control : node.rounds.control = control
  isDone : node.rounds.isDone = false

variable {k : Int32} {node : Node 1 Unit}

theorem At.handOver (h : At k k [m] [] .loop node)
    : ∃ node', aloneProgram.input 0 .handOver node = some (node', [⟨0, ⟨m, k⟩⟩])
        ∧ At (k + 1) k [] [] .loop node' := by
  have hsend := RoundBased.Alone.onSend (T := SynchronousRounds.ClientSignal Unit) (m := m) rfl h.rounds
  refine ⟨{ node with rounds := { node.rounds with
    party := { node.rounds.party with
      rounds := ⟨k + 1, [], k, fun _ => []⟩
      emitted := node.rounds.party.emitted ++ [⟨m, k⟩]
      flushes := node.rounds.party.flushes + 1 }
    outbox := []
    handed := node.rounds.handed ++ [m] } }, ?_, ⟨rfl, rfl, h.queue, h.control, h.isDone⟩⟩
  simp only [program, Node.below, SynchronousRounds.program, SynchronousRounds.Node.handOver, h.outbox,
    SynchronousRounds.Node.onSend, hsend, Option.map_some]
  rfl

theorem At.receive (h : At (k + 1) k [] [] .loop node)
    : At (k + 1) k [] [⟨m, k⟩] .loop
        { node with rounds := { node.rounds with queue := node.rounds.queue ++ [⟨m, k⟩] } } := by
  refine ⟨h.rounds, h.outbox, ?_, h.control, h.isDone⟩
  dsimp only
  rw [h.queue]
  rfl

theorem At.test (h : At (k + 1) k [] [⟨m, k⟩] .loop node)
    : ∃ node', aloneProgram.input 0 .test node = some (node', [])
        ∧ At (k + 1) k [] [⟨m, k⟩] .receive node' := by
  refine ⟨{ node with rounds := { node.rounds with control := .receive } }, ?_,
    ⟨h.rounds, h.outbox, h.queue, rfl, h.isDone⟩⟩
  simp only [program, Node.below, SynchronousRounds.program, h.control, if_true,
    SynchronousRounds.Node.test, h.isDone, Bool.false_eq_true, if_false, Option.map_some]

theorem At.take (h : At (k + 1) k [] [⟨m, k⟩] .receive node)
    : ∃ node', aloneProgram.input 0 (.take [] ()) node = some (node', [])
        ∧ At (k + 1) (k + 1) [m] [] .loop node'
        ∧ ∃ s, s ∈ node'.startRounds ∧ s.round = k + 1 := by
  have hreceive := RoundBased.Alone.onReceive (m := m) h.rounds
  have hstart : (node.rounds.party.onReceive ⟨m, k⟩).2
      = some ⟨k + 1, RoundBased.messageVector [m]⟩ := by
    rw [hreceive]
  have hcontents : onReceive 0 ⟨k + 1, RoundBased.messageVector [m]⟩ = some ((), []) := rfl
  have htake : node.take 0 ⟨m, k⟩ [] [] () = some _ :=
    (take_of_some hstart hcontents).mpr ⟨List.Perm.refl [], rfl⟩
  obtain ⟨-, hdone, hqueue, -, houtbox⟩ := take_frame node.rounds ⟨m, k⟩ [] [m]
  refine ⟨_, program_take h.control h.queue htake,
    ⟨?_, ?_, hqueue, ?_, hdone.trans h.isDone⟩, ⟨k + 1, (), []⟩, ?_, rfl⟩
  . simp only [SynchronousRounds.Node.take, RoundBased.Node.onReceive, hreceive]
    rfl
  . rw [hstart, h.outbox] at houtbox
    exact houtbox
  . simp only [SynchronousRounds.Node.take, RoundBased.onReceive, h.rounds, Int32.le_refl, if_true,
      Option.isSome_some]
  . simp [Node.startRounds]

theorem exists_at (n : Nat)
    : ∃ w, aloneProgram.lts.Reachable w ∧ w.net = 0
        ∧ At (Int32.ofNat n) (Int32.ofNat n) [m] [] .loop (w.node 0)
        ∧ (n ≠ 0 → ∃ s, s ∈ (w.node 0).startRounds ∧ s.round = Int32.ofNat n) := by
  induction n with
  | zero =>
    have h0 : aloneProgram.lts.Reachable aloneProgram.initWorld := .init rfl
    have h1 := Program.Reach.input h0 0 (.run ()) rfl trivial
    exact ⟨_, h1, rfl, ⟨rfl, rfl, rfl, rfl, rfl⟩, fun hne => absurd rfl hne⟩
  | succ n ih =>
    obtain ⟨w, hreach, hnet, hat, -⟩ := ih
    obtain ⟨sent, hhand, hsent⟩ := hat.handOver
    have h1 := Program.Reach.input hreach 0 .handOver hhand trivial
    rw [hnet] at h1
    have h2 := Program.Reach.receive h1 0 ⟨m, Int32.ofNat n⟩ () 0 rfl rfl trivial
    dsimp only at h2
    rw [Function.update_self, Function.update_idem] at h2
    obtain ⟨tested, htest, htested⟩ := hsent.receive.test
    have h3 := Program.Reach.input h2 0 .test (by dsimp only; rw [Function.update_self]; exact htest)
      trivial
    dsimp only at h3
    rw [Function.update_idem] at h3
    obtain ⟨taken, htake, htaken, hstart⟩ := htested.take
    have h4 := Program.Reach.input h3 0 (.take [] ())
      (by dsimp only; rw [Function.update_self]; exact htake) trivial
    refine ⟨_, h4, rfl, ?_⟩
    dsimp only
    rw [Function.update_self, Int32.ofNat_add]
    exact ⟨htaken, fun _ => hstart⟩

/--
The number after 2^31 - 1 is negative.
-/
theorem not_lossless_of_overflow
    : ¬ ∀ w : Run 1 Unit, aloneProgram.lts.Reachable w → ∀ s, s ∈ (w.node 0).startRounds →
        ∃ i : Nat, s.round.toInt = i + 1 ∧ (w.node 0).answers[i]? = some s.mine := by
  intro hall
  obtain ⟨w, hreach, -, -, hlast⟩ := exists_at (2 ^ 31)
  obtain ⟨s, hs, hround⟩ := hlast (by decide)
  obtain ⟨i, hnumber, -⟩ := hall w hreach s hs
  rw [hround] at hnumber
  have hnegative : (Int32.ofNat (2 ^ 31)).toInt < 0 := by decide
  omega

end Alone

end AnonymousRounds
