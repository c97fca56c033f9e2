import ScalaNeko.Protocol.Impl.AnonymousRounds
import ScalaNeko.Protocol.Lemmas.SynchronousRounds

/-!
Anonymous rounds are synchronous rounds whose messages carry one content each.
-/

open AsyncNetwork
open DisjointCover

namespace AnonymousRounds

open Message (destinations)
open RoundBased (IsBatch Regular)
open SynchronousRounds (flight)

variable {N : Nat} {S M A : Type}

abbrev Run (N : Nat) (A : Type) := World (PID N) (Node N A) (Round (Anonymized N A))

def Node.startRounds (node : Node N A) : List (AnonymousStart A) :=
  node.delivered.filterMap fun
    | .initRound => none
    | .startRound e => some e

def others (p : PID N) : List (PID N) := (List.finRange N).filter (fun q => q ≠ p)

theorem isBatch_anonymized (p : PID N) (a : A) : IsBatch p [anonymized p a] where
  fromPID_eq := by
    intro m hm
    rw [List.mem_singleton] at hm
    rw [hm]
    rfl
  partition := by
    refine ⟨List.pairwise_singleton _ _, ?_⟩
    intro q
    exact ⟨_, List.mem_singleton_self _, Finset.mem_univ q⟩

theorem onReceive_of_anonymized {p : PID N} {start : StartRound N (Anonymized N A)}
    {content : PID N → A} (h : ∀ q, start.msgs q = some (some (anonymized q (content q))))
    : onReceive p start = some (content p, (others p).map content) := by
  unfold onReceive
  rw [h p]
  dsimp only
  simp only [h]
  rw [← List.filterMap_eq_map]
  rfl

/-!
The rounds below.
-/

def below (w : Run N A)
    : World (PID N) (SynchronousRounds.Node N (Anonymized N A)) (Round (Anonymized N A)) where
  node := fun p => (w.node p).rounds
  net := w.net

theorem below_update {w : Run N A} {p : PID N} {node : Node N A}
    {net : Multiset (Envelope (PID N) (Round (Anonymized N A)))}
    : below ⟨Function.update w.node p node, net⟩
      = ⟨Function.update (below w).node p node.rounds, net⟩ := by
  have hnode : (fun q => (Function.update w.node p node q).rounds)
      = Function.update (fun q => (w.node q).rounds) p node.rounds :=
    Function.comp_update Node.rounds w.node p node
  simp only [below, hnode]

/--
No process is delivered 2^31 or more `StartRound`s.
-/
def Short (w : Run N A) : Prop := ∀ p, (w.node p).rounds.party.startRounds.length < 2 ^ 31

theorem take_startRounds (node : SynchronousRounds.Node N (Anonymized N A))
    (e : Round (Anonymized N A)) (queue : List (Round (Anonymized N A)))
    (reaction : List (Anonymized N A))
    : (node.take e queue reaction).party.startRounds
        = node.party.startRounds ++ (node.party.onReceive e).2.toList
      ∧ (node.take e queue reaction).reactions
        = node.reactions ++ (node.party.onReceive e).2.toList.map (fun _ => reaction) := by
  have hcase := node.party.onReceive_cases e
  have hstartRounds := hcase.startRounds_eq
  unfold SynchronousRounds.Node.take RoundBased.Node.onReceive
  cases hresult : node.party.onReceive e with
  | mk party start =>
    rw [hresult] at hstartRounds
    cases start with
    | none => exact ⟨hstartRounds, (List.append_nil _).symm⟩
    | some start => exact ⟨hstartRounds, rfl⟩

/--
What a process relays between its client and the rounds below.
-/
structure Node.Relays (node : Node N A) (p : PID N) : Prop where
  reactions : node.rounds.reactions = node.answers.map (fun a => [anonymized p a])
  length : node.startRounds.length = node.rounds.party.startRounds.length
  relayed : ∀ (i : Nat) s, node.startRounds[i]? = some s →
    ∃ start other, node.rounds.party.startRounds[i]? = some start ∧ s.round = start.round
      ∧ onReceive p start = some (s.mine, other) ∧ s.other.Perm other

theorem regular_below {w : Run N A} (hshort : Short w)
    (hreactions : ∀ q, (w.node q).rounds.reactions
      = (w.node q).answers.map (fun a => [anonymized q a]))
    : Regular (fun p => ((below w).node p).toNode) where
  batches := by
    intro p reaction hreaction
    have hmem : reaction ∈ (w.node p).rounds.reactions := hreaction
    rw [hreactions p, List.mem_map] at hmem
    obtain ⟨a, -, rfl⟩ := hmem
    exact isBatch_anonymized p a
  startRounds_lt := hshort

theorem Node.Relays.initRound {node : Node N A} {p : PID N} {a : A} (h : node.Relays p)
    : Relays { node with
        rounds := node.rounds.run [anonymized p a]
        delivered := node.delivered ++ [.initRound]
        answers := node.answers ++ [a] } p := by
  have hstartRounds : Node.startRounds { node with
      rounds := node.rounds.run [anonymized p a]
      delivered := node.delivered ++ [.initRound]
      answers := node.answers ++ [a] } = node.startRounds := by
    simp [Node.startRounds]
  have hparty : (node.rounds.run [anonymized p a]).party.startRounds
      = node.rounds.party.startRounds := by
    simp [SynchronousRounds.Node.run, RoundBased.Node.preStart, RoundBased.Node.react,
      RoundBased.Party.deliver, RoundBased.Party.startRounds]
  constructor
  . have hreactions : (node.rounds.run [anonymized p a]).reactions
        = node.rounds.reactions ++ [[anonymized p a]] := rfl
    rw [hreactions, h.reactions, List.map_append]
    rfl
  . rw [hstartRounds, hparty]
    exact h.length
  . rw [hstartRounds, hparty]
    exact h.relayed

theorem Node.Relays.startRound {node : Node N A} {p : PID N} {a mine : A} {shuffled other : List A}
    {e : Round (Anonymized N A)} {queue : List (Round (Anonymized N A))}
    {start : StartRound N (Anonymized N A)} (h : node.Relays p)
    (hstart : (node.rounds.party.onReceive e).2 = some start)
    (hreceive : onReceive p start = some (mine, other)) (hperm : shuffled.Perm other)
    : Relays { node with
        rounds := node.rounds.take e queue [anonymized p a]
        delivered := node.delivered ++ [.startRound ⟨start.round, mine, shuffled⟩]
        answers := node.answers ++ [a] } p := by
  have hstartRounds : Node.startRounds { node with
      rounds := node.rounds.take e queue [anonymized p a]
      delivered := node.delivered ++ [.startRound ⟨start.round, mine, shuffled⟩]
      answers := node.answers ++ [a] } = node.startRounds ++ [⟨start.round, mine, shuffled⟩] := by
    simp [Node.startRounds]
  obtain ⟨hparty, hreactions⟩ := take_startRounds node.rounds e queue [anonymized p a]
  rw [hstart, Option.toList_some] at hparty hreactions
  constructor
  . dsimp only
    rw [hreactions, h.reactions, List.map_append]
    rfl
  . dsimp only
    rw [hstartRounds, hparty, List.length_append, List.length_append, h.length]
    rfl
  . intro i s hs
    rw [hstartRounds] at hs
    dsimp only
    rw [hparty]
    rcases Record.getElem?_snoc hs with hold | ⟨heq, hlast⟩
    . obtain ⟨start', other', hstart', hrest⟩ := h.relayed i s hold
      exact ⟨start', other', Record.getElem?_of_prefix (List.prefix_append _ _) hstart', hrest⟩
    . rw [heq, h.length, hlast]
      exact ⟨start, other, List.getElem?_concat_length, rfl, hreceive, hperm⟩

variable [DecidableEq A]

abbrev ReachBelow (S : Type)
    (w : World (PID N) (SynchronousRounds.Node N (Anonymized N A)) (Round (Anonymized N A))) : Prop :=
  (SynchronousRounds.program (S := S)).lts.Reach
    (fun _ _ w => Regular (fun p => (w.node p).toNode)) w

theorem exists_content {w : Run N A} (hreach : ReachBelow S (below w))
    (hreactions : ∀ q, (w.node q).rounds.reactions
      = (w.node q).answers.map (fun a => [anonymized q a]))
    {p : PID N} {i : Nat} {start : StartRound N (Anonymized N A)}
    (hstart : (w.node p).rounds.party.startRounds[i]? = some start)
    : start.round = Int32.ofNat (i + 1)
        ∧ ∃ content : PID N → A, (∀ q, (w.node q).answers[i]? = some (content q))
          ∧ onReceive p start = some (content p, (others p).map content) := by
  have hlockstep := (SynchronousRounds.inv_of_reach hreach).lockstep
  refine ⟨congrArg StartRound.round ((hlockstep.exchange.receives p).startRounds i start hstart).1, ?_⟩
  have hall : ∀ q, ∃ a, (w.node q).answers[i]? = some a
      ∧ start.msgs q = some (some (anonymized q a)) := by
    intro q
    obtain ⟨m, reaction, hmsgs, -, hreaction, hfilter⟩ := hlockstep.vectors (p := p) hstart q
    have hanswer : (w.node q).rounds.reactions[i]? = some reaction := hreaction
    rw [hreactions q, List.getElem?_map, Option.map_eq_some_iff] at hanswer
    obtain ⟨a, ha, rfl⟩ := hanswer
    have hself : [anonymized q a].filter (fun m => p ∈ destinations m) = [anonymized q a] :=
      List.filter_cons_of_pos (decide_eq_true (Finset.mem_univ p))
    rw [hself] at hfilter
    cases hfilter
    exact ⟨a, ha, hmsgs⟩
  choose content hcontent using hall
  exact ⟨content, fun q => (hcontent q).1, onReceive_of_anonymized (fun q => (hcontent q).2)⟩

theorem step_input {w : Run N A} {p : PID N} {i : SynchronousRounds.Input S (Anonymized N A)}
    {rounds : SynchronousRounds.Node N (Anonymized N A)}
    (h : SynchronousRounds.program.input p i (w.node p).rounds = some (rounds, []))
    : SynchronousRounds.program.Step (below w) ⟨.input p i, []⟩
        ⟨Function.update (below w).node p rounds, w.net⟩ := by
  have hst := Program.Step.input (w := below w) (p := p) h
  rwa [Multiset.coe_nil, Multiset.zero_add] at hst

theorem step_take {w : Run N A} {p : PID N} {e : Round (Anonymized N A)}
    {queue : List (Round (Anonymized N A))} (hcontrol : (w.node p).rounds.control = .receive)
    (hqueue : (w.node p).rounds.queue = e :: queue) (reaction : List (Anonymized N A))
    : (SynchronousRounds.program (S := S)).Step (below w) ⟨.input p (.take reaction), []⟩
        ⟨Function.update (below w).node p ((w.node p).rounds.take e queue reaction), w.net⟩ := by
  apply step_input
  simp only [SynchronousRounds.program, hcontrol, hqueue]

theorem take_of_some {node node' : Node N A} {p : PID N} {e : Round (Anonymized N A)}
    {queue : List (Round (Anonymized N A))} {shuffled : List A} {answer mine : A} {other : List A}
    {start : StartRound N (Anonymized N A)} (hstart : (node.rounds.party.onReceive e).2 = some start)
    (hreceive : onReceive p start = some (mine, other))
    : node.take p e queue shuffled answer = some node' ↔ shuffled.Perm other
        ∧ node' = { node with
            rounds := node.rounds.take e queue [anonymized p answer]
            delivered := node.delivered ++ [.startRound ⟨start.round, mine, shuffled⟩]
            answers := node.answers ++ [answer] } := by
  unfold Node.take
  rw [hstart]
  dsimp only
  rw [hreceive]
  dsimp only
  split
  . next hperm =>
    rw [Option.some_inj]
    exact ⟨fun heq => ⟨hperm, heq.symm⟩, fun h => h.2.symm⟩
  . next hperm =>
    constructor
    . nofun
    . exact fun h => absurd h.1 hperm

theorem take_of_none {node : Node N A} {p : PID N} {e : Round (Anonymized N A)}
    {queue : List (Round (Anonymized N A))} {shuffled : List A} {answer : A}
    (hstart : (node.rounds.party.onReceive e).2 = none)
    : node.take p e queue shuffled answer
      = some { node with rounds := node.rounds.take e queue [] } := by
  unfold Node.take
  rw [hstart]

theorem take_party {node node' : Node N A} {p : PID N} {e : Round (Anonymized N A)}
    {queue : List (Round (Anonymized N A))} {shuffled : List A} {answer : A}
    (htake : node.take p e queue shuffled answer = some node')
    : node'.rounds.party.startRounds
      = node.rounds.party.startRounds ++ (node.rounds.party.onReceive e).2.toList := by
  unfold Node.take at htake
  split at htake
  . next hnone =>
    cases htake
    exact (take_startRounds _ _ _ _).1
  . next start hsome =>
    split at htake
    . cases htake
      exact (take_startRounds node.rounds e queue []).1
    . split at htake
      . cases htake
        exact (take_startRounds _ _ _ _).1
      . cases htake

theorem input_frame {node node' : SynchronousRounds.Node N (Anonymized N A)} {p : PID N}
    {i : SynchronousRounds.Input S (Anonymized N A)}
    {out : List (Envelope (PID N) (Round (Anonymized N A)))}
    (hi : i = .test ∨ i = .handOver ∨ ∃ ie, i = .signal ie)
    (h : SynchronousRounds.program.input p i node = some (node', out))
    : node'.reactions = node.reactions ∧ node'.party.startRounds = node.party.startRounds := by
  rcases hi with rfl | rfl | ⟨ie, rfl⟩
  . simp only [SynchronousRounds.program] at h
    split at h
    . cases h
      exact ⟨rfl, rfl⟩
    . cases h
  . simp only [SynchronousRounds.program, Option.map_eq_some_iff, Prod.exists, Prod.mk.injEq] at h
    obtain ⟨_, sends, hhand, rfl, rfl⟩ := h
    have hbelow := (SynchronousRounds.Node.handOver_cases hhand).1
    refine ⟨RoundBased.reactions_of_handOver hbelow, ?_⟩
    obtain ⟨m, outbox, result, -, hcase, heq, -⟩ := RoundBased.Node.handOver_cases hbelow
    rw [heq, RoundBased.Party.startRounds, hcase.frame.2.2.1]
    rfl
  . obtain ⟨hnode, -, -, -⟩ := node.onSend_signal p ie
    simp only [SynchronousRounds.program] at h
    cases h
    rw [hnode]
    exact ⟨rfl, rfl⟩

structure Inv (S : Type) (w : Run N A) : Prop where
  reach : ReachBelow S (below w)
  relays : ∀ p, (w.node p).Relays p

namespace Inv

variable {w : Run N A} {p : PID N} {node' : Node N A}
  {net' : Multiset (Envelope (PID N) (Round (Anonymized N A)))}

theorem running (h : Inv S w) (p : PID N) : (w.node p).rounds.control ≠ .failed :=
  (SynchronousRounds.inv_of_reach h.reach).running p

theorem step {l : Label (PID N) (SynchronousRounds.Input S (Anonymized N A)) Unit
      (Round (Anonymized N A))}
    (h : Inv S w) (hst : SynchronousRounds.program.Step (below w) l
      ⟨Function.update (below w).node p node'.rounds, net'⟩)
    (hrelays : node'.Relays p) (hshort : Short ⟨Function.update w.node p node', net'⟩)
    : Inv S ⟨Function.update w.node p node', net'⟩ := by
  have hall : ∀ q, (Function.update w.node p node' q).Relays q :=
    (Function.forall_update_iff w.node (fun q x => Node.Relays x q)).mpr
      ⟨hrelays, fun q _ => h.relays q⟩
  refine ⟨?_, hall⟩
  rw [below_update]
  refine .step h.reach hst ?_
  rw [← below_update]
  exact regular_below hshort (fun q => (hall q).reactions)

theorem init : Inv S (⟨fun _ => ({} : Node N A), 0⟩ : Run N A) where
  reach := .init rfl
  relays := fun _ =>
    { reactions := rfl
      length := rfl
      relayed := nofun }

theorem keep {l : Label (PID N) (SynchronousRounds.Input S (Anonymized N A)) Unit
      (Round (Anonymized N A))} {rounds : SynchronousRounds.Node N (Anonymized N A)}
    (h : Inv S w) (hst : SynchronousRounds.program.Step (below w) l
      ⟨Function.update (below w).node p rounds, net'⟩)
    (hreactions : rounds.reactions = (w.node p).rounds.reactions)
    (hstartRounds : rounds.party.startRounds = (w.node p).rounds.party.startRounds)
    (hshort : Short ⟨Function.update w.node p { w.node p with rounds }, net'⟩)
    : Inv S ⟨Function.update w.node p { w.node p with rounds }, net'⟩ := by
  obtain ⟨hold, hlength, hrelayed⟩ := h.relays p
  apply h.step hst _ hshort
  constructor
  . exact hreactions.trans hold
  . rw [hstartRounds]
    exact hlength
  . rw [hstartRounds]
    exact hrelayed

/--
What a process takes from its queue: if it completes a round, the content of every process is there.
-/
theorem exists_taken {e : Round (Anonymized N A)} {queue : List (Round (Anonymized N A))}
    {start : StartRound N (Anonymized N A)} (h : Inv S w)
    (hcontrol : (w.node p).rounds.control = .receive) (hqueue : (w.node p).rounds.queue = e :: queue)
    (hstart : ((w.node p).rounds.party.onReceive e).2 = some start)
    (hlt : (w.node p).rounds.party.startRounds.length + 1 < 2 ^ 31)
    (hshort : Short w) (answer : A)
    : start.round = Int32.ofNat ((w.node p).startRounds.length + 1)
        ∧ ∃ content : PID N → A,
          (∀ q, ((w.node q).answers ++ if q = p then [answer] else [])[(w.node p).startRounds.length]?
            = some (content q))
          ∧ onReceive p start = some (content p, (others p).map content) := by
  let node' : Node N A := { w.node p with
    rounds := (w.node p).rounds.take e queue [anonymized p answer]
    answers := (w.node p).answers ++ [answer] }
  let w' : Run N A := ⟨Function.update w.node p node', w.net⟩
  obtain ⟨hparty, hreactions⟩ :=
    take_startRounds (w.node p).rounds e queue [anonymized p answer]
  rw [hstart, Option.toList_some] at hparty hreactions
  have hanswers : ∀ q, (w'.node q).answers
      = (w.node q).answers ++ if q = p then [answer] else [] := by
    intro q
    by_cases hq : q = p
    . subst hq
      dsimp only [w']
      rw [Function.update_self, if_pos rfl]
    . dsimp only [w']
      rw [Function.update_of_ne hq, if_neg hq, List.append_nil]
  have hall : ∀ q, (w'.node q).rounds.reactions
      = (w'.node q).answers.map (fun a => [anonymized q a]) := by
    apply (Function.forall_update_iff w.node
      (fun q x => x.rounds.reactions = x.answers.map (fun a => [anonymized q a]))).mpr
    refine ⟨?_, fun q _ => (h.relays q).reactions⟩
    dsimp only [node']
    rw [hreactions, (h.relays p).reactions, List.map_append]
    rfl
  have hshort' : Short w' := by
    apply (Function.forall_update_iff w.node
      (fun _ x => x.rounds.party.startRounds.length < 2 ^ 31)).mpr
    refine ⟨?_, fun q _ => hshort q⟩
    dsimp only [node']
    rw [hparty, List.length_append]
    exact hlt
  have hreach : ReachBelow S (below w') := by
    have hst : (SynchronousRounds.program (S := S)).Step (below w)
        ⟨.input p (.take [anonymized p answer]), []⟩ (below w') := by
      dsimp only [w']
      rw [below_update]
      exact step_take (S := S) hcontrol hqueue [anonymized p answer]
    exact .step h.reach hst (regular_below hshort' hall)
  have hlast : (w'.node p).rounds.party.startRounds[(w.node p).startRounds.length]? = some start := by
    dsimp only [w']
    rw [Function.update_self, (h.relays p).length]
    dsimp only [node']
    rw [hparty, List.getElem?_concat_length]
  obtain ⟨hround, content, hcontent, hreceive⟩ := exists_content hreach hall hlast
  refine ⟨hround, content, ?_, hreceive⟩
  intro q
  rw [← hanswers]
  exact hcontent q

theorem take {e : Round (Anonymized N A)} {queue : List (Round (Anonymized N A))}
    {shuffled : List A} {answer : A} (h : Inv S w)
    (hcontrol : (w.node p).rounds.control = .receive) (hqueue : (w.node p).rounds.queue = e :: queue)
    (htake : (w.node p).take p e queue shuffled answer = some node')
    (hold : Short w) (hshort : Short ⟨Function.update w.node p node', w.net⟩)
    : Inv S ⟨Function.update w.node p node', w.net⟩ := by
  cases hstart : ((w.node p).rounds.party.onReceive e).2 with
  | none =>
    obtain ⟨hparty, hreactions⟩ := take_startRounds (w.node p).rounds e queue []
    rw [hstart, Option.toList_none, List.append_nil] at hparty
    rw [hstart, Option.toList_none, List.map_nil, List.append_nil] at hreactions
    rw [take_of_none hstart, Option.some_inj] at htake
    subst htake
    exact h.keep (step_take (S := S) hcontrol hqueue []) hreactions hparty hshort
  | some start =>
    have hlt : (w.node p).rounds.party.startRounds.length + 1 < 2 ^ 31 := by
      have hlt := hshort p
      dsimp only at hlt
      rw [Function.update_self, take_party htake, hstart, List.length_append] at hlt
      exact hlt
    obtain ⟨-, content, -, hreceive⟩ := h.exists_taken hcontrol hqueue hstart hlt hold answer
    obtain ⟨hperm, rfl⟩ := (take_of_some hstart hreceive).mp htake
    exact h.step (step_take (S := S) hcontrol hqueue _) ((h.relays p).startRound hstart hreceive hperm)
      hshort

theorem below_step {i : SynchronousRounds.Input S (Anonymized N A)}
    {out : List (Envelope (PID N) (Round (Anonymized N A)))} (h : Inv S w)
    (hi : i = .test ∨ i = .handOver ∨ ∃ ie, i = .signal ie)
    (hbelow : (w.node p).below S p i = some (node', out))
    (hshort : Short ⟨Function.update w.node p node', ↑out + w.net⟩)
    : Inv S ⟨Function.update w.node p node', ↑out + w.net⟩ := by
  simp only [Node.below, Option.map_eq_some_iff, Prod.exists, Prod.mk.injEq] at hbelow
  obtain ⟨rounds, _, hinput, rfl, rfl⟩ := hbelow
  obtain ⟨hreactions, hstartRounds⟩ := input_frame hi hinput
  exact h.keep (Program.Step.input (w := below w) hinput) hreactions hstartRounds hshort

end Inv

theorem inv_of_reach {w : Run N A}
    (h : (program (S := S) (M := M)).lts.Reach (fun _ _ w => Short w) w)
    : Inv S w ∧ Short w := by
  apply LTS.Reach.invariant (I := fun w => Inv S w ∧ Short w) _ _ h
  . rintro w rfl
    refine ⟨.init, ?_⟩
    intro p
    exact Nat.two_pow_pos 31
  . rintro w l w' - ⟨hinv, hold⟩ hst hshort
    refine ⟨?_, hshort⟩
    cases hst with
    | @input p i node' out hinput =>
      cases i with
      | run answer =>
        simp only [program] at hinput
        split at hinput
        . next hcontrol =>
          cases hinput
          rw [Multiset.coe_nil, Multiset.zero_add] at hshort ⊢
          have hrun : (SynchronousRounds.program (S := S)).input p (.run [anonymized p answer])
              (w.node p).rounds = some ((w.node p).rounds.run [anonymized p answer], []) := by
            simp only [SynchronousRounds.program, hcontrol, if_true]
          exact hinv.step (step_input hrun) (hinv.relays p).initRound hshort
        . cases hinput
      | test => exact hinv.below_step (.inl rfl) hinput hshort
      | take shuffled answer =>
        simp only [program] at hinput
        split at hinput
        . next hcontrol hqueue =>
          simp only [Option.map_eq_some_iff, Prod.mk.injEq] at hinput
          obtain ⟨_, htake, rfl, rfl⟩ := hinput
          rw [Multiset.coe_nil, Multiset.zero_add] at hshort ⊢
          exact hinv.take hcontrol hqueue htake hold hshort
        . cases hinput
      | handOver => exact hinv.below_step (.inr (.inl rfl)) hinput hshort
      | client e =>
        simp only [program] at hinput
        split at hinput
        . exact hinv.below_step (.inr (.inr ⟨_, rfl⟩)) hinput hshort
        . cases hinput
    | @receive p e _ node' out rest hnet hreceive =>
      cases hreceive
      rw [Multiset.coe_nil, Multiset.zero_add] at hshort ⊢
      have hdeliver : (SynchronousRounds.program (S := S)).Step (below w) ⟨.receive p e (), []⟩ _ :=
        Program.Step.receive hnet rfl
      rw [Multiset.coe_nil, Multiset.zero_add] at hdeliver
      exact hinv.keep hdeliver rfl rfl hshort

/--
Every `StartRound` carries the own content and, in some order, those of all others.
-/
structure Lossless (w : Run N A) : Prop where
  numbers : ∀ p (i : Nat) s, (w.node p).startRounds[i]? = some s → s.round.toInt = i + 1
  contents : ∀ p (i : Nat) s, (w.node p).startRounds[i]? = some s →
    ∃ content : PID N → A, (∀ q, (w.node q).answers[i]? = some (content q))
      ∧ s.mine = content p ∧ s.other.Perm ((others p).map content)
  running : ∀ p, (w.node p).rounds.control ≠ .failed

theorem Inv.exists_start {w : Run N A} {p : PID N} {i : Nat} {s : AnonymousStart A} (h : Inv S w)
    (hs : (w.node p).startRounds[i]? = some s)
    : s.round = Int32.ofNat (i + 1)
        ∧ ∃ content : PID N → A, (∀ q, (w.node q).answers[i]? = some (content q))
          ∧ s.mine = content p ∧ s.other.Perm ((others p).map content) := by
  obtain ⟨start, other, hstart, hround, hreceive, hperm⟩ := (h.relays p).relayed i s hs
  obtain ⟨hnumber, content, hcontent, hreceive'⟩ :=
    exists_content h.reach (fun q => (h.relays q).reactions) hstart
  rw [hreceive, Option.some_inj, Prod.mk.injEq] at hreceive'
  obtain ⟨hmine, hother⟩ := hreceive'
  rw [hother] at hperm
  exact ⟨hround.trans hnumber, content, hcontent, hmine, hperm⟩

theorem Inv.lossless {w : Run N A} (h : Inv S w) (hshort : Short w) : Lossless w where
  numbers := by
    intro p i s hs
    have hlt := (List.getElem?_eq_some_iff.mp hs).1
    have hbound := hshort p
    rw [← (h.relays p).length] at hbound
    rw [(h.exists_start hs).1, Int32.toInt_ofNat_of_lt (by omega), Int.natCast_succ]
  contents := fun _ _ _ hs => (h.exists_start hs).2
  running := h.running

end AnonymousRounds
