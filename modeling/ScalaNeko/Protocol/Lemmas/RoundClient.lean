import ScalaNeko.Protocol.Lemmas.RoundExchange

/-!
Clients that react to each signal with one batch of messages, whose destination sets partition the
processes.
-/

open DisjointCover

namespace RoundBased

variable {N : Nat} {S M : Type}

namespace Node

def Reacted (node : Node N M) : Prop :=
  node.reactions.length = node.party.startRounds.length + if node.isStarted then 1 else 0

theorem Reacted.init : Reacted ({} : Node N M) := rfl

theorem Reacted.preStart {node : Node N M} {reaction : List M} (h : node.Reacted)
    (hstarted : node.isStarted = false)
    : (node.preStart reaction).Reacted := by
  unfold Reacted at h ⊢
  rw [hstarted] at h
  simp only [Node.preStart, react, List.length_append, h]
  simp [Party.deliver, Party.startRounds]

end Node

variable [Message N M]

open Message (destinations fromPID)

structure IsBatch (p : PID N) (reaction : List M) : Prop where
  fromPID_eq : ∀ m, m ∈ reaction → fromPID m = p
  partition : IsPartition destinations reaction

def payload (ms : List M) : List M := ms.filter (fun m => (destinations m).Nonempty)

theorem payload_append (ms ms' : List M) : payload (ms ++ ms') = payload ms ++ payload ms' :=
  List.filter_append _ _

theorem payload_cons_of_nonempty {m : M} (hm : (destinations m).Nonempty) (ms : List M)
    : payload (m :: ms) = m :: payload ms :=
  List.filter_cons_of_pos (decide_eq_true hm)

@[simp]
theorem payload_nil : payload ([] : List M) = [] := rfl

theorem payload_cons_of_empty {m : M} (hm : destinations m = ∅) (ms : List M)
    : payload (m :: ms) = payload ms := by
  apply List.filter_cons_of_neg
  simp [hm]

theorem size_payload (ms : List M) : size destinations (payload ms) = size destinations ms :=
  size_filter_nonempty

theorem nonempty_of_mem_payload {ms : List M} {m : M} (h : m ∈ payload ms)
    : (destinations m).Nonempty :=
  of_decide_eq_true (List.mem_filter.mp h).2

theorem IsBatch.size_eq {p : PID N} {reaction : List M} (h : IsBatch p reaction)
    : size destinations reaction = N := by
  rw [(isPartition_iff.mp h.partition).2, Fintype.card_fin]

-- Two messages of one reaction have no common destination.
theorem IsBatch.disjoint {p : PID N} {m b : M} {reaction held c : List M} (h : IsBatch p reaction)
    (hc : payload reaction = payload held.reverse ++ m :: c) (hb : b ∈ held)
    : Disjoint (destinations b) (destinations m) := by
  rcases (destinations b).eq_empty_or_nonempty with hempty | hne
  . rw [hempty]
    exact Finset.disjoint_empty_left _
  . have hpairwise := h.partition.1.sublist (List.filter_sublist (p := fun m => (destinations m).Nonempty))
    rw [← payload, hc, List.pairwise_append] at hpairwise
    apply hpairwise.2.2 b _ m List.mem_cons_self
    exact List.mem_filter.mpr ⟨List.mem_reverse.mpr hb, decide_eq_true hne⟩

-- When the batch is complete, nothing of the reaction is left.
theorem IsBatch.eq_nil {p : PID N} {m : M} {reaction held c : List M} (h : IsBatch p reaction)
    (hc : payload reaction = payload held.reverse ++ m :: c)
    (hsize : (destinations m).card + size destinations held = N)
    : c = [] := by
  apply eq_nil_of_size_eq_zero (f := destinations)
  . intro x hx
    have hmem : x ∈ payload reaction := by
      rw [hc]
      exact List.mem_append_right _ (List.mem_cons_of_mem _ hx)
    exact nonempty_of_mem_payload hmem
  . have hall := h.size_eq
    rw [← size_payload, hc, size_append, size_cons, size_payload,
      size_perm (List.reverse_perm _)] at hall
    omega

namespace Node

def HandedOver (node : Node N M) (k : Nat) : Prop :=
  k < node.reactions.length ∧ (node.reactions.take (k + 1)).flatten <+: node.handed

/--
What the protocol sent, holds and has not been given yet of the reactions of its client.
-/
structure Follows (node : Node N M) : Prop where
  handed : node.handed ++ node.outbox = node.reactions.flatten
  flushes_le : node.party.flushes ≤ node.reactions.length
  pending : payload (node.reactions.drop node.party.flushes).flatten
    = payload node.party.rounds.sendBatch.reverse ++ payload node.outbox
  sent : ∀ k, k < node.party.flushes → ∀ reaction, node.reactions[k]? = some reaction →
    (payload (tagged node.party.emitted (Int32.ofNat k))).Perm (payload reaction)
  exceptions : node.party.exceptions = []

variable {node : Node N M} {p : PID N} {reaction : List M}

theorem Follows.init : Follows ({} : Node N M) where
  handed := rfl
  flushes_le := Nat.le_refl _
  pending := rfl
  sent := by simp
  exceptions := rfl

theorem Follows.react (h : node.Follows) {party : Party N M} {isStarted : Bool}
    (hemitted : party.emitted = node.party.emitted) (hflushes : party.flushes = node.party.flushes)
    (hbatch : party.rounds.sendBatch = node.party.rounds.sendBatch)
    (hexceptions : party.exceptions = node.party.exceptions)
    : (({ node with party, isStarted } : Node N M).react reaction).Follows := by
  constructor
  . simp only [Node.react, List.flatten_append, ← List.append_assoc, h.handed]
    simp
  . simp only [Node.react, List.length_append, hflushes]
    have := h.flushes_le
    omega
  . simp only [Node.react, hflushes, hbatch]
    rw [List.drop_append_of_le_length h.flushes_le, List.flatten_append, payload_append, h.pending,
      payload_append, List.append_assoc, List.flatten_singleton]
  . intro k hk reaction' hreaction'
    simp only [Node.react, hflushes, hemitted] at hk hreaction' ⊢
    rw [List.getElem?_append_left (Nat.lt_of_lt_of_le hk h.flushes_le)] at hreaction'
    exact h.sent k hk reaction' hreaction'
  . exact hexceptions.trans h.exceptions

theorem Follows.lt_flushes (h : node.Follows) (hsends : node.party.Sends p)
    (hbatches : ∀ reaction, reaction ∈ node.reactions → IsBatch p reaction) {k : Nat}
    (hk : node.HandedOver k)
    : k < node.party.flushes := by
  obtain ⟨hlt, hpre⟩ := hk
  have hsize := fun l (hl : l ⊆ node.reactions) =>
    size_flatten (fun reaction hreaction => (hbatches reaction (hl hreaction)).size_eq)
  have hhanded := congrArg (size destinations) h.handed
  have hpending := congrArg (size destinations) h.pending
  rw [size_append, hsize _ (List.Subset.refl _)] at hhanded
  rw [size_payload, size_append, size_payload, size_payload, size_perm (List.reverse_perm _),
    hsize _ (List.drop_subset _ _), List.length_drop] at hpending
  obtain ⟨more, hmore⟩ := hpre
  have htaken := congrArg (size destinations) hmore
  rw [size_append, hsize _ (List.take_subset _ _), List.length_take, Nat.min_eq_left hlt] at htaken
  have hheld := hsends.batch_disjoint.size_le
  have hopen := hsends.batch_open
  rw [Fintype.card_fin] at hheld
  have hsplit : node.reactions.length * N
      = node.party.flushes * N + (node.reactions.length - node.party.flushes) * N := by
    rw [← Nat.add_mul, Nat.add_sub_cancel' h.flushes_le]
  by_contra hnot
  have hmul := Nat.mul_le_mul_right N (Nat.succ_le_succ (not_lt.mp hnot))
  rw [Nat.succ_mul] at hmul
  omega

theorem Follows.handedOver (h : node.Follows) (houtbox : node.outbox = []) {k : Nat}
    (hk : k < node.reactions.length)
    : node.HandedOver k := by
  have hhanded := h.handed
  rw [houtbox, List.append_nil] at hhanded
  refine ⟨hk, (node.reactions.drop (k + 1)).flatten, ?_⟩
  rw [← List.flatten_append, List.take_append_drop, hhanded]

theorem Follows.preStart (h : node.Follows)
    : (node.preStart reaction).Follows :=
  h.react rfl rfl rfl rfl

theorem onReceive_cases (node : Node N M) (e : Round M) (reaction : List M)
    : ∃ result, node.party.ReceiveCase e result
        ∧ ((result.2 = none ∧ node.onReceive e reaction = { node with party := result.1 })
          ∨ (∃ start, result.2 = some start
            ∧ node.onReceive e reaction = ({ node with party := result.1 } : Node N M).react reaction)) := by
  refine ⟨_, Party.onReceive_cases node.party e, ?_⟩
  unfold Node.onReceive
  cases hresult : node.party.onReceive e with
  | mk party start =>
    cases start with
    | none => exact .inl ⟨rfl, rfl⟩
    | some start => exact .inr ⟨start, rfl, rfl⟩

theorem Reacted.onReceive (h : node.Reacted) (e : Round M) (reaction : List M)
    : (node.onReceive e reaction).Reacted := by
  obtain ⟨result, hcase, ⟨hnone, heq⟩ | ⟨start, hsome, heq⟩⟩ := node.onReceive_cases e reaction
  . rw [heq]
    unfold Reacted at h ⊢
    rw [hcase.startRounds_eq, hnone, Option.toList_none, List.append_nil]
    exact h
  . rw [heq]
    unfold Reacted at h ⊢
    show (node.reactions ++ [reaction]).length
      = result.1.startRounds.length + if node.isStarted then 1 else 0
    rw [List.length_append, h, hcase.startRounds_eq, hsome, List.length_append, Option.toList_some,
      List.length_singleton, List.length_singleton, Nat.add_right_comm]

theorem Follows.onReceive (h : node.Follows) (e : Round M) (reaction : List M)
    : (node.onReceive e reaction).Follows := by
  obtain ⟨result, hcase, ⟨hnone, heq⟩ | ⟨start, hsome, heq⟩⟩ := node.onReceive_cases e reaction
  . obtain ⟨hemitted, hflushes, hexceptions, -, hbatch⟩ := hcase.frame
    rw [heq]
    constructor
    . exact h.handed
    . rw [hflushes]
      exact h.flushes_le
    . rw [hflushes, hbatch]
      exact h.pending
    . rw [hflushes, hemitted]
      exact h.sent
    . rw [hexceptions]
      exact h.exceptions
  . obtain ⟨hemitted, hflushes, hexceptions, -, hbatch⟩ := hcase.frame
    rw [heq]
    exact h.react hemitted hflushes hbatch hexceptions

section HandOver

variable {m : M} {outbox : List M}

theorem Follows.fromPID_eq (h : node.Follows)
    (hbatches : ∀ reaction, reaction ∈ node.reactions → IsBatch p reaction)
    (houtbox : node.outbox = m :: outbox)
    : fromPID m = p := by
  have hmem : m ∈ node.reactions.flatten := by
    rw [← h.handed, houtbox]
    exact List.mem_append_right _ List.mem_cons_self
  obtain ⟨reaction, hreaction, hm⟩ := List.mem_flatten.mp hmem
  exact (hbatches reaction hreaction).fromPID_eq m hm

theorem Follows.exists_reaction (h : node.Follows) (hsends : node.party.Sends p)
    (hbatches : ∀ reaction, reaction ∈ node.reactions → IsBatch p reaction)
    (houtbox : node.outbox = m :: outbox) (hm : (destinations m).Nonempty)
    : ∃ reaction c, node.reactions[node.party.flushes]? = some reaction
        ∧ payload reaction = payload node.party.rounds.sendBatch.reverse ++ m :: c
        ∧ payload outbox = c ++ payload (node.reactions.drop (node.party.flushes + 1)).flatten := by
  have hpending := h.pending
  rw [houtbox, payload_cons_of_nonempty hm] at hpending
  cases hdrop : node.reactions.drop node.party.flushes with
  | nil => simp [hdrop, payload] at hpending
  | cons reaction later =>
    have hreaction : node.reactions[node.party.flushes]? = some reaction := by
      rw [← List.head?_drop, hdrop]
      rfl
    have hlater : node.reactions.drop (node.party.flushes + 1) = later := by
      rw [← List.tail_drop, hdrop]
      rfl
    rw [hdrop, List.flatten_cons, payload_append] at hpending
    -- what is held is less than a whole batch
    have hlt : size destinations (payload node.party.rounds.sendBatch.reverse)
        < size destinations (payload reaction) := by
      have hle := hsends.batch_disjoint.size_le
      have hopen := hsends.batch_open
      rw [Fintype.card_fin] at hle
      rw [size_payload, size_payload, size_perm (List.reverse_perm _),
        (hbatches reaction (List.mem_of_getElem? hreaction)).size_eq]
      omega
    obtain ⟨c, hc, hrest⟩ := exists_eq_append_cons hpending hlt
    rw [hlater]
    exact ⟨reaction, c, hreaction, hc, hrest⟩

theorem payload_reverse_insert [DecidableEq M] {held : List M}
    (hdisjoint : ∀ b, b ∈ held → Disjoint (destinations b) (destinations m))
    : payload (held.insert m).reverse = payload held.reverse ++ payload [m] := by
  rcases insert_cases hdisjoint with heq | ⟨hempty, heq⟩
  . rw [heq, List.reverse_cons, payload_append]
  . rw [heq, payload_cons_of_empty hempty, payload_nil, List.append_nil]

variable [DecidableEq M] {result : Party N M × List (Event S (Round M))}

theorem Follows.send_of_empty (h : node.Follows) (hsends : node.party.Sends p)
    (houtbox : node.outbox = m :: outbox) (hm : destinations m = ∅)
    (hcase : node.party.SendCase p m result)
    : Follows { node with party := result.1, outbox, handed := node.handed ++ [m] } := by
  cases hcase with
  | refused b hb hnot =>
    rw [hm] at hnot
    exact absurd (Finset.disjoint_empty_right _) hnot
  | kept hdisjoint hsize =>
    constructor
    . rw [← h.handed, houtbox, List.append_assoc, List.singleton_append]
    . exact h.flushes_le
    . have hpending := h.pending
      rw [houtbox, payload_cons_of_empty hm] at hpending
      dsimp only
      rw [payload_reverse_insert hdisjoint, payload_cons_of_empty hm, hpending, payload_nil,
        List.append_nil]
    . exact h.sent
    . exact h.exceptions
  | completed hdisjoint hsize =>
    rw [size_insert hdisjoint, hm, Finset.card_empty, Nat.zero_add] at hsize
    exact absurd hsize hsends.batch_open

theorem Follows.send_of_nonempty (h : node.Follows) (hsends : node.party.Sends p)
    (hbatches : ∀ reaction, reaction ∈ node.reactions → IsBatch p reaction)
    (houtbox : node.outbox = m :: outbox) (hm : (destinations m).Nonempty)
    (hreactions : node.reactions.length ≤ 2 ^ 31) (hcase : node.party.SendCase p m result)
    : Follows { node with party := result.1, outbox, handed := node.handed ++ [m] } := by
  obtain ⟨reaction, c, hreaction, hc, hrest⟩ := h.exists_reaction hsends hbatches houtbox hm
  have hbatch := hbatches reaction (List.mem_of_getElem? hreaction)
  have hlt : node.party.flushes < node.reactions.length := (List.getElem?_eq_some_iff.mp hreaction).1
  have hdrop : payload (node.reactions.drop node.party.flushes).flatten
      = payload node.party.rounds.sendBatch.reverse ++ m :: payload outbox := by
    rw [h.pending, houtbox, payload_cons_of_nonempty hm]
  have hpayload : payload [m] = [m] := payload_cons_of_nonempty hm []
  cases hcase with
  | refused b hb hnot =>
    exact absurd (hbatch.disjoint hc hb) hnot
  | kept hdisjoint hsize =>
    constructor
    . rw [← h.handed, houtbox, List.append_assoc, List.singleton_append]
    . exact h.flushes_le
    . dsimp only
      rw [hdrop, payload_reverse_insert hdisjoint, hpayload, List.append_assoc,
        List.singleton_append]
    . exact h.sent
    . exact h.exceptions
  | completed hdisjoint hsize =>
    have hheld := payload_reverse_insert hdisjoint
    rw [hpayload] at hheld
    have hlt31 := Nat.lt_of_lt_of_le hlt hreactions
    rw [size_insert hdisjoint] at hsize
    have hnil := hbatch.eq_nil hc hsize
    subst hnil
    constructor
    . rw [← h.handed, houtbox, List.append_assoc, List.singleton_append]
    . exact hlt
    . exact hrest.symm
    . intro k hk reaction' hreaction'
      dsimp only at hk hreaction' ⊢
      rw [tagged_append_map, hsends.sendRound]
      rcases Nat.lt_succ_iff_lt_or_eq.mp hk with hk | rfl
      . rw [if_neg (by rw [Int32.ofNat_inj_of_lt hlt31 (by omega)]; omega)]
        exact h.sent k hk reaction' hreaction'
      . rw [if_pos rfl, hsends.tagged_eq_nil hlt31, List.nil_append]
        rw [hreaction, Option.some_inj] at hreaction'
        rw [← hreaction', hc, ← hheld]
        exact (List.reverse_perm _).symm.filter _
    . exact h.exceptions

theorem Reacted.send (h : node.Reacted) (hcase : node.party.SendCase p m result)
    : Reacted { node with party := result.1, outbox, handed := node.handed ++ [m] } := by
  obtain ⟨-, -, hsignals, -, -⟩ := hcase.frame
  unfold Reacted Party.startRounds at h ⊢
  dsimp only
  rw [hsignals]
  exact h

theorem handOver_cases {node' : Node N M} {sends : List (Event S (Round M))}
    (hst : node.handOver S p = some (node', sends))
    : ∃ m outbox result, node.outbox = m :: outbox ∧ node.party.SendCase p m result
        ∧ node' = { node with party := result.1, outbox, handed := node.handed ++ [m] }
        ∧ sends = result.2 := by
  unfold Node.handOver at hst
  split at hst
  . cases hst
  . next m outbox houtbox =>
    cases hst
    exact ⟨m, outbox, _, houtbox, Party.onSend_cases node.party p m, rfl, rfl⟩

theorem Follows.send (h : node.Follows) (hsends : node.party.Sends p)
    (hbatches : ∀ reaction, reaction ∈ node.reactions → IsBatch p reaction)
    (hreactions : node.reactions.length ≤ 2 ^ 31) (houtbox : node.outbox = m :: outbox)
    (hcase : node.party.SendCase p m result)
    : Follows { node with party := result.1, outbox, handed := node.handed ++ [m] } := by
  rcases (destinations m).eq_empty_or_nonempty with hempty | hne
  . exact h.send_of_empty hsends houtbox hempty hcase
  . exact h.send_of_nonempty hsends hbatches houtbox hne hreactions hcase

end HandOver

end Node

end RoundBased
