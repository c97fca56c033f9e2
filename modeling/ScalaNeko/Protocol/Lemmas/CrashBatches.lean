import ScalaNeko.Protocol.Lemmas.RoundBasedWithFailures

/-!
What a process with crashes hands over in a round partitions the processes, as long as `preStart`
does not make it crash in the middle of a batch of its client.
-/

open AsyncNetwork
open DisjointCover

namespace RoundBased

variable {N : Nat} {S M : Type} [Message N M]

open Message (destinations)

-- The messages of the `k`-th batch carry the number `k`.
def numbered (batches : List (List M)) : List (Round M) :=
  (batches.mapIdx (fun k batch => batch.map (⟨·, Int32.ofNat k⟩))).flatten

theorem numbered_append (batches : List (List M)) (batch : List M)
    : numbered (batches ++ [batch])
      = numbered batches ++ batch.map (⟨·, Int32.ofNat batches.length⟩) := by
  rw [numbered, List.mapIdx_concat, List.flatten_concat]
  rfl

namespace Party

structure Emits (party : Party N M) : Prop where
  disjoint : IsDisjoint destinations party.rounds.sendBatch
  size_ne : size destinations party.rounds.sendBatch ≠ N
  sendRound : party.rounds.sendRound = Int32.ofNat party.flushes
  batches : ∃ batches : List (List M), batches.length = party.flushes
    ∧ (∀ batch, batch ∈ batches → IsPartition destinations batch)
    ∧ party.emitted = numbered batches

-- `sendBatch` holds nothing that has a destination.
def Spent (party : Party N M) : Prop := ∀ m, m ∈ party.rounds.sendBatch → destinations m = ∅

/--
With the messages of `rest`, `k` more batches will be complete.
-/
def Owes (party : Party N M) (rest : List M) (k : Nat) : Prop :=
  IsPartition destinations (party.rounds.sendBatch ++ rest) ∧ k = 1
    ∨ (∀ m, m ∈ party.rounds.sendBatch ++ rest → destinations m = ∅) ∧ k = 0

variable {party party' : Party N M} {me : PID N} {m : M} {rest : List M} {k : Nat}

theorem Emits.init (me : PID N) : Emits ({} : Party N M) where
  disjoint := .nil
  size_ne := (@Sends.init N M _ me).batch_open
  sendRound := rfl
  batches := ⟨[], rfl, nofun, rfl⟩

theorem Emits.frame (h : party.Emits) (hemitted : party'.emitted = party.emitted)
    (hflushes : party'.flushes = party.flushes)
    (hround : party'.rounds.sendRound = party.rounds.sendRound)
    (hbatch : party'.rounds.sendBatch = party.rounds.sendBatch)
    : party'.Emits := by
  obtain ⟨hdisjoint, hsize, hsendRound, hbatches⟩ := h
  rw [← hbatch] at hdisjoint hsize
  rw [← hround, ← hflushes] at hsendRound
  rw [← hflushes, ← hemitted] at hbatches
  exact ⟨hdisjoint, hsize, hsendRound, hbatches⟩

theorem Spent.owes (h : party.Spent) (hrest : IsPartition destinations rest) : party.Owes rest 1 :=
  .inl ⟨hrest.append_of_empty h, rfl⟩

-- A partition of all processes is no batch that is still open.
theorem Owes.spent (h : party.Owes [] k) (hemits : party.Emits) : party.Spent ∧ k = 0 := by
  rcases h with ⟨hpartition, -⟩ | ⟨hempty, hk⟩
  . rw [List.append_nil, isPartition_iff, Fintype.card_fin] at hpartition
    exact absurd hpartition.2 hemits.size_ne
  . rw [List.append_nil] at hempty
    exact ⟨hempty, hk⟩

section Send

variable [DecidableEq M] {result : Party N M × List (Event S (Round M))}

theorem SendCase.emits (h : SendCase party me m result) (hemits : party.Emits) : result.1.Emits := by
  cases h with
  | refused => exact { hemits with }
  | kept hdisjoint hsize =>
    exact { hemits with
      disjoint := hemits.disjoint.insert hdisjoint
      size_ne := hsize }
  | completed hdisjoint hsize =>
    obtain ⟨batches, hlength, hpartition, hemitted⟩ := hemits.batches
    constructor
    . exact .nil
    . exact (@Sends.init N M _ me).batch_open
    . rw [hemits.sendRound, Int32.ofNat_add]
      rfl
    . refine ⟨batches ++ [party.rounds.sendBatch.insert m], ?_, ?_, ?_⟩
      . rw [List.length_append, hlength]
        rfl
      . intro batch hbatch
        rw [List.mem_append, List.mem_singleton] at hbatch
        rcases hbatch with hbatch | rfl
        . exact hpartition batch hbatch
        . rw [isPartition_iff, Fintype.card_fin]
          exact ⟨hemits.disjoint.insert hdisjoint, hsize⟩
      . rw [numbered_append, ← hemitted, hlength, ← hemits.sendRound]

theorem SendCase.owes (h : SendCase party me m result) (howes : party.Owes (m :: rest) k)
    : result.1.exceptions = party.exceptions
        ∧ ∃ k', result.1.Owes rest k' ∧ result.1.flushes + k' = party.flushes + k := by
  rcases howes with ⟨hpartition, rfl⟩ | ⟨hempty, rfl⟩
  . obtain ⟨hnew, hinsert⟩ := hpartition.insert
    cases h with
    | refused b hb hnot => exact absurd (hnew b hb) hnot
    | kept => exact ⟨rfl, 1, .inl ⟨hinsert, rfl⟩, rfl⟩
    | completed _ hsize =>
      refine ⟨rfl, 0, .inr ⟨?_, rfl⟩, rfl⟩
      rw [isPartition_iff, Fintype.card_fin, size_append, hsize] at hinsert
      have hrest : size destinations rest = 0 := by omega
      exact size_eq_zero_iff.mp hrest
  . have hnew : ∀ b, b ∈ party.rounds.sendBatch → Disjoint (destinations b) (destinations m) := by
      intro b hb
      rw [hempty b (List.mem_append_left _ hb)]
      exact Finset.disjoint_empty_left _
    have hall : ∀ b, b ∈ party.rounds.sendBatch.insert m → destinations b = ∅ := by
      intro b hb
      rw [List.mem_insert_iff] at hb
      rcases hb with rfl | hb
      . exact hempty b (List.mem_append_right _ List.mem_cons_self)
      . exact hempty b (List.mem_append_left _ hb)
    cases h with
    | refused b hb hnot => exact absurd (hnew b hb) hnot
    | kept =>
      refine ⟨rfl, 0, .inr ⟨?_, rfl⟩, rfl⟩
      intro b hb
      rw [List.mem_append] at hb
      rcases hb with hb | hb
      . exact hall b hb
      . exact hempty b (List.mem_append_right _ (List.mem_cons_of_mem _ hb))
    | completed _ hsize =>
      rw [size_eq_zero_iff.mpr hall] at hsize
      have := me.isLt
      omega

theorem exceptions_of_not_disjoint {b : M}
    (hb : b ∈ party.rounds.sendBatch) (hnot : ¬ Disjoint (destinations b) (destinations m))
    : (party.onSend me (.message m : Event S M)).1.exceptions ≠ party.exceptions := by
  have hcase := onSend_cases (S := S) party me m
  generalize party.onSend me (.message m : Event S M) = result at hcase ⊢
  cases hcase with
  | refused => simp
  | kept hdisjoint => exact absurd (hdisjoint b hb) hnot
  | completed hdisjoint => exact absurd (hdisjoint b hb) hnot

theorem sendBatch_of_nil (hnil : party.rounds.sendBatch = [])
    (hne : destinations m ≠ Finset.univ)
    : (party.onSend me (.message m : Event S M)).1.rounds.sendBatch = [m] := by
  have hcase := onSend_cases (S := S) party me m
  generalize party.onSend me (.message m : Event S M) = result at hcase ⊢
  cases hcase with
  | refused b hb =>
    rw [hnil] at hb
    cases hb
  | kept =>
    dsimp only
    rw [hnil, List.insert_nil]
  | completed _ hsize =>
    rw [hnil, List.insert_nil, size_cons, size_nil, Nat.add_zero] at hsize
    have huniv := Finset.card_eq_iff_eq_univ (destinations m)
    rw [Fintype.card_fin] at huniv
    exact absurd (huniv.mp hsize) hne

end Send

end Party

end RoundBased

namespace RoundBasedWithFailures

open Message (destinations)
open RoundBased (Party)

variable {N : Nat} {S M : Type} [Message N M]

theorem isPartition_plain {reaction : List M} (h : IsPartition destinations reaction)
    : IsPartition destinations (reaction.map (.plain : M → Msg N M)) := by
  constructor
  . exact List.pairwise_map.mpr h.1
  . intro q
    obtain ⟨m, hm, hq⟩ := h.2 q
    exact ⟨.plain m, List.mem_map_of_mem hm, hq⟩

theorem isPartition_crashed (me : PID N)
    : IsPartition destinations [(.crashed me Finset.univ : Msg N M)] := by
  refine ⟨List.pairwise_singleton _ _, ?_⟩
  intro q
  exact ⟨_, List.mem_singleton_self _, Finset.mem_univ q⟩

/--
`Crashed` covers what `PartialCrashed` does not.
-/
theorem isPartition_partialCrashed (me : PID N) (m : M) (lost : Finset (PID N))
    : IsPartition destinations ((.partialCrashed m lost : Msg N M)
        :: if (Finset.univ \ destinations m).Nonempty then
            [.crashed me (Finset.univ \ destinations m)]
          else
            []) := by
  by_cases hother : (Finset.univ \ destinations m).Nonempty
  . rw [if_pos hother]
    constructor
    . refine List.pairwise_pair.mpr ?_
      exact Finset.disjoint_sdiff
    . intro q
      by_cases hq : q ∈ destinations m
      . exact ⟨_, List.mem_cons_self, hq⟩
      . refine ⟨.crashed me (Finset.univ \ destinations m), by simp, ?_⟩
        exact Finset.mem_sdiff.mpr ⟨Finset.mem_univ q, hq⟩
  . rw [if_neg hother]
    refine ⟨List.pairwise_singleton _ _, ?_⟩
    intro q
    refine ⟨_, List.mem_singleton_self _, ?_⟩
    by_contra hq
    exact hother ⟨q, Finset.mem_sdiff.mpr ⟨Finset.mem_univ q, hq⟩⟩

namespace Node

/--
While a process runs, its client still has what completes the batch of the last signal.
-/
structure Sound (node : Node N M) : Prop where
  emits : node.party.Emits
  exceptions : node.party.exceptions = []
  running : node.failures.state = .running →
    ∃ k, node.party.Owes (node.outbox.map .plain) k
      ∧ node.party.signals.length ≤ node.party.flushes + k
  stopping : node.failures.state ≠ .running →
    node.party.Spent ∧ node.party.signals.length ≤ node.party.flushes + 1
  stopped : node.failures.state ≠ .running → node.outbox = [] ∨ node.failures.state = .crashed →
    node.party.signals.length ≤ node.party.flushes

-- What the client hands over between two signals partitions the processes.
structure HandsOver (node node' : Node N M) : Prop where
  partition : ∀ reaction, reaction ∈ node'.reactions → IsPartition destinations reaction
  outbox : node.signals.length < node'.signals.length → node.outbox = []

variable {node : Node N M} {me : PID N}

theorem Sound.init {protocols : List Proto} (me : PID N) : Sound ({ protocols } : Node N M) where
  emits := .init me
  exceptions := rfl
  running := fun _ => ⟨0, .inr ⟨nofun, rfl⟩, Nat.le_refl 0⟩
  stopping := fun hstate => absurd rfl hstate
  stopped := fun hstate => absurd rfl hstate

theorem Sound.of_crashed (hstate : node.failures.state = .crashed) (hemits : node.party.Emits)
    (hexceptions : node.party.exceptions = []) (hspent : node.party.Spent)
    (hle : node.party.signals.length ≤ node.party.flushes)
    : node.Sound where
  emits := hemits
  exceptions := hexceptions
  running := by
    intro hrunning
    rw [hstate] at hrunning
    cases hrunning
  stopping := fun _ => ⟨hspent, Nat.le_succ_of_le hle⟩
  stopped := fun _ _ => hle

theorem Sound.completed (h : node.Sound)
    (hdone : node.outbox = [] ∨ node.failures.state = .crashed)
    : node.party.Spent ∧ node.party.signals.length ≤ node.party.flushes := by
  by_cases hstate : node.failures.state = .running
  . have houtbox : node.outbox = [] := by
      rcases hdone with houtbox | hcrashed
      . exact houtbox
      . rw [hstate] at hcrashed
        cases hcrashed
    obtain ⟨k, howes, hle⟩ := h.running hstate
    rw [houtbox] at howes
    obtain ⟨hspent, rfl⟩ := howes.spent h.emits
    exact ⟨hspent, hle⟩
  . exact ⟨(h.stopping hstate).1, h.stopped hstate hdone⟩

theorem Sound.keep {node' : Node N M} (h : node.Sound) (hemits : node'.party.Emits)
    (hexceptions : node'.party.exceptions = node.party.exceptions)
    (hflushes : node'.party.flushes = node.party.flushes)
    (hbatch : node'.party.rounds.sendBatch = node.party.rounds.sendBatch)
    (hsignals : node'.party.signals = node.party.signals) (houtbox : node'.outbox = node.outbox)
    (hstate : node'.failures.state = node.failures.state)
    : node'.Sound := by
  constructor
  . exact hemits
  . exact hexceptions.trans h.exceptions
  . rw [hstate, hsignals, hflushes, houtbox]
    unfold Party.Owes
    rw [hbatch]
    exact h.running
  . rw [hstate, hsignals, hflushes, Party.Spent, hbatch]
    exact h.stopping
  . rw [hstate, hsignals, hflushes, houtbox]
    exact h.stopped

/--
What a process has handed over of its rounds, without an exception; nothing is left of a round whose
messages the client has handed over, or that a crash has cut short.
-/
structure Unbroken (node : Node N M) : Prop where
  exceptions : node.party.exceptions = []
  batches : ∃ batches : List (List (Msg N M)), batches.length = node.party.flushes
    ∧ (∀ batch, batch ∈ batches → IsPartition destinations batch)
    ∧ node.party.emitted = RoundBased.numbered batches
  completed : node.outbox = [] ∨ node.failures.state = .crashed →
    node.party.Spent ∧ node.party.signals.length ≤ node.party.flushes

theorem Sound.unbroken (h : node.Sound) : node.Unbroken where
  exceptions := h.exceptions
  batches := h.emits.batches
  completed := h.completed

theorem Sound.checkCrashing {faultySet : Finset (PID N)} {coin : Bool} {calls : Option (List Call)}
    (h : node.Sound) (hspent : me ∈ faultySet → coin = true → node.party.Spent)
    : Sound { node with calls, failures := node.failures.checkCrashing faultySet me coin } := by
  by_cases hcrash : me ∈ faultySet ∧ coin = true
  . have hspent' := hspent hcrash.1 hcrash.2
    have hstate : (node.failures.checkCrashing faultySet me coin).state = .crashing := by
      unfold RoundBasedWithFailures.checkCrashing
      rw [if_pos (by simpa using hcrash)]
    have hle : node.party.signals.length ≤ node.party.flushes + 1 := by
      by_cases hrunning : node.failures.state = .running
      . obtain ⟨k, howes, hle⟩ := h.running hrunning
        rcases howes with ⟨-, rfl⟩ | ⟨-, rfl⟩
        . exact hle
        . exact Nat.le_succ_of_le hle
      . exact (h.stopping hrunning).2
    constructor
    . exact h.emits
    . exact h.exceptions
    . intro hrunning
      rw [hstate] at hrunning
      cases hrunning
    . exact fun _ => ⟨hspent', hle⟩
    . intro _ hdone
      rcases hdone with houtbox | hcrashed
      . exact (h.completed (.inl houtbox)).2
      . rw [hstate] at hcrashed
        cases hcrashed
  . rw [checkCrashing_of_not hcrash]
    exact h.keep h.emits rfl rfl rfl rfl rfl rfl

end Node

variable [DecidableEq M]

theorem sendAll_of_owes {party : Party N (Msg N M)} {xs : List (Msg N M)} {k : Nat}
    (howes : party.Owes xs k) (hemits : party.Emits) (me : PID N)
    : let party' := (sendAll party me (xs.map .message : List (Event S (Msg N M)))).1
      party'.Emits ∧ party'.Spent ∧ party'.exceptions = party.exceptions
        ∧ party'.signals = party.signals ∧ party'.flushes = party.flushes + k := by
  induction xs generalizing party k with
  | nil =>
    obtain ⟨hspent, rfl⟩ := howes.spent hemits
    exact ⟨hemits, hspent, rfl, rfl, rfl⟩
  | cons x xs ih =>
    have hcase := Party.onSend_cases (S := S) party me x
    obtain ⟨hexceptions, k', howes', hflushes⟩ := hcase.owes howes
    obtain ⟨hemits', hspent, hexceptions', hsignals, hflushes'⟩ := ih howes' (hcase.emits hemits)
    rw [List.map_cons, sendAll]
    dsimp only
    rw [if_pos hexceptions]
    refine ⟨hemits', hspent, hexceptions'.trans hexceptions, ?_, ?_⟩
    . rw [hsignals]
      exact hcase.frame.2.2.1
    . rw [hflushes']
      exact hflushes

namespace Node

variable {node : Node N M} {faultySet : Finset (PID N)} {me : PID N} {coin : Bool} {reaction : List M}

theorem send_crashing (h : node.failures.state = .crashing) (destShuffle : List (PID N)) (m : M)
    : ∃ lost : Finset (PID N),
        let other := Finset.univ \ destinations m
        let xs : List (Msg N M) :=
          .partialCrashed m lost :: if other.Nonempty then [.crashed me other] else []
        (node.send me destShuffle (.message m : Event S M)).1
          = { node with
                failures := { node.failures with state := .crashed }
                hasCrashed := true
                party := (sendAll node.party me (xs.map .message : List (Event S (Msg N M)))).1 } := by
  refine ⟨(destShuffle.take (destShuffle.length - 1)).toFinset, ?_⟩
  unfold Node.send onSend
  rw [h]
  by_cases hother : (Finset.univ \ destinations m).Nonempty
  . simp [hother]
  . simp [hother]

theorem sendAll_cons (party : Party N (Msg N M)) (me : PID N) (e : Event S (Msg N M))
    (sends : List (Event S (Msg N M)))
    : (sendAll party me (e :: sends)).1
      = if (party.onSend me e).1.exceptions = party.exceptions then
          (sendAll (party.onSend me e).1 me sends).1
        else
          (party.onSend me e).1 := by
  rw [sendAll]
  dsimp only
  split
  . rfl
  . rfl

/--
`party` is that of the node, which has just delivered the signal.
-/
theorem Sound.deliver {party : Party N (Msg N M)} {calls : Option (List Call)}
    {s : RoundSignal N (Msg N M)} (h : node.Sound) (hemits : party.Emits)
    (hexceptions : party.exceptions = node.party.exceptions)
    (hflushes : party.flushes = node.party.flushes)
    (hbatch : party.rounds.sendBatch = node.party.rounds.sendBatch)
    (hsignals : party.signals.length = node.party.signals.length + 1)
    (hclient : node.HandsOver
      (Node.deliver S { node with calls, party } faultySet me coin reaction s).1)
    : Sound (Node.deliver S { node with calls, party } faultySet me coin reaction s).1 := by
  by_cases hstate : node.failures.state = .crashed
  . have hcrashed : Node.failures { node with calls, party } = node.failures := rfl
    obtain ⟨hspent, hle⟩ := h.completed (.inr hstate)
    have howes : party.Owes [.crashed me Finset.univ] 1 := by
      rw [Party.Spent, ← hbatch] at hspent
      exact Party.Spent.owes hspent (isPartition_crashed me)
    have hsend := sendAll_of_owes (S := S) howes hemits me
    rw [List.map_singleton, sendAll_message] at hsend
    obtain ⟨hemits', hspent', hexceptions', hsignals', hflushes'⟩ := hsend
    have hle' : (party.onSend me (.message (.crashed me Finset.univ) : Event S (Msg N M))).1.signals.length
        ≤ (party.onSend me (.message (.crashed me Finset.univ) : Event S (Msg N M))).1.flushes := by
      rw [hsignals', hflushes']
      omega
    rw [deliver_of_crashed (by rw [hcrashed]; exact hstate)]
    exact .of_crashed hstate hemits' ((hexceptions'.trans hexceptions).trans h.exceptions) hspent' hle'
  . obtain ⟨failures, hstate', heq⟩ := @deliver_of_not_crashed N S M _ _
      { node with calls, party } faultySet me coin reaction hstate s
    rw [heq] at hclient ⊢
    have houtbox : node.outbox = [] := by
      apply hclient.outbox
      rw [List.length_append]
      exact Nat.lt_succ_self _
    have hpartition : IsPartition destinations reaction :=
      hclient.partition reaction (List.mem_append_right _ (List.mem_singleton_self _))
    obtain ⟨hspent, hle⟩ := h.completed (.inl houtbox)
    have hspent' : party.Spent := by
      rw [Party.Spent, hbatch]
      exact hspent
    have hle' : party.signals.length ≤ party.flushes + 1 := by omega
    constructor
    . exact hemits
    . exact hexceptions.trans h.exceptions
    . intro _
      refine ⟨1, ?_, hle'⟩
      rw [houtbox, List.nil_append]
      exact hspent'.owes (isPartition_plain hpartition)
    . exact fun _ => ⟨hspent', hle'⟩
    . intro _ hdone
      rcases hdone with hnone | hcrashed
      . obtain ⟨m, hm, -⟩ := hpartition.2 me
        rw [houtbox, List.nil_append] at hnone
        dsimp only at hnone
        rw [hnone] at hm
        cases hm
      . exact absurd hcrashed hstate'

theorem Sound.preStartRoundBased {calls : Option (List Call)} (h : node.Sound)
    (hclient : node.HandsOver
      (Node.preStartRoundBased S { node with calls } faultySet me coin reaction).1)
    : Sound (Node.preStartRoundBased S { node with calls } faultySet me coin reaction).1 := by
  unfold Node.preStartRoundBased at hclient ⊢
  refine h.deliver ?_ ?_ ?_ ?_ ?_ hclient
  . exact h.emits.frame rfl rfl rfl rfl
  . rfl
  . rfl
  . rfl
  . exact List.length_append

theorem Sound.receive {e : Round (Msg N M)} (h : node.Sound)
    (hclient : node.HandsOver (node.receive S faultySet me coin reaction e).1)
    : (node.receive S faultySet me coin reaction e).1.Sound := by
  obtain ⟨result, hcase, hresult⟩ := @receive_cases N S M _ _ node faultySet me coin reaction e
  obtain ⟨hemitted, hflushes, hexceptions, hround, hbatch⟩ := hcase.frame
  have hemits := h.emits.frame hemitted hflushes hround hbatch
  rcases hresult with ⟨hnone, heq⟩ | ⟨start, hstart, heq⟩
  . have hsignals : result.1.signals = node.party.signals := by
      cases hcase with
      | older => rfl
      | stashed => rfl
      | started => cases hnone
    rw [heq]
    exact h.keep hemits hexceptions hflushes hbatch hsignals rfl rfl
  . have hsignals : result.1.signals.length = node.party.signals.length + 1 := by
      cases hcase with
      | older => cases hstart
      | stashed => cases hstart
      | started => exact List.length_append
    rw [heq] at hclient ⊢
    exact h.deliver hemits hexceptions hflushes hbatch hsignals hclient

theorem Sound.send {m : M} {outbox : List M} {destShuffle : List (PID N)} (h : node.Sound)
    (houtbox : node.outbox = m :: outbox)
    : Sound (Node.send { node with outbox } me destShuffle (.message m : Event S M)).1 := by
  cases hstate : node.failures.state with
  | running =>
    obtain ⟨k, howes, hle⟩ := h.running hstate
    rw [houtbox, List.map_cons] at howes
    have hcase := Party.onSend_cases (S := S) node.party me (.plain m)
    obtain ⟨hexceptions, k', howes', hflushes⟩ := hcase.owes howes
    obtain ⟨-, -, hsignals, -, -⟩ := hcase.frame
    rw [send_of_running (by exact hstate)]
    constructor
    . exact hcase.emits h.emits
    . exact hexceptions.trans h.exceptions
    . intro _
      refine ⟨k', howes', ?_⟩
      dsimp only
      rw [hsignals, hflushes]
      exact hle
    . exact fun hne => absurd hstate hne
    . exact fun hne => absurd hstate hne
  | crashing =>
    obtain ⟨hspent, hle⟩ := h.stopping (by rw [hstate]; nofun)
    obtain ⟨lost, heq⟩ := @send_crashing N S M _ _ { node with outbox } me hstate destShuffle m
    have hsend := sendAll_of_owes (S := S)
      (hspent.owes (isPartition_partialCrashed me m lost)) h.emits me
    obtain ⟨hemits', hspent', hexceptions', hsignals', hflushes'⟩ := hsend
    have hle' : node.party.signals.length ≤ node.party.flushes + 1 := hle
    rw [← hsignals', ← hflushes'] at hle'
    rw [heq]
    exact .of_crashed rfl hemits' (hexceptions'.trans h.exceptions) hspent' hle'
  | crashed =>
    have hdone := h.completed (.inr hstate)
    rw [send_of_crashed (by exact hstate)]
    exact .of_crashed hstate h.emits h.exceptions hdone.1 hdone.2

theorem Sound.input {i : Input N S M} {result : Node N M × List (Event S (Round (Msg N M)))}
    (h : node.Sound) (hcase : node.InputCase faultySet me i result)
    (hclient : node.HandsOver result.1)
    (hspent : ∀ coin reaction calls, i = .call coin reaction →
      node.calls = some (.checkCrashing :: calls) → me ∈ faultySet → coin = true →
        node.party.Spent)
    : result.1.Sound := by
  cases hcase with
  | preStart order => exact h.keep h.emits rfl rfl rfl rfl rfl rfl
  | roundBased coin reaction calls => exact h.preStartRoundBased hclient
  | failures coin reaction calls => exact h.preStartRoundBased hclient
  | other coin reaction id calls => exact h.keep h.emits rfl rfl rfl rfl rfl rfl
  | checkCrashing coin reaction calls hcalls =>
    exact h.checkCrashing (hspent coin reaction calls rfl hcalls)
  | handOver destShuffle m outbox houtbox => exact h.send houtbox
  | signal ie =>
    obtain ⟨out, heq, -⟩ := node.send_signal me [] ie
    rw [heq]
    exact h.keep h.emits rfl rfl rfl rfl rfl rfl

/--
A process that crashes while a part of a batch is held breaks this round or the next one.
-/
theorem broken_of_held {b : Msg N M} (hstate : node.failures.state = .crashing)
    (hsize : size destinations node.party.rounds.sendBatch ≠ N)
    (hb : b ∈ node.party.rounds.sendBatch) (hne : destinations b ≠ ∅) (m : M)
    (destShuffle : List (PID N))
    : let node' := (node.send me destShuffle (.message m : Event S M)).1
      node'.failures.state = .crashed
        ∧ (node'.party.exceptions ≠ node.party.exceptions ∨ ¬ node'.party.Spent) := by
  obtain ⟨lost, heq⟩ := @send_crashing N S M _ _ node me hstate destShuffle m
  rw [heq]
  refine ⟨rfl, ?_⟩
  dsimp only
  have hcase := Party.onSend_cases (S := S) node.party me (.partialCrashed m lost)
  rw [List.map_cons, sendAll_cons]
  generalize node.party.onSend me (.message (.partialCrashed m lost) : Event S (Msg N M)) = result
    at hcase ⊢
  -- what the substitute is to cover, unless the first message is refused already
  have hother : Disjoint (destinations b) (destinations m) →
      destinations b ⊆ Finset.univ \ destinations m := by
    intro hdisjoint q hq
    rw [Finset.mem_sdiff]
    exact ⟨Finset.mem_univ q, Finset.disjoint_left.mp hdisjoint hq⟩
  have hnonempty : Disjoint (destinations b) (destinations m) →
      (Finset.univ \ destinations m).Nonempty :=
    fun hdisjoint => (Finset.nonempty_iff_ne_empty.mpr hne).mono (hother hdisjoint)
  cases hcase with
  | refused =>
    left
    simp
  | kept hdisjoint =>
    have hbm : Disjoint (destinations b) (destinations m) := hdisjoint b hb
    rw [if_pos rfl, if_pos (hnonempty hbm), List.map_singleton, sendAll_message]
    left
    apply Party.exceptions_of_not_disjoint (b := b)
    . exact List.mem_insert_iff.mpr (.inr hb)
    . intro hdisjoint'
      exact hne (disjoint_self.mp (hdisjoint'.mono_right (hother hbm)))
  | completed hdisjoint hfull =>
    have hbm : Disjoint (destinations b) (destinations m) := hdisjoint b hb
    rw [if_pos rfl, if_pos (hnonempty hbm), List.map_singleton, sendAll_message]
    right
    have hm : destinations m ≠ ∅ := by
      intro hempty
      rw [size_insert hdisjoint] at hfull
      have hcard : (destinations (.partialCrashed m lost : Msg N M)).card = 0 :=
        Finset.card_eq_zero.mpr hempty
      omega
    intro hspent
    apply (hnonempty hbm).ne_empty
    apply hspent (.crashed me (Finset.univ \ destinations m))
    rw [Party.sendBatch_of_nil rfl]
    . exact List.mem_singleton_self _
    . intro huniv
      obtain ⟨q, hq⟩ := Finset.nonempty_iff_ne_empty.mpr hm
      have hall : Finset.univ \ destinations m = Finset.univ := huniv
      have hmem : q ∈ Finset.univ \ destinations m := by
        rw [hall]
        exact Finset.mem_univ q
      exact (Finset.mem_sdiff.mp hmem).2 hq

end Node

section Runs

variable {faultySet : Finset (PID N)} {before after : List Nat}

/--
No process is made to crash at the end of `preStart` while a part of a batch is held.
-/
def Timely (faultySet : Finset (PID N)) (w : World (PID N) (Node N M) (Round (Msg N M)))
    (l : Label (PID N) (Input N S M) (Bool × List M) (Round (Msg N M))) : Prop :=
  ∀ p coin reaction calls, l.action = .input p (.call coin reaction) →
    (w.node p).calls = some (.checkCrashing :: calls) → p ∈ faultySet → coin = true →
      (w.node p).party.Spent

def HandsOver (w w' : World (PID N) (Node N M) (Round (Msg N M))) : Prop :=
  ∀ p, (w.node p).HandsOver (w'.node p)

theorem unbroken_of_timely {w : World (PID N) (Node N M) (Round (Msg N M))}
    (h : (program (S := S) faultySet before after).lts.Reach
      (fun w l w' => HandsOver w w' ∧ Timely faultySet w l) w)
    (p : PID N)
    : (w.node p).Unbroken := by
  apply Node.Sound.unbroken
  revert p
  apply LTS.Reach.invariant (I := fun w => ∀ p, (w.node p).Sound) _ _ h
  . rintro w rfl p
    exact .init p
  . rintro w l w' - hsound hst ⟨hclient, htimely⟩
    cases hst with
    | @input p i node' out hinput =>
      obtain ⟨result, hcase, rfl, rfl⟩ := Node.input_cases hinput
      have hclient' := hclient p
      dsimp only at hclient'
      rw [Function.update_self] at hclient'
      apply (Function.forall_update_iff w.node (fun _ x => Node.Sound x)).mpr
      refine ⟨(hsound p).input hcase hclient' ?_, fun q _ => hsound q⟩
      rintro coin reaction calls rfl
      exact htimely p coin reaction calls rfl
    | @receive p e k node' out rest hnet hreceive =>
      obtain ⟨rfl, rfl⟩ := Node.receive_eq hreceive
      have hclient' := hclient p
      dsimp only at hclient'
      rw [Function.update_self] at hclient'
      exact (Function.forall_update_iff w.node (fun _ x => Node.Sound x)).mpr
        ⟨(hsound p).receive hclient', fun q _ => hsound q⟩

end Runs

section Examples

instance {N : Nat} {M : Type} [Message N M] (w w' : World (PID N) (Node N M) (Round (Msg N M)))
    : Decidable (HandsOver w w') :=
  decidable_of_iff (∀ p, (∀ reaction, reaction ∈ (w'.node p).reactions →
      IsPartition destinations reaction)
    ∧ ((w.node p).signals.length < (w'.node p).signals.length → (w.node p).outbox = []))
    ⟨fun h p => ⟨(h p).1, (h p).2⟩, fun h p => ⟨(h p).partition, (h p).outbox⟩⟩

theorem timely_of_nil {N : Nat} {S M : Type} [Message N M] {faultySet : Finset (PID N)}
    {w : World (PID N) (Node N M) (Round (Msg N M))}
    {l : Label (PID N) (Input N S M) (Bool × List M) (Round (Msg N M))}
    (h : ∀ p, (w.node p).party.rounds.sendBatch = [])
    : Timely faultySet w l := by
  intro p coin reaction calls _ _ _ _ m hm
  rw [h p] at hm
  cases hm

-- The client of process 0 sends one message to itself and one to process 1.
def halves : List (AppMessage 2 Unit) :=
  let first : PID 2 := (Fin.last 0).castSucc
  [.multicast first {first} (), .multicast first {Fin.last 1} ()]

abbrev Faulty (faultySet : Finset (PID 2))
    (ok : World (PID 2) (Node 2 (AppMessage 2 Unit)) (Round (Msg 2 (AppMessage 2 Unit))) →
      Label (PID 2) (Input 2 Unit (AppMessage 2 Unit)) (Bool × List (AppMessage 2 Unit))
        (Round (Msg 2 (AppMessage 2 Unit))) →
      World (PID 2) (Node 2 (AppMessage 2 Unit)) (Round (Msg 2 (AppMessage 2 Unit))) → Prop)
    (w : World (PID 2) (Node 2 (AppMessage 2 Unit)) (Round (Msg 2 (AppMessage 2 Unit)))) : Prop :=
  (program faultySet [] []).lts.Reach ok w

theorem unbroken_of_timely_twice
    : ∃ w : World (PID 2) (Node 2 (AppMessage 2 Unit)) (Round (Msg 2 (AppMessage 2 Unit))),
        (w.node 0).failures.state = .crashed ∧ (w.node 0).party.flushes = 2
          ∧ (w.node 0).Unbroken := by
  have h0 : Faulty {0} (fun w l w' => HandsOver w w' ∧ Timely {0} w l) (program {0} [] []).initWorld :=
    .init rfl
  have h1 := Program.Reach.input h0 0 (.preStart [.failures, .roundBased]) rfl
    ⟨by decide, timely_of_nil (by decide)⟩
  have h2 := Program.Reach.input h1 0 (.call true halves) rfl
    ⟨by decide, timely_of_nil (by decide)⟩
  have h3 := Program.Reach.input h2 0 (.handOver [0]) rfl ⟨by decide, timely_of_nil (by decide)⟩
  have h4 := Program.Reach.input h3 0 (.call true []) rfl ⟨by decide, timely_of_nil (by decide)⟩
  have h5 := Program.Reach.input h4 0 (.handOver [1]) rfl ⟨by decide, timely_of_nil (by decide)⟩
  exact ⟨_, rfl, rfl, unbroken_of_timely h5 0⟩

/--
At the second `InitRound`, process 0 is made to crash between the two messages of its batch. The
substitute for the first of them, which has been handed over, is left for the next round.
-/
theorem exceptions_of_late
    : ∃ w : World (PID 2) (Node 2 (AppMessage 2 Unit)) (Round (Msg 2 (AppMessage 2 Unit))),
        Faulty {0} (fun w _ w' => HandsOver w w') w
          ∧ (w.node 0).party.exceptions = [RoundBased.severalMessages (0 : PID 2)]
          ∧ ¬ (w.node 0).Unbroken := by
  let all : AppMessage 2 Unit := .multicast 1 Finset.univ ()
  let own : AppMessage 2 Unit := .multicast 0 {0} ()
  let other : AppMessage 2 Unit := .multicast 0 {1} ()
  have h0 : Faulty {0} (fun w _ w' => HandsOver w w') (program {0} [] []).initWorld := .init rfl
  have h1 := Program.Reach.input h0 0 (.preStart [.roundBased, .failures]) rfl (by decide)
  have h2 := Program.Reach.input h1 0 (.call false halves) rfl (by decide)
  have h3 := Program.Reach.input h2 0 (.handOver [0]) rfl (by decide)
  have h4 := Program.Reach.input h3 0 (.handOver [1]) rfl (by decide)
  have h5 := Program.Reach.input h4 0 (.call false halves) rfl (by decide)
  have h6 := Program.Reach.input h5 0 (.handOver [0]) rfl (by decide)
  have h7 := Program.Reach.input h6 0 (.call true []) rfl (by decide)
  have h8 := Program.Reach.input h7 0 (.handOver [1]) rfl (by decide)
  have h9 := Program.Reach.input h8 1 (.preStart [.roundBased, .failures]) rfl (by decide)
  have h10 := Program.Reach.input h9 1 (.call false [all]) rfl (by decide)
  have h11 := Program.Reach.input h10 1 (.handOver [0, 1]) rfl (by decide)
  have h12 := Program.Reach.receive h11 0 ⟨.plain own, 0⟩ (false, [])
    {⟨1, ⟨.plain other, 0⟩⟩, ⟨1, ⟨.partialCrashed other ∅, 1⟩⟩, ⟨0, ⟨.plain own, 1⟩⟩,
      ⟨0, ⟨.plain all, 0⟩⟩, ⟨1, ⟨.plain all, 0⟩⟩} (by decide) rfl (by decide)
  have h13 := Program.Reach.receive h12 0 ⟨.plain all, 0⟩ (false, [])
    {⟨1, ⟨.plain other, 0⟩⟩, ⟨1, ⟨.partialCrashed other ∅, 1⟩⟩, ⟨0, ⟨.plain own, 1⟩⟩,
      ⟨1, ⟨.plain all, 0⟩⟩} (by decide) rfl (by decide)
  refine ⟨_, h13, rfl, ?_⟩
  intro hunbroken
  cases hunbroken.exceptions

end Examples

end RoundBasedWithFailures
