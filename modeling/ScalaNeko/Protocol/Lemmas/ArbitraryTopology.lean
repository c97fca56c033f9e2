import ScalaNeko.Network.Lemmas
import ScalaNeko.Protocol.Impl.ArbitraryTopology

/-!
The emulation of a topology and a network with this topology deliver the same messages.
-/

open Message
open Network (lossless clique)

namespace ArbitraryTopology

variable {N : Nat} {S M τ τ' : Type}

-- Whether `q` is to deliver what `p` sends to it.
def Linked (g : FinGraph Int) (p q : PID N) : Prop :=
  q = p ∨ ((p.val : Int), (q.val : Int)) ∈ g.edges

instance (g : FinGraph Int) (p q : PID N) : Decidable (Linked g p q) :=
  inferInstanceAs (Decidable (_ ∨ _))

variable {g : FinGraph Int} {p q : PID N} {a : ArbitraryTopology N} {m : M}

theorem create_eq_some (ha : create g p = some a)
    : (p.val : Int) ∈ g.nodes ∧ a = ⟨p, g.neighbors p.val⟩ := by
  unfold create at ha
  split at ha
  . next hmem =>
    cases ha
    exact ⟨hmem, rfl⟩
  . cases ha

theorem mem_ofSet {set : Finset Int} : q ∈ PID.ofSet set ↔ (q.val : Int) ∈ set := by
  simp [PID.ofSet]

theorem mem_neighborhoodFor {delay : PID N → M → τ} (hnode : (p.val : Int) ∈ g.nodes)
    : q ∈ (lossless (Topology.graph g).neighborsForPID delay).neighborhoodFor p ↔ Linked g p q := by
  simp [Network.neighborhoodFor, lossless, Topology.neighborsForPID, Topology.neighborsFor, hnode,
    mem_ofSet, Linked]

theorem not_linked_self : ((p.val : Int), (p.val : Int)) ∉ g.edges := g.loopless _

theorem shell_delivered {delay' : PID N → MessageShell N M → τ'} (ms : Finset (PID N))
    : (lossless clique delay').delivered
        [(.message (⟨p, ms, m⟩ : MessageShell N M) : Event S (MessageShell N M))]
      = (destList (⟨p, ms, m⟩ : MessageShell N M)).map (fun q => (q, ⟨p, ms, m⟩)) := by
  rw [Network.delivered_message Network.lossless_delay rfl]
  congr 1
  rw [List.filter_eq_self]
  intro q _
  rw [decide_eq_true_eq]
  exact Network.neighborhoodFor_clique _ q

variable [Message N M]

structure Agree (g : FinGraph Int) (p : PID N) (ms : List M) (emulated native : List (PID N × M))
    : Prop where
  same : emulated.Perm native
  once : ∀ q, (native.filter (fun d => d.1 = q)).map Prod.snd
    = ms.filter (fun m => q ∈ destinations m ∧ Linked g p q)

theorem receivers_perm
    : ((if p ∈ destinations m then [p] else [])
        ++ destList (⟨p, destinations m ∩ PID.ofSet (g.neighbors p.val), m⟩ : MessageShell N M)).Perm
      ((destList m).filter (fun q => Linked g p q)) := by
  have hmem : ∀ q, q ∈ destList
      (⟨p, destinations m ∩ PID.ofSet (g.neighbors p.val), m⟩ : MessageShell N M)
      ↔ q ∈ destinations m ∧ ((p.val : Int), (q.val : Int)) ∈ g.edges := by
    intro q
    rw [mem_destList]
    change q ∈ destinations m ∩ PID.ofSet _ ↔ _
    rw [Finset.mem_inter, mem_ofSet, FinGraph.mem_neighbors]
  rw [List.perm_ext_iff_of_nodup]
  . intro q
    rw [List.mem_append, hmem, List.mem_filter, mem_destList, decide_eq_true_eq, Linked]
    by_cases hq : q = p
    . subst hq
      by_cases hd : q ∈ destinations m
      . simp [hd]
      . simp [hd]
    . have hself : q ∉ (if p ∈ destinations m then [p] else []) := by
        split
        . simpa using hq
        . nofun
      simp [hq, hself]
  . rw [List.nodup_append]
    refine ⟨?_, nodup_destList _, ?_⟩
    . split
      . exact List.nodup_singleton p
      . exact List.nodup_nil
    . intro x hx y hy heq
      split at hx
      . rw [List.mem_singleton] at hx
        subst hx
        subst heq
        exact not_linked_self ((hmem x).mp hy).2
      . cases hx
  . exact (nodup_destList m).filter _

section Delivered

variable {delay : PID N → M → τ} {delay' : PID N → MessageShell N M → τ'}

theorem native_message (delay : PID N → M → τ) (hnode : (p.val : Int) ∈ g.nodes) (hfrom : fromPID m = p)
    (hb : isBroadcast m = false)
    : (lossless (Topology.graph g).neighborsForPID delay).delivered [(.message m : Event S M)]
      = ((destList m).filter (fun q => Linked g p q)).map (fun q => (q, m)) := by
  rw [Network.delivered_message Network.lossless_delay hb, hfrom]
  congr 1
  apply List.filter_congr
  intro q _
  rw [decide_eq_decide]
  exact mem_neighborhoodFor hnode

theorem emulated_message
    : (delivered (⟨p, g.neighbors p.val⟩ : ArbitraryTopology N) (lossless clique delay')
        [(.message m : Event S M)]).Perm
      (((destList m).filter (fun q => Linked g p q)).map (fun q => (q, m))) := by
  refine .trans (.of_eq ?_) (receivers_perm.map (fun q => (q, m)))
  simp only [delivered, onSend, onReceive, List.flatMap_singleton, shell_delivered, List.map_append]
  congr 1
  . split
    . rfl
    . rfl
  . rw [List.flatMap_map]
    exact List.map_eq_flatMap.symm

theorem delivered_cons (a : ArbitraryTopology N) (net : Network N (MessageShell N M) τ')
    (e : Event S M) (sends : List (Event S M))
    : (a.delivered net (e :: sends)).Perm (a.delivered net [e] ++ a.delivered net sends) := by
  have hnet : net.delivered ((e :: sends).flatMap fun e => (a.onSend e).1)
      = net.delivered ([e].flatMap fun e => (a.onSend e).1)
        ++ net.delivered (sends.flatMap fun e => (a.onSend e).1) := by
    simp only [Network.delivered, List.flatMap_cons, List.flatMap_append, List.filterMap_append,
      List.flatMap_nil, List.append_nil]
  rw [delivered, hnet, List.flatMap_cons, List.flatMap_append]
  simp only [delivered, List.flatMap_singleton]
  rw [← Multiset.coe_eq_coe]
  simp only [← Multiset.coe_add]
  exact add_add_add_comm _ _ _ _

theorem once_message (q : PID N)
    : ((((destList m).filter (fun q => Linked g p q)).map (fun q => (q, m))).filter
        (fun d => d.1 = q)).map Prod.snd
      = if q ∈ destinations m ∧ Linked g p q then [m] else [] := by
  have hnodup := (nodup_destList m).filter (fun q => decide (Linked g p q))
  have hfilter : ((destList m).filter (fun q => Linked g p q)).filter
      ((fun d : PID N × M => decide (d.1 = q)) ∘ fun q => (q, m))
      = if q ∈ destinations m ∧ Linked g p q then [q] else [] := by
    have hdecide : ((fun d : PID N × M => decide (d.1 = q)) ∘ fun q => (q, m))
        = (fun x => x == q) := by
      funext x
      exact (beq_eq_decide x q).symm
    rw [hdecide, List.filter_beq, hnodup.count]
    simp only [List.mem_filter, mem_destList, decide_eq_true_eq]
    split
    . rfl
    . rfl
  rw [List.filter_map, hfilter]
  split
  . rfl
  . rfl

end Delivered

theorem agree_of_create {delay : PID N → M → τ} {delay' : PID N → MessageShell N M → τ'}
    (ha : create g p = some a) {ms : List M} (hfrom : ∀ m, m ∈ ms → fromPID m = p)
    (hb : ∀ m, m ∈ ms → isBroadcast m = false)
    : Agree g p ms
        (a.delivered (lossless clique delay') (ms.map (.message : M → Event S M)))
        ((lossless (Topology.graph g).neighborsForPID delay).delivered
          (ms.map (.message : M → Event S M))) := by
  obtain ⟨hnode, rfl⟩ := create_eq_some ha
  induction ms with
  | nil => exact ⟨.refl _, fun _ => rfl⟩
  | cons m ms ih =>
    obtain ⟨hsame, honce⟩ := ih (fun m hm => hfrom m (List.mem_cons_of_mem _ hm))
      (fun m hm => hb m (List.mem_cons_of_mem _ hm))
    have hnative := native_message (S := S) delay hnode (hfrom m List.mem_cons_self)
      (hb m List.mem_cons_self)
    constructor
    . rw [List.map_cons, Network.delivered_cons, hnative]
      exact (delivered_cons _ _ _ _).trans (emulated_message.append hsame)
    . intro q
      rw [List.map_cons, Network.delivered_cons, hnative, List.filter_append, List.map_append,
        once_message, honce, List.filter_cons]
      simp only [decide_eq_true_eq]
      split
      . rfl
      . rfl

-- Process 0 sends to itself, to a neighbour and to a process that is not one, and once more.
theorem agree_of_create_path
    : ∃ (a : ArbitraryTopology 3) (g : FinGraph Int) (emulated native : List (PID 3 × AppMessage 3 Nat)),
        create g 0 = some a
        ∧ native = [(0, .multicast 0 {0, 1, 2} 7), (1, .multicast 0 {0, 1, 2} 7), (1, .unicast 0 1 8)]
        ∧ Agree g 0 [.multicast 0 {0, 1, 2} 7, .unicast 0 1 8, .unicast 0 2 9] emulated native := by
  have hcreate : create (MixedGraph.graphFrom [0, 1, 2] [.undi s(0, 1), .undi s(1, 2)]).simple (0 : PID 3)
      = some _ :=
    if_pos (by decide)
  refine ⟨_, _, _, _, hcreate, ?_, @agree_of_create 3 Unit (AppMessage 3 Nat) Unit Unit _ 0 _ _
    (fun _ _ => ()) (fun _ _ => ()) hcreate _ (by decide) (by decide)⟩
  decide

end ArbitraryTopology
