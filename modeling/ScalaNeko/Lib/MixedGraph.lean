import ScalaNeko.Lib.FinGraph

/-!
Finite graphs with undirected and directed edges, each edge at most once.
-/

namespace MixedGraph

inductive Edge (V : Type) where
  | undi (ends : Sym2 V)
  | di (source target : V)
  deriving DecidableEq

namespace Edge

variable {V : Type}

-- Along the edge, one gets from `a` to `b`.
def Joins : Edge V → V → V → Prop
  | undi ends, a, b => ends = s(a, b)
  | di source target, a, b => source = a ∧ target = b

theorem exists_joins (e : Edge V) : ∃ a b, e.Joins a b := by
  cases e with
  | undi ends =>
    induction ends with
    | _ a b => exact ⟨a, b, rfl⟩
  | di source target => exact ⟨source, target, rfl, rfl⟩

variable [DecidableEq V]

instance (e : Edge V) (a b : V) : Decidable (e.Joins a b) :=
  match e with
  | undi ends => inferInstanceAs (Decidable (ends = s(a, b)))
  | di source target => inferInstanceAs (Decidable (source = a ∧ target = b))

def ends : Edge V → Finset V
  | undi ends => ends.toFinset
  | di source target => {source, target}

theorem Joins.ends {e : Edge V} {a b : V} (h : e.Joins a b) : e.ends = {a, b} := by
  cases e with
  | undi ends =>
    obtain rfl : ends = s(a, b) := h
    exact Sym2.toFinset_mk_eq
  | di source target =>
    obtain ⟨rfl, rfl⟩ := h
    rfl

end Edge

end MixedGraph

structure MixedGraph (V : Type) [DecidableEq V] where
  nodes : Finset V
  edges : Finset (MixedGraph.Edge V)
  mem : ∀ e, e ∈ edges → e.ends ⊆ nodes

namespace MixedGraph

variable {V : Type} [DecidableEq V]

/--
The ends of an edge are nodes, whether they are listed or not.
-/
def graphFrom (nodes : List V) (edges : List (Edge V)) : MixedGraph V where
  nodes := nodes.toFinset ∪ edges.toFinset.biUnion Edge.ends
  edges := edges.toFinset
  mem := fun _ he => (Finset.subset_biUnion_of_mem Edge.ends he).trans Finset.subset_union_right

-- There is an edge along which one gets from `a` to `b`.
def Succ (g : MixedGraph V) (a b : V) : Prop := ∃ e, e ∈ g.edges ∧ e.Joins a b

instance (g : MixedGraph V) (a b : V) : Decidable (g.Succ a b) :=
  inferInstanceAs (Decidable (∃ e ∈ g.edges, e.Joins a b))

def Adj (g : MixedGraph V) (a b : V) : Prop := g.Succ a b ∨ g.Succ b a

instance (g : MixedGraph V) (a b : V) : Decidable (g.Adj a b) :=
  inferInstanceAs (Decidable (_ ∨ _))

def diSuccessors (g : MixedGraph V) (a : V) : Finset V := g.nodes.filter (fun b => b ≠ a ∧ g.Succ a b)

def neighbors (g : MixedGraph V) (a : V) : Finset V := g.nodes.filter (fun b => b ≠ a ∧ g.Adj a b)

def graphSize (g : MixedGraph V) : Nat := g.edges.card

-- A graph with directed edges is connected if it is so in the weak sense.
def Connected (g : MixedGraph V) : Prop := Linked g.nodes g.Adj

-- The undirected graph without loops, in which two nodes have one edge at most.
def simple (g : MixedGraph V) : FinGraph V where
  nodes := g.nodes
  edges := (g.nodes ×ˢ g.nodes).filter (fun e => e.1 ≠ e.2 ∧ g.Adj e.1 e.2)
  mem := by
    intro a b h
    exact (Finset.mem_product.mp (Finset.mem_filter.mp h).1).1
  symm := by
    intro a b h
    rw [Finset.mem_filter, Finset.mem_product] at h ⊢
    exact ⟨⟨h.1.2, h.1.1⟩, h.2.1.symm, Or.symm h.2.2⟩
  loopless := by
    intro a h
    exact (Finset.mem_filter.mp h).2.1 rfl

variable {g : MixedGraph V} {nodes : List V} {edges : List (Edge V)} {a b : V}

theorem Adj.symm (h : g.Adj a b) : g.Adj b a := Or.symm h

theorem Succ.mem_nodes (h : g.Succ a b) : a ∈ g.nodes ∧ b ∈ g.nodes := by
  obtain ⟨e, he, hjoins⟩ := h
  have hsubset := g.mem e he
  rw [hjoins.ends, Finset.insert_subset_iff, Finset.singleton_subset_iff] at hsubset
  exact hsubset

theorem Adj.mem_nodes (h : g.Adj a b) : a ∈ g.nodes ∧ b ∈ g.nodes := by
  rcases h with h | h
  . exact h.mem_nodes
  . exact h.mem_nodes.symm

theorem mem_diSuccessors : b ∈ g.diSuccessors a ↔ b ≠ a ∧ g.Succ a b := by
  rw [diSuccessors, Finset.mem_filter, and_iff_right_iff_imp]
  exact fun h => h.2.mem_nodes.2

theorem mem_neighbors : b ∈ g.neighbors a ↔ b ≠ a ∧ g.Adj a b := by
  rw [neighbors, Finset.mem_filter, and_iff_right_iff_imp]
  exact fun h => h.2.mem_nodes.2

theorem mem_simple : (a, b) ∈ g.simple.edges ↔ a ≠ b ∧ g.Adj a b := by
  rw [simple, Finset.mem_filter, Finset.mem_product, and_iff_right_iff_imp]
  exact fun h => h.2.mem_nodes

theorem succ_graphFrom : (graphFrom nodes edges).Succ a b ↔ ∃ e, e ∈ edges ∧ e.Joins a b := by
  unfold Succ graphFrom
  simp only [List.mem_toFinset]

theorem mem_nodes_graphFrom : a ∈ (graphFrom nodes edges).nodes
    ↔ a ∈ nodes ∨ ∃ b, (graphFrom nodes edges).Adj a b := by
  constructor
  . intro h
    rcases Finset.mem_union.mp h with h | h
    . exact .inl (List.mem_toFinset.mp h)
    . obtain ⟨e, he, ha⟩ := Finset.mem_biUnion.mp h
      obtain ⟨b, c, hjoins⟩ := e.exists_joins
      rw [hjoins.ends, Finset.mem_insert, Finset.mem_singleton] at ha
      rcases ha with rfl | rfl
      . exact .inr ⟨c, .inl ⟨e, he, hjoins⟩⟩
      . exact .inr ⟨b, .inr ⟨e, he, hjoins⟩⟩
  . rintro (h | ⟨b, h⟩)
    . exact Finset.mem_union_left _ (List.mem_toFinset.mpr h)
    . exact h.mem_nodes.1

theorem nodes_graphFrom (h : ∀ a b, (graphFrom nodes edges).Adj a b → a ∈ nodes)
    : (graphFrom nodes edges).nodes = nodes.toFinset := by
  ext a
  rw [mem_nodes_graphFrom, List.mem_toFinset, or_iff_left_iff_imp]
  rintro ⟨b, hab⟩
  exact h a b hab

theorem connected_of_rank (root : V) (rank : V → Nat)
    (h : ∀ a, a ∈ g.nodes → a ≠ root → ∃ b, g.Adj a b ∧ rank b < rank a)
    : g.Connected := by
  apply Linked.of_rank root rank (fun _ _ => Adj.symm)
  intro a ha hne
  obtain ⟨b, hb, hlt⟩ := h a ha hne
  exact ⟨b, hb.mem_nodes.2, hb, hlt⟩

end MixedGraph
