import Mathlib.Data.Finset.Prod
import Mathlib.Data.Finset.Union
import Mathlib.Data.Sym.Sym2
import ScalaNeko.Lib.Linked
import ScalaNeko.Lib.Saturation

/-!
Finite undirected graphs without loops, and the operations on them that act on nodes and edges.
-/

/--
An edge is given by both its directions.
-/
@[ext]
structure FinGraph (V : Type) where
  nodes : Finset V
  edges : Finset (V × V)
  mem : ∀ a b, (a, b) ∈ edges → a ∈ nodes
  symm : ∀ a b, (a, b) ∈ edges → (b, a) ∈ edges
  loopless : ∀ a, (a, a) ∉ edges

namespace FinGraph

variable {V : Type}

theorem mem_right (g : FinGraph V) {a b : V} (h : (a, b) ∈ g.edges) : b ∈ g.nodes :=
  g.mem b a (g.symm a b h)

theorem ne_of_edge (g : FinGraph V) {a b : V} (h : (a, b) ∈ g.edges) : b ≠ a := by
  rintro rfl
  exact g.loopless b h

variable [DecidableEq V]

def neighbors (g : FinGraph V) (p : V) : Finset V :=
  (g.edges.filter (fun e => e.1 = p)).image Prod.snd

@[simp]
theorem mem_neighbors {g : FinGraph V} {p q : V} : q ∈ g.neighbors p ↔ (p, q) ∈ g.edges := by
  simp [neighbors]

-- The number of edges, both directions of one taken together.
def graphSize (g : FinGraph V) : Nat := (g.edges.image (fun e => s(e.1, e.2))).card

def Connected (g : FinGraph V) : Prop := Linked g.nodes (fun a b => (a, b) ∈ g.edges)

-- The nodes that can be reached from a node in as many steps as there are nodes.
def component (g : FinGraph V) (a : V) : Finset V :=
  (fun s => s ∪ s.biUnion g.neighbors)^[g.nodes.card] {a}

def isConnected (g : FinGraph V) : Bool := decide (∀ a ∈ g.nodes, g.nodes ⊆ g.component a)

def union (g g' : FinGraph V) : FinGraph V where
  nodes := g.nodes ∪ g'.nodes
  edges := g.edges ∪ g'.edges
  mem := by
    intro a b h
    rw [Finset.mem_union] at h ⊢
    exact h.imp (g.mem a b) (g'.mem a b)
  symm := by
    intro a b h
    rw [Finset.mem_union] at h ⊢
    exact h.imp (g.symm a b) (g'.symm a b)
  loopless := by
    intro a h
    rcases Finset.mem_union.mp h with h | h
    . exact g.loopless a h
    . exact g'.loopless a h

def intersect (g g' : FinGraph V) : FinGraph V where
  nodes := g.nodes ∩ g'.nodes
  edges := g.edges ∩ g'.edges
  mem := by
    intro a b h
    rw [Finset.mem_inter] at h ⊢
    exact h.imp (g.mem a b) (g'.mem a b)
  symm := by
    intro a b h
    rw [Finset.mem_inter] at h ⊢
    exact h.imp (g.symm a b) (g'.symm a b)
  loopless := by
    intro a h
    exact g.loopless a (Finset.mem_inter.mp h).1

/--
The edges that are left are those between the nodes that are left.
-/
def diff (g g' : FinGraph V) : FinGraph V where
  nodes := g.nodes \ g'.nodes
  edges := g.edges.filter (fun e => e.1 ∉ g'.nodes ∧ e.2 ∉ g'.nodes)
  mem := by
    intro a b h
    rw [Finset.mem_filter] at h
    exact Finset.mem_sdiff.mpr ⟨g.mem a b h.1, h.2.1⟩
  symm := by
    intro a b h
    rw [Finset.mem_filter] at h ⊢
    exact ⟨g.symm a b h.1, h.2.2, h.2.1⟩
  loopless := by
    intro a h
    exact g.loopless a (Finset.mem_filter.mp h).1

variable {g g' : FinGraph V} {a b : V}

@[simp]
theorem mem_union : (a, b) ∈ (g.union g').edges ↔ (a, b) ∈ g.edges ∨ (a, b) ∈ g'.edges :=
  Finset.mem_union

@[simp]
theorem mem_intersect : (a, b) ∈ (g.intersect g').edges ↔ (a, b) ∈ g.edges ∧ (a, b) ∈ g'.edges :=
  Finset.mem_inter

@[simp]
theorem mem_diff
    : (a, b) ∈ (g.diff g').edges ↔ (a, b) ∈ g.edges ∧ a ∉ g'.nodes ∧ b ∉ g'.nodes :=
  Finset.mem_filter

open Saturation (Pass) in
theorem pass_neighbors (g : FinGraph V)
    : Pass (fun a b => (a, b) ∈ g.edges) (fun s => s ∪ s.biUnion g.neighbors) where
  grows := fun _ => Finset.subset_union_left
  sound := by
    intro s b hb
    rcases Finset.mem_union.mp hb with hb | hb
    . exact .of_mem hb
    . obtain ⟨a, ha, hab⟩ := Finset.mem_biUnion.mp hb
      exact ⟨a, ha, .single (mem_neighbors.mp hab)⟩
  closed := by
    intro s hfixed a b ha hab
    have hb : b ∈ s ∪ s.biUnion g.neighbors :=
      Finset.mem_union_right _ (Finset.mem_biUnion.mpr ⟨a, ha, mem_neighbors.mpr hab⟩)
    rwa [hfixed] at hb

theorem mem_component (ha : a ∈ g.nodes)
    : b ∈ g.component a ↔ Relation.ReflTransGen (fun a b => (a, b) ∈ g.edges) a b := by
  obtain ⟨k, hk, hfixed⟩ := g.pass_neighbors.exists_fixed (Finset.singleton_subset_iff.mpr ha)
    (fun _ _ _ hedge => g.mem_right hedge)
  have hle : k ≤ g.nodes.card := hk.trans (Finset.card_le_card Finset.sdiff_subset)
  rw [component, Saturation.Pass.iterate_of_fixed hfixed hle, g.pass_neighbors.mem_iff_of_fixed hfixed]
  constructor
  . rintro ⟨a', ha', hb⟩
    rwa [Finset.mem_singleton.mp ha'] at hb
  . intro hb
    exact ⟨a, Finset.mem_singleton_self a, hb⟩

theorem isConnected_iff : g.isConnected = true ↔ g.Connected := by
  rw [isConnected, decide_eq_true_eq]
  constructor
  . intro h a ha b hb
    exact (mem_component ha).mp (h a ha hb)
  . intro h a ha b hb
    exact (mem_component ha).mpr (h a ha b hb)

/--
Each edge is counted in the one of its directions that agrees with an order.
-/
theorem graphSize_eq_card {edges : Finset (V × V)} (hsubset : edges ⊆ g.edges)
    (hsome : ∀ a b, (a, b) ∈ g.edges → (a, b) ∈ edges ∨ (b, a) ∈ edges)
    (hone : ∀ a b, (a, b) ∈ edges → (b, a) ∉ edges)
    : g.graphSize = edges.card := by
  have himage : g.edges.image (fun e => s(e.1, e.2)) = edges.image (fun e => s(e.1, e.2)) := by
    apply Finset.Subset.antisymm
    . intro z hz
      obtain ⟨⟨a, b⟩, hab, rfl⟩ := Finset.mem_image.mp hz
      rcases hsome a b hab with hab | hba
      . exact Finset.mem_image_of_mem _ hab
      . exact Finset.mem_image.mpr ⟨(b, a), hba, Sym2.eq_swap⟩
    . exact Finset.image_subset_image hsubset
  rw [graphSize, himage, Finset.card_image_of_injOn]
  rintro ⟨a, b⟩ hab ⟨c, d⟩ hcd heq
  rcases Sym2.eq_iff.mp heq with ⟨rfl, rfl⟩ | ⟨rfl, rfl⟩
  . rfl
  . exact absurd hcd (hone a b hab)

theorem union_of_subset (hnodes : g'.nodes ⊆ g.nodes) (hedges : g'.edges ⊆ g.edges)
    : g.union g' = g :=
  FinGraph.ext (Finset.union_eq_left.mpr hnodes) (Finset.union_eq_left.mpr hedges)

theorem diff_of_disjoint (h : Disjoint g.nodes g'.nodes) : g.diff g' = g := by
  ext x
  . show x ∈ g.nodes \ g'.nodes ↔ x ∈ g.nodes
    rw [Finset.sdiff_eq_self_of_disjoint h]
  . obtain ⟨a, b⟩ := x
    rw [mem_diff, and_iff_left_iff_imp]
    intro hedge
    exact ⟨Finset.disjoint_left.mp h (g.mem a b hedge), Finset.disjoint_left.mp h (g.mem_right hedge)⟩

end FinGraph
