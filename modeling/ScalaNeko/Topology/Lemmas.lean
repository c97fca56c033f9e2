import ScalaNeko.Topology.Impl
import ScalaNeko.Topology.Lemmas.Range

/-!
What the topologies that are built by union, intersection and difference say about the graphs that are
built in the same way. A difference takes the neighbours of a process that it has removed for its own, and
a large ring takes the wrong process for the previous one.
-/

namespace Topology

def neighbors (t : Topology) (p : Int) : Finset Int := (t.neighborsFor p).getD ∅

variable {t t1 t2 : Topology} {g g1 g2 : FinGraph Int} {p q : Int}

@[simp]
theorem getD_someNonempty (res : Finset Int) : (someNonempty res).getD ∅ = res := by
  unfold someNonempty
  split
  . next h => exact h.symm
  . rfl

theorem mem_neighbors_union
    : q ∈ (union t1 t2).neighbors p
      ↔ p ∈ t1.processSet ∪ t2.processSet ∧ (q ∈ t1.neighbors p ∨ q ∈ t2.neighbors p) := by
  unfold neighbors
  rw [neighborsFor]
  by_cases hp : p ∈ (union t1 t2).processSet
  . rw [if_pos hp, getD_someNonempty, Finset.mem_union,
      and_iff_right (show p ∈ t1.processSet ∪ t2.processSet from hp)]
  . rw [if_neg hp]
    exact iff_of_false (Finset.notMem_empty q) (fun h => hp h.1)

theorem mem_neighbors_intersect
    : q ∈ (intersect t1 t2).neighbors p ↔ q ∈ t1.neighbors p ∧ q ∈ t2.neighbors p := by
  unfold neighbors
  rw [neighborsFor, getD_someNonempty, Finset.mem_inter]

theorem mem_neighbors_diff
    : q ∈ (diff t1 t2).neighbors p ↔ q ∈ t1.neighbors p ∧ q ∉ t2.processSet := by
  unfold neighbors
  rw [neighborsFor, getD_someNonempty, Finset.mem_sdiff]

theorem mem_neighbors_graph : q ∈ (graph g).neighbors p ↔ (p, q) ∈ g.edges := by
  unfold neighbors
  rw [neighborsFor]
  split
  . exact FinGraph.mem_neighbors
  . next hp => exact iff_of_false (Finset.notMem_empty q) (fun h => hp (g.mem p q h))

theorem mem_edges_clique {range : Range}
    : (p, q) ∈ (clique range).underlying.edges ↔ (p ∈ range.toSet ∧ q ∈ range.toSet) ∧ q ≠ p := by
  rw [underlying, MixedGraph.mem_simple, MixedGraph.Adj, MixedGraph.succ_cliqueOf, MixedGraph.succ_cliqueOf]
  tauto

theorem mem_edges_ring {range : Range}
    : (p, q) ∈ (ring range).underlying.edges
      ↔ (p ∈ range.toSet ∧ q = range.following p) ∨ (q ∈ range.toSet ∧ p = range.following q) := by
  rw [underlying, MixedGraph.mem_simple, MixedGraph.adj_ring (.inl rfl), and_iff_right_iff_imp]
  have htwo := Nat.le_of_succ_le range.three_le
  rintro (⟨hp, rfl⟩ | ⟨hq, rfl⟩)
  . exact (ProcessRange.following_ne htwo hp).symm
  . exact ProcessRange.following_ne htwo hq

theorem mem_neighbors_clique {range : Range}
    : q ∈ (clique range).neighbors p ↔ (p, q) ∈ (clique range).underlying.edges := by
  unfold neighbors
  rw [neighborsFor, mem_edges_clique]
  split
  . next hp =>
    rw [Option.getD_some, Finset.mem_erase]
    exact ⟨fun h => ⟨⟨hp, h.2⟩, h.1⟩, fun h => ⟨h.2, h.1.2⟩⟩
  . next hp => exact iff_of_false (Finset.notMem_empty q) (fun h => hp h.1.1)

theorem mem_neighbors_ring {range : Range}
    : q ∈ (ring range).neighbors p ↔ p ∈ range.toSet ∧ (q = range.prevOf p ∨ q = range.following p) := by
  unfold neighbors
  rw [neighborsFor]
  split
  . next hp =>
    rw [Option.getD_some, Finset.mem_insert, Finset.mem_singleton, and_iff_right hp,
      ProcessRange.nextOf_eq hp]
  . next hp => exact iff_of_false (Finset.notMem_empty q) (fun h => hp h.1)

/--
What holds of every topology, whatever its neighbours are.
-/
structure Sound (t : Topology) (g : FinGraph Int) : Prop where
  underlying : t.underlying = g
  processSet : t.processSet = g.nodes
  size : t.size = g.nodes.card
  contains : ∀ p, t.contains p = true ↔ p ∈ g.nodes

theorem Sound.leaf_clique (range : Range) : Sound (clique range) (clique range).underlying := by
  have hnodes : (clique range).underlying.nodes = range.toSet := MixedGraph.nodes_cliqueOf
  exact ⟨rfl, hnodes.symm, by rw [hnodes, ProcessRange.card_toSet]; rfl,
    by simp [Topology.contains, hnodes]⟩

theorem Sound.leaf_ring (range : Range) : Sound (ring range) (ring range).underlying := by
  have hnodes : (ring range).underlying.nodes = range.toSet := MixedGraph.nodes_ringOf
  exact ⟨rfl, hnodes.symm, by rw [hnodes, ProcessRange.card_toSet]; rfl,
    by simp [Topology.contains, hnodes]⟩

theorem Sound.leaf_graph (g : FinGraph Int) : Sound (graph g) g where
  underlying := rfl
  processSet := rfl
  size := rfl
  contains := by simp [Topology.contains]

theorem Sound.union (h1 : Sound t1 g1) (h2 : Sound t2 g2) : Sound (union t1 t2) (g1.union g2) := by
  have hset : (Topology.union t1 t2).processSet = (g1.union g2).nodes := by
    rw [Topology.processSet, h1.processSet, h2.processSet]
    rfl
  constructor
  . rw [Topology.underlying, h1.underlying, h2.underlying]
  . exact hset
  . rw [Topology.size, hset]
  . intro p
    rw [Topology.contains, decide_eq_true_iff, hset]

theorem Sound.intersect (h1 : Sound t1 g1) (h2 : Sound t2 g2)
    : Sound (intersect t1 t2) (g1.intersect g2) := by
  have hset : (Topology.intersect t1 t2).processSet = (g1.intersect g2).nodes := by
    rw [Topology.processSet, h1.processSet, h2.processSet]
    rfl
  constructor
  . rw [Topology.underlying, h1.underlying, h2.underlying]
  . exact hset
  . rw [Topology.size, hset]
  . intro p
    rw [Topology.contains, Bool.and_eq_true, h1.contains, h2.contains]
    exact Finset.mem_inter.symm

theorem Sound.diff (h1 : Sound t1 g1) (h2 : Sound t2 g2) : Sound (diff t1 t2) (g1.diff g2) := by
  have hset : (Topology.diff t1 t2).processSet = (g1.diff g2).nodes := by
    rw [Topology.processSet, h1.processSet, h2.processSet]
    rfl
  constructor
  . rw [Topology.underlying, h1.underlying, h2.underlying]
  . exact hset
  . rw [Topology.size, hset]
  . intro p
    rw [Topology.contains, Bool.and_eq_true, Bool.not_eq_true', h1.contains, ← Bool.not_eq_true,
      h2.contains]
    exact Finset.mem_sdiff.symm

theorem sound (t : Topology) : Sound t t.underlying := by
  induction t with
  | clique range => exact .leaf_clique range
  | ring range => exact .leaf_ring range
  | graph g => exact .leaf_graph g
  | union t1 t2 ih1 ih2 => exact ih1.union ih2
  | intersect t1 t2 ih1 ih2 => exact ih1.intersect ih2
  | diff t1 t2 ih1 ih2 => exact ih1.diff ih2

/--
The results of the methods: a graph from a graph, else a combination or, where this makes no
difference, `this`.
-/
theorem unionWith_cases (t1 t2 : Topology)
    : (∃ g, t1 = graph g ∧ t1.unionWith t2 = graph (g.union t2.underlying))
        ∨ t1.unionWith t2 = union t1 t2
        ∨ (∃ range, t1 = clique range ∧ t2.processSet ⊆ range.toSet ∧ t1.unionWith t2 = t1) := by
  cases t1 with
  | clique range =>
    by_cases hsubset : t2.processSet ⊆ range.toSet
    . exact .inr (.inr ⟨range, rfl, hsubset, if_pos hsubset⟩)
    . exact .inr (.inl (if_neg hsubset))
  | graph g => exact .inl ⟨g, rfl, rfl⟩
  | ring => exact .inr (.inl rfl)
  | union => exact .inr (.inl rfl)
  | intersect => exact .inr (.inl rfl)
  | diff => exact .inr (.inl rfl)

theorem intersectWith_cases (t1 t2 : Topology)
    : (∃ g, t1 = graph g ∧ t1.intersectWith t2 = graph (g.intersect t2.underlying))
        ∨ t1.intersectWith t2 = intersect t1 t2 := by
  cases t1 with
  | graph g => exact .inl ⟨g, rfl, rfl⟩
  | clique => exact .inr rfl
  | ring => exact .inr rfl
  | union => exact .inr rfl
  | intersect => exact .inr rfl
  | diff => exact .inr rfl

theorem diffWith_cases (t1 t2 : Topology)
    : (∃ g, t1 = graph g ∧ t1.diffWith t2 = graph (g.diff t2.underlying))
        ∨ t1.diffWith t2 = diff t1 t2
        ∨ (t1.processSet ∩ t2.processSet = ∅ ∧ t1.diffWith t2 = t1) := by
  cases t1 with
  | clique range =>
    by_cases hdisjoint : range.toSet ∩ t2.processSet = ∅
    . exact .inr (.inr ⟨hdisjoint, if_pos hdisjoint⟩)
    . exact .inr (.inl (if_neg hdisjoint))
  | ring range =>
    by_cases hdisjoint : range.toSet ∩ t2.processSet = ∅
    . exact .inr (.inr ⟨hdisjoint, if_pos hdisjoint⟩)
    . exact .inr (.inl (if_neg hdisjoint))
  | graph g => exact .inl ⟨g, rfl, rfl⟩
  | union => exact .inr (.inl rfl)
  | intersect => exact .inr (.inl rfl)
  | diff => exact .inr (.inl rfl)

theorem Sound.unionWith (h1 : Sound t1 g1) (h2 : Sound t2 g2)
    : Sound (t1.unionWith t2) (g1.union g2) := by
  rcases unionWith_cases t1 t2 with ⟨g, rfl, heq⟩ | heq | ⟨range, rfl, hsubset, heq⟩
  . rw [heq, h2.underlying, show g = g1 from h1.underlying]
    exact .leaf_graph _
  . rw [heq]
    exact h1.union h2
  . obtain rfl := h1.underlying
    rw [h2.processSet] at hsubset
    have hset := h1.processSet
    rw [heq, FinGraph.union_of_subset]
    . exact h1
    . rw [← hset]
      exact hsubset
    . rintro ⟨p, q⟩ hedge
      rw [mem_edges_clique]
      exact ⟨⟨hsubset (g2.mem p q hedge), hsubset (g2.mem_right hedge)⟩, g2.ne_of_edge hedge⟩

theorem Sound.intersectWith (h1 : Sound t1 g1) (h2 : Sound t2 g2)
    : Sound (t1.intersectWith t2) (g1.intersect g2) := by
  rcases intersectWith_cases t1 t2 with ⟨g, rfl, heq⟩ | heq
  . rw [heq, h2.underlying, show g = g1 from h1.underlying]
    exact .leaf_graph _
  . rw [heq]
    exact h1.intersect h2

theorem Sound.diffWith (h1 : Sound t1 g1) (h2 : Sound t2 g2)
    : Sound (t1.diffWith t2) (g1.diff g2) := by
  rcases diffWith_cases t1 t2 with ⟨g, rfl, heq⟩ | heq | ⟨hdisjoint, heq⟩
  . rw [heq, h2.underlying, show g = g1 from h1.underlying]
    exact .leaf_graph _
  . rw [heq]
    exact h1.diff h2
  . rw [h1.processSet, h2.processSet, ← Finset.disjoint_iff_inter_eq_empty] at hdisjoint
    rw [heq, FinGraph.diff_of_disjoint hdisjoint]
    exact h1

/--
Where `neighborsFor` is wrong: the processes it takes for neighbours of another, and the neighbours it
leaves out.
-/
structure Flaws where
  leaks : Int → Int → Prop
  misses : Int → Int → Prop

def Flaws.lists (f : Flaws) (g : FinGraph Int) (p q : Int) : Prop :=
  ((p, q) ∈ g.edges ∧ ¬ f.misses p q) ∨ f.leaks p q

/--
A difference that removes `p` and not `q` takes an edge between them for one of its own. In a ring, where
the sum in `prevOf` overflows, a stray process is taken for the previous one. The combinations pass these
on unless `p` is not one of their processes (union), the other side does not list `q` or does list it,
`q` is removed (difference) or there is an edge in the result.
-/
def flaws : Topology → Flaws
  | clique _ => ⟨fun _ _ => False, fun _ _ => False⟩
  | ring range =>
    { leaks := fun p q =>
        range.Overflows p ∧ q = range.stray p ∧ (p, q) ∉ (ring range).underlying.edges
      misses := fun p q => range.Overflows p ∧ q = p - 1 }
  | graph _ => ⟨fun _ _ => False, fun _ _ => False⟩
  | union t1 t2 =>
    { leaks := fun p q =>
        p ∈ (union t1 t2).underlying.nodes ∧ (p, q) ∉ (union t1 t2).underlying.edges
          ∧ (t1.flaws.leaks p q ∨ t2.flaws.leaks p q)
      misses := fun p q =>
        (p, q) ∈ (union t1 t2).underlying.edges
          ∧ ¬ t1.flaws.lists t1.underlying p q ∧ ¬ t2.flaws.lists t2.underlying p q }
  | intersect t1 t2 =>
    { leaks := fun p q =>
        (p, q) ∉ (intersect t1 t2).underlying.edges
          ∧ t1.flaws.lists t1.underlying p q ∧ t2.flaws.lists t2.underlying p q
      misses := fun p q =>
        (p, q) ∈ (intersect t1 t2).underlying.edges
          ∧ (t1.flaws.misses p q ∨ t2.flaws.misses p q) }
  | diff t1 t2 =>
    { leaks := fun p q =>
        q ∉ t2.underlying.nodes
          ∧ (t1.flaws.leaks p q ∨ t1.flaws.lists t1.underlying p q ∧ p ∈ t2.underlying.nodes)
      misses := fun p q => (p, q) ∈ (diff t1 t2).underlying.edges ∧ t1.flaws.misses p q }

/--
What the neighbours of a topology are.
-/
structure Listed (t : Topology) : Prop where
  lists : ∀ p q, q ∈ t.neighbors p ↔ t.flaws.lists t.underlying p q
  leaks : ∀ p q, t.flaws.leaks p q → (p, q) ∉ t.underlying.edges
  misses : ∀ p q, t.flaws.misses p q → (p, q) ∈ t.underlying.edges

theorem Listed.of_flawless (hlists : ∀ p q, q ∈ t.neighbors p ↔ (p, q) ∈ t.underlying.edges)
    (hleaks : ∀ p q, ¬ t.flaws.leaks p q) (hmisses : ∀ p q, ¬ t.flaws.misses p q)
    : Listed t where
  lists := by
    intro p q
    rw [hlists, Flaws.lists, or_iff_left (hleaks p q), and_iff_left (hmisses p q)]
  leaks := fun p q h => absurd h (hleaks p q)
  misses := fun p q h => absurd h (hmisses p q)

theorem Listed.leaf_ring (range : Range) : Listed (ring range) where
  lists := by
    intro p q
    rw [mem_neighbors_ring, Flaws.lists, flaws]
    dsimp only
    rw [mem_edges_ring]
    have hthree := range.three_le
    by_cases hp : p ∈ range.toSet
    . by_cases hover : range.Overflows p
      -- the process before `p` is not the one after it, nor the stray one
      . have hsum := hover.2
        have hstray := ProcessRange.stray_ne hover
        have hlt := range.size_lt
        rw [ProcessRange.prevOf_of_overflows hover]
        rw [ProcessRange.mem_toSet] at hp
        simp only [ProcessRange.mem_toSet, hover, true_and]
        unfold ProcessRange.following ProcessRange.last
        grind
      . rw [ProcessRange.prevOf_of_not_overflows hp hover]
        rw [ProcessRange.mem_toSet] at hp
        simp only [ProcessRange.mem_toSet, hover, false_and, not_false_iff, and_true, or_false]
        unfold ProcessRange.following ProcessRange.last
        omega
    . have hover : ¬ range.Overflows p := fun hover => hp hover.1
      simp only [hp, hover, false_and, not_false_iff, and_true, or_false, false_or, false_iff]
      rintro ⟨hq, rfl⟩
      exact hp (ProcessRange.mem_following hq)
  leaks := fun _ _ h => h.2.2
  misses := by
    rintro p _ ⟨⟨hp, hsum⟩, rfl⟩
    have hlt := range.size_lt
    rw [mem_edges_ring]
    rw [ProcessRange.mem_toSet] at hp
    refine .inr ⟨?_, ?_⟩
    . rw [ProcessRange.mem_toSet]
      omega
    . rw [ProcessRange.following, if_pos]
      . omega
      . unfold ProcessRange.last
        omega

theorem Listed.union (h1 : Listed t1) (h2 : Listed t2) : Listed (union t1 t2) where
  lists := by
    intro p q
    have hmem := (Topology.union t1 t2).underlying.mem p q
    have hnodes : (Topology.union t1 t2).underlying.nodes = t1.processSet ∪ t2.processSet :=
      (Topology.union t1 t2).sound.processSet.symm
    have hedges : (p, q) ∈ (Topology.union t1 t2).underlying.edges
        ↔ (p, q) ∈ t1.underlying.edges ∨ (p, q) ∈ t2.underlying.edges :=
      FinGraph.mem_union
    rw [mem_neighbors_union, h1.lists, h2.lists, ← hnodes, Flaws.lists, flaws]
    unfold Flaws.lists
    rw [hedges] at hmem ⊢
    tauto
  leaks := fun _ _ h => h.2.1
  misses := fun _ _ h => h.1

theorem Listed.intersect (h1 : Listed t1) (h2 : Listed t2) : Listed (intersect t1 t2) where
  lists := by
    intro p q
    have hleaks1 := h1.leaks p q
    have hleaks2 := h2.leaks p q
    have hedges : (p, q) ∈ (Topology.intersect t1 t2).underlying.edges
        ↔ (p, q) ∈ t1.underlying.edges ∧ (p, q) ∈ t2.underlying.edges :=
      FinGraph.mem_intersect
    rw [mem_neighbors_intersect, h1.lists, h2.lists, Flaws.lists, flaws]
    unfold Flaws.lists
    rw [hedges]
    tauto
  leaks := fun _ _ h => h.1
  misses := fun _ _ h => h.1

theorem Listed.diff (h1 : Listed t1) : Listed (diff t1 t2) where
  lists := by
    intro p q
    have hleaks1 := h1.leaks p q
    have hedges : (p, q) ∈ (Topology.diff t1 t2).underlying.edges
        ↔ (p, q) ∈ t1.underlying.edges ∧ p ∉ t2.underlying.nodes ∧ q ∉ t2.underlying.nodes :=
      FinGraph.mem_diff
    rw [mem_neighbors_diff, h1.lists, t2.sound.processSet, Flaws.lists, flaws]
    unfold Flaws.lists
    rw [hedges]
    tauto
  leaks := by
    rintro p q ⟨-, hleak⟩ hedge
    obtain ⟨hedge, hp, -⟩ := FinGraph.mem_diff.mp hedge
    rcases hleak with hleak | ⟨-, hremoved⟩
    . exact h1.leaks p q hleak hedge
    . exact hp hremoved
  misses := fun _ _ h => h.1

theorem listed (t : Topology) : Listed t := by
  induction t with
  | clique => exact .of_flawless (fun _ _ => mem_neighbors_clique) (fun _ _ => id) (fun _ _ => id)
  | ring range => exact .leaf_ring range
  | graph => exact .of_flawless (fun _ _ => mem_neighbors_graph) (fun _ _ => id) (fun _ _ => id)
  | union t1 t2 ih1 ih2 => exact ih1.union ih2
  | intersect t1 t2 ih1 ih2 => exact ih1.intersect ih2
  | diff t1 t2 ih1 => exact ih1.diff

theorem neighbors_iff
    : (∀ p q, q ∈ t.neighbors p ↔ (p, q) ∈ t.underlying.edges)
      ↔ ∀ p q, ¬ t.flaws.leaks p q ∧ ¬ t.flaws.misses p q := by
  apply forall_congr'
  intro p
  apply forall_congr'
  intro q
  have hleaks := t.listed.leaks p q
  have hmisses := t.listed.misses p q
  rw [t.listed.lists, Flaws.lists]
  tauto

end Topology

namespace TopologyExpr

open Topology (Sound)

/--
The graph that an expression stands for.
-/
def denote : TopologyExpr → FinGraph Int
  | clique range => (Topology.clique range).underlying
  | ring range => (Topology.ring range).underlying
  | graph g => g
  | union e1 e2 => e1.denote.union e2.denote
  | intersect e1 e2 => e1.denote.intersect e2.denote
  | diff e1 e2 => e1.denote.diff e2.denote

theorem sound (e : TopologyExpr) : Sound e.build e.denote := by
  induction e with
  | clique range => exact .leaf_clique range
  | ring range => exact .leaf_ring range
  | graph g => exact .leaf_graph g
  | union e1 e2 ih1 ih2 => exact ih1.unionWith ih2
  | intersect e1 e2 ih1 ih2 => exact ih1.intersectWith ih2
  | diff e1 e2 ih1 ih2 => exact ih1.diffWith ih2

variable {e e1 e2 : TopologyExpr}

/--
The topology is the graph of its expression.
-/
structure Homomorphic (e : TopologyExpr) : Prop where
  contains : ∀ p, e.build.contains p = true ↔ p ∈ e.denote.nodes
  processSet : e.build.processSet = e.denote.nodes
  size : e.build.size = e.denote.nodes.card
  neighbors : ∀ p q, q ∈ e.build.neighbors p ↔ (p, q) ∈ e.denote.edges
  outside : ∀ p, p ∉ e.denote.nodes → e.build.neighbors p = ∅
  symmetric : ∀ p q, q ∈ e.build.neighbors p → p ∈ e.build.neighbors q

theorem homomorphic_of_neighbors (h : ∀ p q, q ∈ e.build.neighbors p ↔ (p, q) ∈ e.denote.edges)
    : e.Homomorphic where
  contains := e.sound.contains
  processSet := e.sound.processSet
  size := e.sound.size
  neighbors := h
  outside := by
    intro p hp
    rw [Finset.eq_empty_iff_forall_notMem]
    intro q hq
    exact hp (e.denote.mem p q ((h p q).mp hq))
  symmetric := by
    intro p q hq
    exact (h q p).mpr (e.denote.symm p q ((h p q).mp hq))

theorem homomorphic_iff_flawless
    : e.Homomorphic ↔ ∀ p q, ¬ e.build.flaws.leaks p q ∧ ¬ e.build.flaws.misses p q := by
  rw [← Topology.neighbors_iff, e.sound.underlying]
  exact ⟨fun h => h.neighbors, homomorphic_of_neighbors⟩

/--
All of it but the neighbours is that of the graph in any case.
-/
theorem homomorphic_iff (e : TopologyExpr)
    : (e.Homomorphic ↔ ∀ p q, ¬ e.build.flaws.leaks p q ∧ ¬ e.build.flaws.misses p q)
        ∧ (∀ p, e.build.contains p = true ↔ p ∈ e.denote.nodes)
        ∧ e.build.processSet = e.denote.nodes ∧ e.build.size = e.denote.nodes.card :=
  ⟨homomorphic_iff_flawless, e.sound.contains, e.sound.processSet, e.sound.size⟩

/--
A ring alone is wrong where it is so large that a process overflows.
-/
theorem ring_homomorphic_iff (range : Range) : (ring range).Homomorphic ↔ range.Fits := by
  rw [homomorphic_iff_flawless]
  constructor
  . intro h
    by_contra hbig
    exact (h range.last (range.last - 1)).2 ⟨ProcessRange.overflows_last_iff.mpr hbig, rfl⟩
  . intro hfits p q
    exact ⟨fun hleak => hfits.not_overflows p hleak.1, fun hmiss => hfits.not_overflows p hmiss.1⟩

/--
Rings of any size do no harm where the topology that is built does not ask them.
-/
theorem homomorphic_of_leaf (h : (∃ g, e.build = .graph g) ∨ ∃ range, e.build = .clique range)
    : e.Homomorphic := by
  rw [homomorphic_iff_flawless]
  rcases h with ⟨g, hbuild⟩ | ⟨range, hbuild⟩
  . rw [hbuild]
    exact fun _ _ => ⟨id, id⟩
  . rw [hbuild]
    exact fun _ _ => ⟨id, id⟩

-- `first until first + size`
def rangeOf (first size : Nat) (hsize : 3 ≤ size) (hlt : first + size < 2 ^ 31) : Range where
  min := first
  size := size
  one_le := by omega
  size_lt := by omega
  min_le := by omega
  last_lt := by omega
  three_le := hsize

def five : TopologyExpr := clique (rangeOf 0 5 (by decide) (by decide))

def three : TopologyExpr := clique (rangeOf 0 3 (by decide) (by decide))

theorem not_homomorphic_of_outside
    : 0 ∉ (diff five three).denote.nodes ∧ (diff five three).build.neighborsFor 0 = some {3, 4}
        ∧ ¬ (diff five three).Homomorphic := by
  have hout : 0 ∉ (diff five three).denote.nodes := by
    rw [← (diff five three).sound.processSet]
    decide
  have hneighbors : (diff five three).build.neighborsFor 0 = some {3, 4} := by decide
  refine ⟨hout, hneighbors, ?_⟩
  intro h
  have hnone := h.outside 0 hout
  rw [Topology.neighbors, hneighbors] at hnone
  revert hnone
  decide

end TopologyExpr
