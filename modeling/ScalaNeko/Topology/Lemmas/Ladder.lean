import Mathlib.Algebra.Ring.Int.Defs
import ScalaNeko.Topology.Impl.Ladder
import ScalaNeko.Topology.Lemmas

/-!
A ladder is the square of a path. Each union adds the next process, with its two edges.
-/

namespace Ladder

-- Processes at distance one or two among the first `n`.
def Near (n p q : Int) : Prop :=
  (0 ≤ p ∧ p < n) ∧ (0 ≤ q ∧ q < n) ∧ p ≠ q ∧ p - q ≤ 2 ∧ q - p ≤ 2

variable {n p q : Int} {t : Topology} {range : Range}

-- The clique that is added last, over the processes from `n - 3` to `n - 1`.
theorem edges_clique (hsize : range.size = 3) (hmin : range.min = n - 3)
    : (p, q) ∈ (Topology.clique range).underlying.edges
      ↔ (n - 3 ≤ p ∧ p < n) ∧ (n - 3 ≤ q ∧ q < n) ∧ p ≠ q := by
  rw [Topology.mem_edges_clique, ProcessRange.mem_toSet, ProcessRange.mem_toSet]
  omega

/--
What the fold has built when the last process is `n - 1`.
-/
structure Built (n : Int) (t : Topology) : Prop where
  form : (n = 3 ∧ ∃ range, t = .clique range ∧ range.size = 3) ∨ ∃ t1 t2, t = .union t1 t2
  three_le : 3 ≤ n
  processSet : ∀ p, p ∈ t.processSet ↔ 0 ≤ p ∧ p < n
  neighbors : ∀ p q, q ∈ t.neighbors p ↔ Near n p q
  edges : ∀ p q, (p, q) ∈ t.underlying.edges ↔ Near n p q

theorem built_clique (hsize : range.size = 3) (hmin : range.min = 0) : Built 3 (.clique range) where
  form := .inl ⟨rfl, range, rfl, hsize⟩
  three_le := Int.le_refl 3
  processSet := by
    intro p
    show p ∈ range.toSet ↔ _
    rw [ProcessRange.mem_toSet]
    omega
  neighbors := by
    intro p q
    rw [Topology.mem_neighbors_clique, edges_clique hsize (show range.min = 3 - 3 by omega)]
    unfold Near
    omega
  edges := by
    intro p q
    rw [edges_clique hsize (show range.min = 3 - 3 by omega)]
    unfold Near
    omega

-- `Clique.union` takes its short cut only where there is no new process.
theorem Built.unionWith (h : Built n t) (hsize : range.size = 3) (hmin : range.min = n - 2)
    : t.unionWith (.clique range) = .union t (.clique range) := by
  rcases h.form with ⟨-, range', rfl, -⟩ | ⟨t1, t2, rfl⟩
  . apply if_neg
    intro hsubset
    have hlast : n ∈ (Topology.clique range).processSet := by
      show n ∈ range.toSet
      rw [ProcessRange.mem_toSet]
      omega
    have := (h.processSet n).mp (hsubset hlast)
    omega
  . rfl

theorem Built.next (h : Built n t) (hsize : range.size = 3) (hmin : range.min = n - 2)
    : Built (n + 1) (t.unionWith (.clique range)) := by
  have hthree := h.three_le
  have hmem : ∀ p, p ∈ (Topology.clique range).processSet ↔ n - 2 ≤ p ∧ p < n + 1 := by
    intro p
    show p ∈ range.toSet ↔ _
    rw [ProcessRange.mem_toSet]
    omega
  have hset : ∀ p, p ∈ t.processSet ∪ (Topology.clique range).processSet ↔ 0 ≤ p ∧ p < n + 1 := by
    intro p
    rw [Finset.mem_union, h.processSet, hmem]
    omega
  have hedges : ∀ p q, (p, q) ∈ (Topology.clique range).underlying.edges
      ↔ (n - 2 ≤ p ∧ p < n + 1) ∧ (n - 2 ≤ q ∧ q < n + 1) ∧ p ≠ q := by
    intro p q
    rw [edges_clique hsize (show range.min = n + 1 - 3 by omega)]
    omega
  rw [h.unionWith hsize hmin]
  refine ⟨.inr ⟨_, _, rfl⟩, by omega, hset, ?_, ?_⟩
  . intro p q
    rw [Topology.mem_neighbors_union, hset, h.neighbors, Topology.mem_neighbors_clique, hedges]
    unfold Near
    omega
  . intro p q
    show (p, q) ∈ (t.underlying.union (Topology.clique range).underlying).edges ↔ _
    rw [FinGraph.mem_union, h.edges, hedges]
    unfold Near
    omega

theorem built_foldl {ranges : List Range} (h : Built n t)
    (hranges : ∀ (k : Nat) range, ranges[k]? = some range → range.size = 3 ∧ range.min = n - 2 + k)
    : Built (n + ranges.length) (ranges.foldl (fun t range => t.unionWith (.clique range)) t) := by
  induction ranges generalizing n t with
  | nil =>
    rw [List.length_nil, Nat.cast_zero, Int.add_zero]
    exact h
  | cons range ranges ih =>
    have hfirst := hranges 0 range rfl
    rw [Nat.cast_zero, Int.add_zero] at hfirst
    have hnext := ih (h.next hfirst.1 hfirst.2) (by
      intro k range' hk
      have := hranges (k + 1) range' hk
      omega)
    rw [List.foldl_cons, List.length_cons]
    convert hnext using 1
    omega

theorem getElem?_ranges {hn : n < 2 ^ 31} {k : Nat} (hk : (ranges n hn)[k]? = some range)
    : range.size = 3 ∧ range.min = k := by
  rw [ranges, List.getElem?_map, Option.map_eq_some_iff] at hk
  obtain ⟨i, hi, rfl⟩ := hk
  obtain ⟨hlt, rfl⟩ := List.getElem?_eq_some_iff.mp hi
  rw [List.getElem_finRange]
  exact ⟨rfl, rfl⟩

theorem exists_built (hn : n < 2 ^ 31) (htwo : 2 < n) : ∃ t, apply n hn = some t ∧ Built n t := by
  have hlength : (ranges n hn).length = (n - 2).toNat := by
    rw [ranges, List.length_map, List.length_finRange]
  rw [apply, if_pos htwo]
  cases hranges : ranges n hn with
  | nil =>
    rw [hranges, List.length_nil] at hlength
    omega
  | cons range rest =>
    rw [hranges, List.length_cons] at hlength
    have hfirst : (ranges n hn)[0]? = some range := by
      rw [hranges]
      rfl
    obtain ⟨hsize, hmin⟩ := getElem?_ranges hfirst
    have hbuilt := @built_foldl 3 _ rest (built_clique hsize hmin) (by
      intro k range' hk
      have hnext : (ranges n hn)[k + 1]? = some range' := by
        rw [hranges]
        exact hk
      have := getElem?_ranges hnext
      omega)
    refine ⟨_, rfl, ?_⟩
    convert hbuilt using 1
    omega

-- The edges of the ladder, each from the smaller process to the larger one.
def steps (n : Int) (d : Nat) : Finset (Int × Int) :=
  (Finset.range (n - d).toNat).image fun k : Nat => ((k : Int), (k : Int) + d)

theorem mem_steps {d : Nat} : (p, q) ∈ steps n d ↔ 0 ≤ p ∧ q = p + d ∧ q < n := by
  rw [steps, Finset.mem_image]
  constructor
  . rintro ⟨k, hk, heq⟩
    rw [Finset.mem_range] at hk
    rw [Prod.mk.injEq] at heq
    omega
  . rintro ⟨hp, rfl, hq⟩
    refine ⟨p.toNat, ?_, ?_⟩
    . rw [Finset.mem_range]
      omega
    . rw [Prod.mk.injEq]
      omega

theorem card_steps (d : Nat) : (steps n d).card = (n - d).toNat := by
  rw [steps, Finset.card_image_of_injective, Finset.card_range]
  intro k l hkl
  exact Int.ofNat.inj (Prod.mk.inj hkl).1

theorem Built.graphSize (h : Built n t) : (t.underlying.graphSize : Int) = 2 * n - 3 := by
  have hthree := h.three_le
  have hcard : t.underlying.graphSize = (steps n 1 ∪ steps n 2).card := by
    apply FinGraph.graphSize_eq_card
    . rintro ⟨p, q⟩ hpq
      rw [Finset.mem_union, mem_steps, mem_steps] at hpq
      rw [h.edges, Near]
      omega
    . intro p q hpq
      rw [h.edges, Near] at hpq
      rw [Finset.mem_union, Finset.mem_union, mem_steps, mem_steps, mem_steps, mem_steps]
      omega
    . intro p q hpq
      rw [Finset.mem_union, mem_steps, mem_steps] at hpq ⊢
      omega
  have hdisjoint : Disjoint (steps n 1) (steps n 2) := by
    rw [Finset.disjoint_left]
    rintro ⟨p, q⟩ hone htwo
    rw [mem_steps] at hone htwo
    omega
  rw [hcard, Finset.card_union_of_disjoint hdisjoint, card_steps, card_steps]
  omega

theorem Built.connected (h : Built n t) : t.underlying.Connected := by
  apply Linked.of_rank 0 Int.toNat t.underlying.symm
  intro p hp hne
  rw [← t.sound.processSet, h.processSet] at hp
  refine ⟨p - 1, ?_, ?_, ?_⟩
  . rw [← t.sound.processSet, h.processSet]
    omega
  . rw [h.edges, Near]
    omega
  . omega

/--
The square of the path of the first `n` processes.
-/
structure PathSquare (n : Int) (t : Topology) : Prop where
  processSet : ∀ p, p ∈ t.processSet ↔ 0 ≤ p ∧ p < n
  neighborsFor : ∀ p, 0 ≤ p → p < n → ∃ neighbors, t.neighborsFor p = some neighbors
    ∧ ∀ q, q ∈ neighbors ↔ (0 ≤ q ∧ q < n) ∧ 1 ≤ (p - q).natAbs ∧ (p - q).natAbs ≤ 2
  numberOfEdges : t.numberOfEdges = 2 * n - 3
  isConnected : t.isConnected = true ∧ t.underlying.Connected

theorem Built.pathSquare (h : Built n t) : PathSquare n t where
  processSet := h.processSet
  neighborsFor := by
    intro p hp hlt
    have hneighbors := h.neighbors p
    have hthree := h.three_le
    unfold Topology.neighbors at hneighbors
    cases hsome : t.neighborsFor p with
    | none =>
      rw [hsome, Option.getD_none] at hneighbors
      -- one of the processes next to `p` is there
      have habove := (hneighbors (p + 1)).mpr
      have hbelow := (hneighbors (p - 1)).mpr
      unfold Near at habove hbelow
      by_cases hlast : p + 1 < n
      . exact absurd (habove (by omega)) (Finset.notMem_empty _)
      . exact absurd (hbelow (by omega)) (Finset.notMem_empty _)
    | some neighbors =>
      rw [hsome, Option.getD_some] at hneighbors
      refine ⟨neighbors, rfl, ?_⟩
      intro q
      rw [hneighbors, Near]
      omega
  numberOfEdges := by
    rcases h.form with ⟨rfl, range, rfl, hsize⟩ | ⟨t1, t2, rfl⟩
    . rw [Topology.numberOfEdges, hsize]
      decide
    . exact h.graphSize
  isConnected := by
    refine ⟨?_, h.connected⟩
    rcases h.form with ⟨-, range, rfl, -⟩ | ⟨t1, t2, rfl⟩
    . rfl
    . exact FinGraph.isConnected_iff.mpr h.connected

theorem apply_pathSquare (n : Int) (hn : n < 2 ^ 31) (htwo : 2 < n)
    : ∃ t, apply n hn = some t ∧ PathSquare n t := by
  obtain ⟨t, ht, hbuilt⟩ := exists_built hn htwo
  exact ⟨t, ht, hbuilt.pathSquare⟩

theorem apply_pathSquare_five : ∃ t, apply 5 (by decide) = some t ∧ PathSquare 5 t :=
  apply_pathSquare 5 (by decide) (by decide)

end Ladder
