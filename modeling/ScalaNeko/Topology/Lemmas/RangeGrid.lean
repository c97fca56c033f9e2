import Mathlib.Data.Nat.Sqrt
import ScalaNeko.Topology.Impl.Lattice
import ScalaNeko.Topology.Lemmas.Cycle

/-!
The grid over a range takes the coordinates of a process from its number, and not from its place in the
range.
-/

open ProcessRange (mem_toSet)
open MixedGraph

namespace RangeGrid

variable {range : ProcessRange} {i j : Int}

theorem ceilSqrt_pos (range : ProcessRange) : 0 < ceilSqrt range.size := by
  have := range.one_le
  unfold ceilSqrt
  split
  . exact Nat.sqrt_pos.mpr (by omega)
  . omega

/--
`j` is the process to the left of `i` or above it.
-/
def Before (side i j : Int) : Prop := (1 ≤ i % side ∧ j = i - 1) ∨ (1 ≤ i / side ∧ j = i - side)

theorem Before.lt {side : Int} (hside : 0 < side) (h : Before side i j) : j < i := by
  rcases h with ⟨-, rfl⟩ | ⟨-, rfl⟩
  . omega
  . omega

theorem Before.nonneg {side : Int} (hside : 0 < side) (hi : 0 ≤ i) (h : Before side i j) : 0 ≤ j := by
  have hsum := Int.emod_add_mul_ediv i side
  rcases h with ⟨hx, rfl⟩ | ⟨hy, rfl⟩
  . have := Int.mul_nonneg (Int.le_of_lt hside) (Int.ediv_nonneg hi (Int.le_of_lt hside))
    omega
  . have := Int.emod_nonneg i (Int.ne_of_gt hside)
    have := Int.mul_le_mul_of_nonneg_left hy (Int.le_of_lt hside)
    omega

theorem exists_before {side : Int} (hside : 0 < side) (hi : 0 < i) : ∃ j, Before side i j := by
  by_cases hx : 1 ≤ i % side
  . exact ⟨i - 1, .inl ⟨hx, rfl⟩⟩
  . refine ⟨i - side, .inr ⟨?_, rfl⟩⟩
    by_contra hy
    have := Int.emod_nonneg i (Int.ne_of_gt hside)
    have hzero : i / side = 0 := by
      have := Int.ediv_nonneg (Int.le_of_lt hi) (Int.le_of_lt hside)
      omega
    have hsum := Int.emod_add_mul_ediv i side
    rw [hzero, Int.mul_zero] at hsum
    omega

-- A process is before another if one of the two moves of the loop leads to it.
theorem exists_move_iff {side : Int} (hside : 0 < side) (hi : 0 ≤ i)
    : (∃ m : Int × Int, (m = (-1, 0) ∨ m = (0, -1)) ∧ (i.tmod side + m.1 ≥ 0 ∧ i.tdiv side + m.2 ≥ 0)
        ∧ j = i + m.1 + side * m.2)
      ↔ Before side i j := by
  have hmod := Int.emod_nonneg i (Int.ne_of_gt hside)
  have hdiv := Int.ediv_nonneg hi (Int.le_of_lt hside)
  rw [Int.tmod_eq_emod_of_nonneg hi, Int.tdiv_eq_ediv_of_nonneg hi]
  constructor
  . rintro ⟨m, rfl | rfl, ⟨hx, hy⟩, rfl⟩
    . refine .inl ⟨by omega, ?_⟩
      rw [Int.mul_zero, Int.add_zero]
      rfl
    . refine .inr ⟨by omega, ?_⟩
      rw [Int.add_zero, Int.mul_neg_one]
      rfl
  . rintro (⟨hx, rfl⟩ | ⟨hy, rfl⟩)
    . refine ⟨(-1, 0), .inl rfl, ⟨by omega, by omega⟩, ?_⟩
      rw [Int.mul_zero, Int.add_zero]
      rfl
    . refine ⟨(0, -1), .inr rfl, ⟨by omega, by omega⟩, ?_⟩
      rw [Int.add_zero, Int.mul_neg_one]
      rfl

theorem mem_edges_apply (hmin : 0 ≤ range.min) {e : Edge Int}
    : e ∈ (apply range).edges
      ↔ ∃ i j, (i ∈ range.toSet ∧ Before (ceilSqrt range.size) i j) ∧ e = .undi s(i, j) := by
  have hside : (0 : Int) < ceilSqrt range.size := by
    have := ceilSqrt_pos range
    omega
  have hnonneg : ∀ i, i ∈ range.toList → 0 ≤ i := by
    intro i hi
    rw [ProcessRange.mem_toList] at hi
    omega
  simp only [apply, graphFrom, List.mem_toFinset, List.mem_flatMap, List.mem_map, List.mem_filter,
    List.mem_cons, List.not_mem_nil, or_false, Bool.and_eq_true, decide_eq_true_eq]
  constructor
  . rintro ⟨i, hi, m, ⟨hm, hinside⟩, rfl⟩
    exact ⟨i, _, ⟨List.mem_toFinset.mpr hi, (exists_move_iff hside (hnonneg i hi)).mp ⟨m, hm, hinside, rfl⟩⟩, rfl⟩
  . rintro ⟨i, j, ⟨hi, hbefore⟩, rfl⟩
    have hi := List.mem_toFinset.mp hi
    obtain ⟨m, hm, hinside, rfl⟩ := (exists_move_iff hside (hnonneg i hi)).mpr hbefore
    exact ⟨i, hi, m, ⟨hm, hinside⟩, rfl⟩

theorem adj_apply (hmin : 0 ≤ range.min)
    : (apply range).Adj i j
      ↔ (i ∈ range.toSet ∧ Before (ceilSqrt range.size) i j)
        ∨ (j ∈ range.toSet ∧ Before (ceilSqrt range.size) j i) := by
  have hsucc : ∀ i j, (apply range).Succ i j
      ↔ (i ∈ range.toSet ∧ Before (ceilSqrt range.size) i j)
        ∨ (j ∈ range.toSet ∧ Before (ceilSqrt range.size) j i) := by
    intro i j
    constructor
    . rintro ⟨e, he, hjoins⟩
      obtain ⟨a, b, hab, rfl⟩ := (mem_edges_apply hmin).mp he
      rcases Sym2.eq_iff.mp hjoins with ⟨rfl, rfl⟩ | ⟨rfl, rfl⟩
      . exact .inl hab
      . exact .inr hab
    . rintro (hij | hji)
      . exact ⟨_, (mem_edges_apply hmin).mpr ⟨i, j, hij, rfl⟩, rfl⟩
      . exact ⟨_, (mem_edges_apply hmin).mpr ⟨j, i, hji, rfl⟩, Sym2.eq_swap⟩
  rw [Adj, hsucc, hsucc]
  tauto

/--
A connected graph over the range, and over nothing else.
-/
structure StaysInside (range : ProcessRange) (g : MixedGraph Int) : Prop where
  nodes : g.nodes = range.toSet
  edges : ∀ i j, g.Adj i j → i ∈ range.toSet ∧ j ∈ range.toSet
  degree : ∀ i, (g.neighbors i).card ≤ 4
  connected : g.Connected

theorem card_neighbors_apply (hmin : 0 ≤ range.min) (i : Int) : ((apply range).neighbors i).card ≤ 4 := by
  have hsubset : (apply range).neighbors i
      ⊆ {i - 1, i - (ceilSqrt range.size : Int), i + 1, i + (ceilSqrt range.size : Int)} := by
    intro j hj
    rw [mem_neighbors, adj_apply hmin] at hj
    unfold Before at hj
    rw [Finset.mem_insert, Finset.mem_insert, Finset.mem_insert, Finset.mem_singleton]
    omega
  exact (Finset.card_le_card hsubset).trans Finset.card_le_four

theorem nodes_apply (hzero : range.min = 0) : (apply range).nodes = range.toSet := by
  have hside := ceilSqrt_pos range
  apply nodes_graphFrom
  intro i j hadj
  apply List.mem_toFinset.mp
  rcases (adj_apply (show 0 ≤ range.min by omega)).mp hadj with ⟨hi, -⟩ | ⟨hj, hbefore⟩
  . exact hi
  . rw [← ProcessRange.toSet, mem_toSet]
    rw [mem_toSet] at hj
    have := hbefore.lt (by omega)
    have := hbefore.nonneg (by omega) (by omega)
    omega

theorem staysInside_apply (hzero : range.min = 0) : StaysInside range (apply range) where
  nodes := nodes_apply hzero
  edges := by
    intro i j hadj
    rw [← nodes_apply hzero]
    exact hadj.mem_nodes
  degree := card_neighbors_apply (by omega)
  connected := by
    have hside := ceilSqrt_pos range
    apply connected_of_rank 0 Int.toNat
    intro i hi hne
    rw [nodes_apply hzero] at hi
    have hpos := mem_toSet.mp hi
    obtain ⟨j, hj⟩ := exists_before (show (0 : Int) < ceilSqrt range.size by omega)
      (show 0 < i by omega)
    refine ⟨j, (adj_apply (by omega)).mpr (.inl ⟨hi, hj⟩), ?_⟩
    have := hj.lt (by omega)
    have := hj.nonneg (by omega) (by omega)
    omega

-- The first process of any other range has an edge to a process that is not in it.
theorem leaves_of_pos (hpos : 0 < range.min) : ¬ StaysInside range (apply range) := by
  intro h
  have hside := ceilSqrt_pos range
  have := range.one_le
  have hfirst : range.min ∈ range.toSet := by
    rw [mem_toSet]
    omega
  obtain ⟨j, hj⟩ := exists_before (show (0 : Int) < ceilSqrt range.size by omega) hpos
  have hmem := (h.edges range.min j ((adj_apply (by omega)).mpr (.inl ⟨hfirst, hj⟩))).2
  rw [mem_toSet] at hmem
  have := hj.lt (by omega)
  omega

theorem staysInside_iff (range : ProcessRange) (hmin : 0 ≤ range.min)
    : StaysInside range (apply range) ↔ range.min = 0 := by
  constructor
  . intro h
    by_contra hne
    exact leaves_of_pos (by omega) h
  . exact staysInside_apply

theorem staysInside_iff_five
    : StaysInside (ProcessRange.rangeFrom 0 5 (by decide) (by decide))
        (apply (ProcessRange.rangeFrom 0 5 (by decide) (by decide))) :=
  (staysInside_iff (ProcessRange.rangeFrom 0 5 (by decide) (by decide)) (by decide)).mpr rfl

theorem not_staysInside_of_start
    : ¬ StaysInside (ProcessRange.rangeFrom 5 10 (by decide) (by decide))
        (apply (ProcessRange.rangeFrom 5 10 (by decide) (by decide))) :=
  leaves_of_pos (by decide)

end RangeGrid
