import Mathlib.Algebra.BigOperators.Group.Finset.Sigma
import Mathlib.Algebra.BigOperators.Ring.Finset
import Mathlib.Tactic.Ring
import ScalaNeko.Topology.Lemmas.Lattice

/-!
The graphs of `gridOf` are the grids, as long as the process numbers are integers.
-/

open Cells

namespace MixedGraph

-- The distance that the edges of a grid have: that of Manhattan, or that of Chebyshev.
def distance (withDiagonals : Bool) (c d : Int × Int) : Nat :=
  if withDiagonals then
    max (c.1 - d.1).natAbs (c.2 - d.2).natAbs
  else
    (c.1 - d.1).natAbs + (c.2 - d.2).natAbs

/--
A grid of processes, numbered row by row.
-/
structure IsGrid (width height startingAt : Int) (withDiagonals : Bool) (g : MixedGraph Int) : Prop where
  nodes : ∀ n, n ∈ g.nodes ↔ startingAt ≤ n ∧ n < startingAt + width * height
  adjacent : ∀ i j, i ∈ g.nodes → j ∈ g.nodes →
    (g.Adj i j ↔ distance withDiagonals (cellOf width (i - startingAt)) (cellOf width (j - startingAt)) = 1)
  loopless : ∀ i, ¬ g.Adj i i
  connected : g.Connected
  graphSize : (g.graphSize : Int)
    = (width - 1) * height + width * (height - 1)
      + if withDiagonals then 2 * ((width - 1) * (height - 1)) else 0

variable {width height startingAt : Int} {withDiagonals : Bool} {c d : Int × Int}

abbrev GridStep (width height : Int) (withDiagonals : Bool) : Int × Int → Int × Int → Prop :=
  Step withDiagonals (fun x y => 0 ≤ x && x < width && y < height) (fun x y => (x, y))

theorem gridStep_iff
    : GridStep width height withDiagonals c d
      ↔ ((d.1 = c.1 + 1 ∧ d.2 = c.2) ∨ (d.1 = c.1 ∧ d.2 = c.2 + 1)
          ∨ withDiagonals = true ∧ ((d.1 = c.1 + 1 ∧ d.2 = c.2 + 1) ∨ (d.1 = c.1 - 1 ∧ d.2 = c.2 + 1)))
        ∧ (0 ≤ d.1 ∧ d.1 < width) ∧ d.2 < height := by
  obtain ⟨x, y⟩ := d
  unfold GridStep Step
  simp only [mem_moves, Bool.and_eq_true, decide_eq_true_eq, Prod.mk.injEq]
  constructor
  . rintro ⟨m, hm, hkeep, rfl, rfl⟩
    refine ⟨?_, hkeep⟩
    rcases hm with rfl | rfl | ⟨hdiagonals, rfl | rfl⟩
    . exact .inl ⟨rfl, Int.add_zero _⟩
    . exact .inr (.inl ⟨Int.add_zero _, rfl⟩)
    . exact .inr (.inr ⟨hdiagonals, .inl ⟨rfl, rfl⟩⟩)
    . exact .inr (.inr ⟨hdiagonals, .inr ⟨rfl, rfl⟩⟩)
  . rintro ⟨hmove, hkeep⟩
    rcases hmove with ⟨rfl, rfl⟩ | ⟨rfl, rfl⟩ | ⟨hdiagonals, ⟨rfl, rfl⟩ | ⟨rfl, rfl⟩⟩
    . exact ⟨(1, 0), .inl rfl, by simpa using hkeep, rfl, (Int.add_zero _).symm⟩
    . exact ⟨(0, 1), .inr (.inl rfl), by simpa using hkeep, (Int.add_zero _).symm, rfl⟩
    . exact ⟨(1, 1), .inr (.inr ⟨hdiagonals, .inl rfl⟩), hkeep, rfl, rfl⟩
    . exact ⟨(-1, 1), .inr (.inr ⟨hdiagonals, .inr rfl⟩), hkeep, rfl, rfl⟩

theorem inside_gridStep (hc : Inside width height c) (h : GridStep width height withDiagonals c d)
    : Inside width height d := by
  rw [gridStep_iff] at h
  unfold Inside at hc ⊢
  omega

theorem distance_eq_one_iff (hc : Inside width height c) (hd : Inside width height d)
    : GridStep width height withDiagonals c d ∨ GridStep width height withDiagonals d c
      ↔ distance withDiagonals c d = 1 := by
  rw [gridStep_iff, gridStep_iff]
  unfold Inside at hc hd
  unfold distance
  cases withDiagonals with
  | false =>
    simp only [Bool.false_eq_true, false_and, or_false, if_false]
    omega
  | true =>
    simp only [true_and, if_true]
    omega

-- A cell that is not alone has a cell beside it or above or below it.
theorem exists_gridStep (hsize : width * height ≠ 1) (hc : Inside width height c)
    : ∃ d, Inside width height d
      ∧ (GridStep width height withDiagonals c d ∨ GridStep width height withDiagonals d c) := by
  obtain ⟨x, y⟩ := c
  have hmove : ∀ dx dy, Inside width height (x + dx, y + dy) → dx.natAbs + dy.natAbs = 1 →
      ∃ d, Inside width height d
        ∧ (GridStep width height withDiagonals (x, y) d ∨ GridStep width height withDiagonals d (x, y)) := by
    intro dx dy hd hone
    refine ⟨_, hd, (distance_eq_one_iff hc hd).mpr ?_⟩
    unfold distance
    cases withDiagonals with
    | false =>
      rw [if_neg Bool.false_ne_true]
      omega
    | true =>
      rw [if_pos rfl]
      omega
  unfold Inside at hc hmove
  by_cases hright : x + 1 < width
  . exact hmove 1 0 (by omega) rfl
  by_cases hleft : 0 < x
  . exact hmove (-1) 0 (by omega) rfl
  by_cases habove : y + 1 < height
  . exact hmove 0 1 (by omega) rfl
  by_cases hbelow : 0 < y
  . exact hmove 0 (-1) (by omega) rfl
  exfalso
  have hwidth : width = 1 := by omega
  have hheight : height = 1 := by omega
  rw [hwidth, hheight] at hsize
  exact hsize rfl

theorem index_lt_of_gridStep (hc : Inside width height c) (h : GridStep width height withDiagonals c d)
    : index width c < index width d := by
  have hd := inside_gridStep hc h
  rw [gridStep_iff] at h
  unfold Inside at hc hd
  unfold index
  rcases h.1 with ⟨hx, hy⟩ | ⟨hx, hy⟩ | ⟨-, ⟨hx, hy⟩ | ⟨hx, hy⟩⟩
  . rw [hx, hy]
    omega
  . rw [hx, hy, Int.add_mul]
    omega
  . rw [hx, hy, Int.add_mul]
    omega
  . rw [hx, hy, Int.add_mul]
    omega

section Size

-- The cells that an edge starts from in the direction `m`.
def gridStarts (width height : Int) (m : Int × Int) : Finset (Int × Int) :=
  ((Int.range 0 width).toFinset ×ˢ (Int.range 0 height).toFinset).filter fun c =>
    (0 ≤ c.1 + m.1 ∧ c.1 + m.1 < width) ∧ c.2 + m.2 < height

-- The ends of each edge, in the order in which the edge has been made.
def gridSteps (width height : Int) (withDiagonals : Bool) : Finset ((Int × Int) × Int × Int) :=
  ((moves withDiagonals).toFinset.sigma (gridStarts width height)).image fun p =>
    (p.2, p.2.1 + p.1.1, p.2.2 + p.1.2)

variable {m : Int × Int}

theorem mem_gridStarts
    : c ∈ gridStarts width height m
      ↔ Inside width height c ∧ (0 ≤ c.1 + m.1 ∧ c.1 + m.1 < width) ∧ c.2 + m.2 < height := by
  rw [gridStarts, Finset.mem_filter, Finset.mem_product, List.mem_toFinset, List.mem_toFinset, Int.mem_range_iff,
    Int.mem_range_iff]
  rfl

theorem mem_gridSteps
    : (c, d) ∈ gridSteps width height withDiagonals
      ↔ Inside width height c ∧ GridStep width height withDiagonals c d := by
  unfold gridSteps GridStep Step
  simp only [Finset.mem_image, Finset.mem_sigma, List.mem_toFinset, mem_gridStarts, Prod.mk.injEq,
    Bool.and_eq_true, decide_eq_true_eq]
  constructor
  . rintro ⟨⟨m, c⟩, ⟨hm, hc, hkeep⟩, rfl, rfl⟩
    exact ⟨hc, m, hm, hkeep, rfl⟩
  . rintro ⟨hc, m, hm, hkeep, rfl⟩
    exact ⟨⟨m, c⟩, ⟨hm, hc, hkeep⟩, rfl, rfl⟩

theorem card_gridSteps
    : (gridSteps width height withDiagonals).card
      = ((moves withDiagonals).toFinset.sigma (gridStarts width height)).card := by
  apply Finset.card_image_of_injective
  rintro ⟨⟨dx, dy⟩, x, y⟩ ⟨⟨dx', dy'⟩, x', y'⟩ heq
  simp only [Prod.mk.injEq] at heq
  obtain ⟨⟨rfl, rfl⟩, hx, hy⟩ := heq
  rw [Int.add_left_cancel hx, Int.add_left_cancel hy]

theorem card_gridStarts (hwidth : 1 ≤ width) (hheight : 1 ≤ height) (hm : m ∈ moves withDiagonals)
    : ((gridStarts width height m).card : Int) = (width - m.1.natAbs) * (height - m.2) := by
  have hm : (-1 ≤ m.1 ∧ m.1 ≤ 1) ∧ 0 ≤ m.2 ∧ m.2 ≤ 1 := by
    rw [mem_moves] at hm
    rcases hm with rfl | rfl | ⟨-, rfl | rfl⟩
    all_goals decide
  rw [card_moved hm.1 hm.2.1 (fun _ => mem_gridStarts), Nat.cast_mul, Int.toNat_of_nonneg (by omega),
    Int.toNat_of_nonneg (by omega)]

theorem graphSize_gridOf (hwidth : 1 ≤ width) (hheight : 1 ≤ height) (hlo : -2 ^ 31 ≤ startingAt)
    (hhi : startingAt + width * height ≤ 2 ^ 31)
    : ((gridOf width height startingAt withDiagonals).graphSize : Int)
      = (width - 1) * height + width * (height - 1)
        + if withDiagonals then 2 * ((width - 1) * (height - 1)) else 0 := by
  have hstarts : ∀ m, m ∈ (moves withDiagonals).toFinset →
      ((gridStarts width height m).card : Int) = (width - m.1.natAbs) * (height - m.2) :=
    fun m hm => card_gridStarts hwidth hheight (List.mem_toFinset.mp hm)
  rw [gridOf, graphSize_latticeOf hlo hhi (fun _ _ => inside_gridStep) (fun _ _ => index_lt_of_gridStep)
    (fun _ _ => mem_gridSteps), card_gridSteps, Finset.card_sigma, Nat.cast_sum, Finset.sum_congr rfl hstarts]
  cases withDiagonals with
  | false =>
    rw [List.sum_toFinset _ (show (moves false).Nodup by decide), if_neg Bool.false_ne_true]
    show (width - 1) * (height - 0) + ((width - 0) * (height - 1) + 0) = _
    ring
  | true =>
    rw [List.sum_toFinset _ (show (moves true).Nodup by decide), if_pos rfl]
    show (width - 1) * (height - 0) + ((width - 0) * (height - 1)
      + ((width - 1) * (height - 1) + ((width - 1) * (height - 1) + 0))) = _
    ring

end Size

theorem mem_gridOf (hwidth : 1 ≤ width) (hheight : 1 ≤ height) (hlo : -2 ^ 31 ≤ startingAt)
    (hhi : startingAt + width * height ≤ 2 ^ 31)
    (hend : startingAt + width * height < 2 ^ 31 ∨ width * height ≠ 1) (n : Int)
    : n ∈ (gridOf width height startingAt withDiagonals).nodes
      ↔ startingAt ≤ n ∧ n < startingAt + width * height := by
  apply mem_latticeOf hlo hhi (by omega) (fun _ _ => inside_gridStep)
  . exact hend.imp_right (fun hsize c hc => exists_gridStep hsize hc)
  . exact Int.mul_nonneg (by omega) (by omega)

theorem distance_self (c : Int × Int) : distance withDiagonals c c = 0 := by
  unfold distance
  cases withDiagonals with
  | false =>
    rw [if_neg Bool.false_ne_true]
    omega
  | true =>
    rw [if_pos rfl]
    omega

-- The processes are connected through the first one, row by row.
theorem connected_gridOf (hwidth : 1 ≤ width) (hheight : 1 ≤ height) (hlo : -2 ^ 31 ≤ startingAt)
    (hhi : startingAt + width * height ≤ 2 ^ 31)
    (hend : startingAt + width * height < 2 ^ 31 ∨ width * height ≠ 1)
    : (gridOf width height startingAt withDiagonals).Connected := by
  apply connected_of_rank startingAt (fun n => (n - startingAt).toNat)
  intro n hn hne
  rw [mem_gridOf hwidth hheight hlo hhi hend] at hn
  have hcell : Inside width height (cellOf width (n - startingAt)) :=
    inside_cellOf (by omega) (by omega) (by omega)
  have hindex := index_cellOf width (n - startingAt)
  generalize cellOf width (n - startingAt) = c at hcell hindex
  have hback : ∀ d, GridStep width height withDiagonals d c → Inside width height d →
      ∃ b, (gridOf width height startingAt withDiagonals).Adj n b
        ∧ (b - startingAt).toNat < (n - startingAt).toNat := by
    intro d hstep hd
    have hlt := index_lt_of_gridStep hd hstep
    have hnonneg := hd.index_nonneg
    refine ⟨startingAt + index width d, ?_, by omega⟩
    exact (adj_latticeOf hlo hhi (fun _ _ => inside_gridStep)).mpr
      ⟨c, d, ⟨hcell, hd⟩, .inr hstep, by omega, rfl⟩
  unfold Inside at hcell hback
  by_cases hx : 0 < c.1
  . apply hback (c.1 - 1, c.2)
    . rw [gridStep_iff]
      omega
    . dsimp only
      omega
  . by_cases hy : 0 < c.2
    . apply hback (c.1, c.2 - 1)
      . rw [gridStep_iff]
        omega
      . dsimp only
        omega
    . have hzero : c.2 = 0 := by omega
      rw [index, hzero, Int.zero_mul] at hindex
      omega

theorem isGrid_gridOf (hwidth : 1 ≤ width) (hheight : 1 ≤ height) (hlo : -2 ^ 31 ≤ startingAt)
    (hhi : startingAt + width * height ≤ 2 ^ 31)
    (hend : startingAt + width * height < 2 ^ 31 ∨ width * height ≠ 1)
    : IsGrid width height startingAt withDiagonals (gridOf width height startingAt withDiagonals) where
  nodes := mem_gridOf hwidth hheight hlo hhi hend
  adjacent := by
    intro i j hi hj
    rw [mem_gridOf hwidth hheight hlo hhi hend] at hi hj
    rw [gridOf, adj_latticeOf_cells hlo hhi (by omega) (fun _ _ => inside_gridStep) hi hj]
    apply distance_eq_one_iff
    . exact inside_cellOf (by omega) (by omega) (by omega)
    . exact inside_cellOf (by omega) (by omega) (by omega)
  loopless := by
    intro i hloop
    obtain ⟨c, d, ⟨hc, hd⟩, hstep, rfl, heq⟩ :=
      (adj_latticeOf hlo hhi (fun _ _ => inside_gridStep)).mp hloop
    obtain rfl := hc.index_inj hd (Int.add_left_cancel heq)
    have hone := (distance_eq_one_iff hc hd).mp hstep
    rw [distance_self] at hone
    cases hone
  connected := connected_gridOf hwidth hheight hlo hhi hend
  graphSize := graphSize_gridOf hwidth hheight hlo hhi

/--
The last process number has to be an integer. If it is the largest one, there are no listed nodes.
-/
theorem isGrid_gridOf_iff (hwidth : 1 ≤ width) (hheight : 1 ≤ height)
    (hstart : -2 ^ 31 ≤ startingAt ∧ startingAt < 2 ^ 31)
    : IsGrid width height startingAt withDiagonals (gridOf width height startingAt withDiagonals)
      ↔ startingAt + width * height < 2 ^ 31
        ∨ startingAt + width * height = 2 ^ 31 ∧ width * height ≠ 1 := by
  constructor
  . intro h
    by_contra hend
    rw [not_or, Int.not_lt, not_and, not_ne_iff] at hend
    rcases Int.lt_or_eq_of_le hend.1 with hbig | heq
    . have hmem := (h.nodes (2 ^ 31)).mpr ⟨by omega, hbig⟩
      exact absurd (lt_of_mem_latticeOf hmem) (Int.lt_irrefl _)
    . have hsize := hend.2 heq.symm
      have hmem := (h.nodes startingAt).mpr ⟨Int.le_refl _, by omega⟩
      rcases mem_nodes_graphFrom.mp hmem with hlisted | ⟨b, hb⟩
      . have := ((mem_range_latticeOf hstart.1 (by omega) (by omega)).mp hlisted).1
        omega
      -- the only cell has no edge
      . obtain ⟨c, d, ⟨hc, hd⟩, hstep, -, -⟩ :=
          (adj_latticeOf hstart.1 (by omega) (fun _ _ => inside_gridStep)).mp hb
        have hone := (distance_eq_one_iff hc hd).mp hstep
        have hsame : c = d := by
          apply hc.index_inj hd
          have := hc.index_nonneg
          have := hc.index_lt
          have := hd.index_nonneg
          have := hd.index_lt
          omega
        rw [hsame, distance_self] at hone
        cases hone
  . rintro (hlt | ⟨heq, hsize⟩)
    . exact isGrid_gridOf hwidth hheight hstart.1 (by omega) (.inl hlt)
    . exact isGrid_gridOf hwidth hheight hstart.1 (by omega) (.inr hsize)

theorem isGrid_gridOf_iff_three : IsGrid 3 3 5 true (gridOf 3 3 5 true) :=
  (isGrid_gridOf_iff (by decide) (by decide) (by decide)).mpr (by decide)

theorem not_isGrid_of_overflow : ¬ IsGrid 1 2 (2 ^ 31 - 1) false (gridOf 1 2 (2 ^ 31 - 1) false) := by
  intro h
  have hmem := (h.nodes (2 ^ 31)).mpr (by decide)
  exact absurd (lt_of_mem_latticeOf hmem) (Int.lt_irrefl _)

end MixedGraph
