import ScalaNeko.Lib.Cells
import ScalaNeko.Topology.Impl.Lattice
import ScalaNeko.Topology.Lemmas.Cycle

/-!
The nodes and edges of a graph whose nodes are the cells of a rectangle.
-/

open Cells

namespace MixedGraph

variable {width height startingAt : Int} {withDiagonals : Bool} {keep : Int → Int → Bool}
variable {wrap : Int → Int → Int × Int} {c d : Int × Int} {a b n : Int}

theorem numberAt_eq (hlo : -2 ^ 31 ≤ startingAt) (hhi : startingAt + width * height ≤ 2 ^ 31)
    (hc : Inside width height c)
    : numberAt width startingAt c.1 c.2 = startingAt + index width c := by
  have hnonneg := hc.index_nonneg
  have hlt := hc.index_lt
  rw [numberAt, int32_add, Int.add_assoc]
  apply int32_eq
  . exact Int.le_trans hlo (Int.le_add_of_nonneg_right hnonneg)
  . exact Int.lt_of_lt_of_le (Int.add_lt_add_left hlt startingAt) hhi

theorem mem_moves {m : Int × Int}
    : m ∈ moves withDiagonals
      ↔ m = (1, 0) ∨ m = (0, 1) ∨ withDiagonals = true ∧ (m = (1, 1) ∨ m = (-1, 1)) := by
  cases withDiagonals with
  | false => simp [moves]
  | true => simp [moves]

/--
The comprehension makes an edge from `c` to `d`.
-/
def Step (withDiagonals : Bool) (keep : Int → Int → Bool) (wrap : Int → Int → Int × Int)
    (c d : Int × Int) : Prop :=
  ∃ m, m ∈ moves withDiagonals ∧ keep (c.1 + m.1) (c.2 + m.2) = true ∧ d = wrap (c.1 + m.1) (c.2 + m.2)

theorem mem_edges_latticeOf {e : Edge Int}
    : e ∈ (latticeOf width height startingAt withDiagonals keep wrap).edges
      ↔ ∃ c d, (Inside width height c ∧ Step withDiagonals keep wrap c d)
        ∧ e = .undi s(numberAt width startingAt c.1 c.2, numberAt width startingAt d.1 d.2) := by
  simp only [latticeOf, graphFrom, List.mem_toFinset, List.mem_flatMap, List.mem_map, List.mem_filter,
    Int.mem_range_iff]
  constructor
  . rintro ⟨x, hx, y, hy, m, ⟨hm, hkeep⟩, rfl⟩
    exact ⟨(x, y), _, ⟨⟨hx, hy⟩, m, hm, hkeep, rfl⟩, rfl⟩
  . rintro ⟨⟨x, y⟩, d, ⟨⟨hx, hy⟩, m, hm, hkeep, rfl⟩, rfl⟩
    exact ⟨x, hx, y, hy, m, ⟨hm, hkeep⟩, rfl⟩

theorem adj_latticeOf_iff
    : (latticeOf width height startingAt withDiagonals keep wrap).Adj a b
      ↔ ∃ c d, (Inside width height c ∧ Step withDiagonals keep wrap c d)
        ∧ s(numberAt width startingAt c.1 c.2, numberAt width startingAt d.1 d.2) = s(a, b) := by
  have hsucc : ∀ a b, (latticeOf width height startingAt withDiagonals keep wrap).Succ a b
      ↔ ∃ c d, (Inside width height c ∧ Step withDiagonals keep wrap c d)
        ∧ s(numberAt width startingAt c.1 c.2, numberAt width startingAt d.1 d.2) = s(a, b) := by
    intro a b
    constructor
    . rintro ⟨e, he, hjoins⟩
      obtain ⟨c, d, hcd, rfl⟩ := mem_edges_latticeOf.mp he
      exact ⟨c, d, hcd, hjoins⟩
    . rintro ⟨c, d, hcd, heq⟩
      exact ⟨_, mem_edges_latticeOf.mpr ⟨c, d, hcd, rfl⟩, heq⟩
  rw [Adj, hsucc, hsucc, Sym2.eq_swap (a := b), or_self]

theorem adj_latticeOf (hlo : -2 ^ 31 ≤ startingAt) (hhi : startingAt + width * height ≤ 2 ^ 31)
    (hinside : ∀ c d, Inside width height c → Step withDiagonals keep wrap c d → Inside width height d)
    : (latticeOf width height startingAt withDiagonals keep wrap).Adj a b
      ↔ ∃ c d, (Inside width height c ∧ Inside width height d)
        ∧ (Step withDiagonals keep wrap c d ∨ Step withDiagonals keep wrap d c)
        ∧ a = startingAt + index width c ∧ b = startingAt + index width d := by
  rw [adj_latticeOf_iff]
  constructor
  . rintro ⟨c, d, ⟨hc, hstep⟩, heq⟩
    have hd := hinside c d hc hstep
    rw [numberAt_eq hlo hhi hc, numberAt_eq hlo hhi hd] at heq
    rcases Sym2.eq_iff.mp heq with ⟨rfl, rfl⟩ | ⟨rfl, rfl⟩
    . exact ⟨c, d, ⟨hc, hd⟩, .inl hstep, rfl, rfl⟩
    . exact ⟨d, c, ⟨hd, hc⟩, .inr hstep, rfl, rfl⟩
  . rintro ⟨c, d, ⟨hc, hd⟩, hstep | hstep, rfl, rfl⟩
    . exact ⟨c, d, ⟨hc, hstep⟩, by rw [numberAt_eq hlo hhi hc, numberAt_eq hlo hhi hd]⟩
    . refine ⟨d, c, ⟨hd, hstep⟩, ?_⟩
      rw [numberAt_eq hlo hhi hc, numberAt_eq hlo hhi hd]
      exact Sym2.eq_swap

-- No process number leaves the integers.
theorem lt_of_mem_latticeOf (h : n ∈ (latticeOf width height startingAt withDiagonals keep wrap).nodes)
    : n < 2 ^ 31 := by
  rcases mem_nodes_graphFrom.mp h with h | ⟨b, h⟩
  . exact Int.lt_trans (Int.mem_range_iff.mp h).2 (int32_lt _)
  . obtain ⟨c, d, -, heq⟩ := adj_latticeOf_iff.mp h
    rcases Sym2.eq_iff.mp heq with ⟨rfl, -⟩ | ⟨-, rfl⟩
    . exact int32_lt _
    . exact int32_lt _

/--
The listed nodes are those of the rectangle, if its end is an integer; or else there are none.
-/
theorem mem_range_latticeOf (hlo : -2 ^ 31 ≤ startingAt) (hhi : startingAt + width * height ≤ 2 ^ 31)
    (hpos : 0 ≤ width * height)
    : n ∈ Int.range startingAt (int32 (startingAt + int32 (height * width)))
      ↔ startingAt + width * height < 2 ^ 31 ∧ startingAt ≤ n ∧ n < startingAt + width * height := by
  have hend : int32 (startingAt + int32 (height * width)) = int32 (startingAt + width * height) := by
    rw [Int.mul_comm height]
    generalize width * height = size
    unfold int32
    omega
  rw [Int.mem_range_iff, hend]
  generalize width * height = size at hhi hpos
  unfold int32
  omega

theorem mem_latticeOf (hlo : -2 ^ 31 ≤ startingAt) (hhi : startingAt + width * height ≤ 2 ^ 31)
    (hpos : 0 < width)
    (hinside : ∀ c d, Inside width height c → Step withDiagonals keep wrap c d → Inside width height d)
    (hend : startingAt + width * height < 2 ^ 31 ∨ ∀ c, Inside width height c →
      ∃ d, Inside width height d ∧ (Step withDiagonals keep wrap c d ∨ Step withDiagonals keep wrap d c))
    (hsize : 0 ≤ width * height)
    : n ∈ (latticeOf width height startingAt withDiagonals keep wrap).nodes
      ↔ startingAt ≤ n ∧ n < startingAt + width * height := by
  constructor
  . intro h
    rcases mem_nodes_graphFrom.mp h with h | ⟨b, h⟩
    . exact ((mem_range_latticeOf hlo hhi hsize).mp h).2
    . obtain ⟨c, d, ⟨hc, -⟩, -, rfl, -⟩ := (adj_latticeOf hlo hhi hinside).mp h
      have := hc.index_nonneg
      have := hc.index_lt
      omega
  . intro hn
    rcases hend with hend | hend
    . exact mem_nodes_graphFrom.mpr (.inl ((mem_range_latticeOf hlo hhi hsize).mpr ⟨hend, hn⟩))
    . have hcell := inside_cellOf hpos (show 0 ≤ n - startingAt by omega)
        (show n - startingAt < width * height by omega)
      obtain ⟨d, hd, hstep⟩ := hend _ hcell
      refine mem_nodes_graphFrom.mpr (.inr ⟨startingAt + index width d, ?_⟩)
      refine (adj_latticeOf hlo hhi hinside).mpr ⟨_, d, ⟨hcell, hd⟩, hstep, ?_, rfl⟩
      rw [index_cellOf]
      omega

theorem adj_latticeOf_cells (hlo : -2 ^ 31 ≤ startingAt) (hhi : startingAt + width * height ≤ 2 ^ 31)
    (hpos : 0 < width)
    (hinside : ∀ c d, Inside width height c → Step withDiagonals keep wrap c d → Inside width height d)
    (ha : startingAt ≤ a ∧ a < startingAt + width * height)
    (hb : startingAt ≤ b ∧ b < startingAt + width * height)
    : (latticeOf width height startingAt withDiagonals keep wrap).Adj a b
      ↔ Step withDiagonals keep wrap (cellOf width (a - startingAt)) (cellOf width (b - startingAt))
        ∨ Step withDiagonals keep wrap (cellOf width (b - startingAt)) (cellOf width (a - startingAt)) := by
  rw [adj_latticeOf hlo hhi hinside]
  constructor
  . rintro ⟨c, d, ⟨hc, hd⟩, hstep, rfl, rfl⟩
    rwa [add_sub_cancel_left, add_sub_cancel_left, hc.cellOf_index, hd.cellOf_index]
  . intro hstep
    refine ⟨_, _, ⟨?_, ?_⟩, hstep, ?_, ?_⟩
    . exact inside_cellOf hpos (by omega) (by omega)
    . exact inside_cellOf hpos (by omega) (by omega)
    . rw [index_cellOf]
      omega
    . rw [index_cellOf]
      omega

/--
No edge is made twice if every step goes to a cell with a higher number.
-/
theorem graphSize_latticeOf (hlo : -2 ^ 31 ≤ startingAt) (hhi : startingAt + width * height ≤ 2 ^ 31)
    (hinside : ∀ c d, Inside width height c → Step withDiagonals keep wrap c d → Inside width height d)
    (hlt : ∀ c d, Inside width height c → Step withDiagonals keep wrap c d → index width c < index width d)
    {steps : Finset ((Int × Int) × Int × Int)}
    (hsteps : ∀ c d, (c, d) ∈ steps ↔ Inside width height c ∧ Step withDiagonals keep wrap c d)
    : (latticeOf width height startingAt withDiagonals keep wrap).graphSize = steps.card := by
  have hedges : (latticeOf width height startingAt withDiagonals keep wrap).edges
      = steps.image fun p => .undi s(startingAt + index width p.1, startingAt + index width p.2) := by
    ext e
    rw [mem_edges_latticeOf, Finset.mem_image]
    constructor
    . rintro ⟨c, d, ⟨hc, hstep⟩, rfl⟩
      refine ⟨(c, d), (hsteps c d).mpr ⟨hc, hstep⟩, ?_⟩
      rw [numberAt_eq hlo hhi hc, numberAt_eq hlo hhi (hinside c d hc hstep)]
    . rintro ⟨⟨c, d⟩, hcd, rfl⟩
      obtain ⟨hc, hstep⟩ := (hsteps c d).mp hcd
      refine ⟨c, d, ⟨hc, hstep⟩, ?_⟩
      rw [numberAt_eq hlo hhi hc, numberAt_eq hlo hhi (hinside c d hc hstep)]
  rw [graphSize, hedges, Finset.card_image_of_injOn]
  rintro ⟨c, d⟩ hcd ⟨c', d'⟩ hcd' heq
  obtain ⟨hc, hstep⟩ := (hsteps c d).mp hcd
  obtain ⟨hc', hstep'⟩ := (hsteps c' d').mp hcd'
  have hup := hlt c d hc hstep
  have hup' := hlt c' d' hc' hstep'
  rcases Sym2.eq_iff.mp (Edge.undi.inj heq) with ⟨hfirst, hsecond⟩ | ⟨hfirst, hsecond⟩
  . rw [hc.index_inj hc' (Int.add_left_cancel hfirst),
      (hinside c d hc hstep).index_inj (hinside c' d' hc' hstep') (Int.add_left_cancel hsecond)]
  . dsimp only at hfirst hsecond
    omega

end MixedGraph
