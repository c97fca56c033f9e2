import Mathlib.Data.Int.ModEq
import ScalaNeko.Topology.Lemmas.Lattice

/-!
The graphs of `torusOf` are the tori, but for the diagonals that go to the left from the first column.
-/

open Cells

namespace MixedGraph

-- The differences between the coordinates of processes that are next to each other.
def offsets (withDiagonals : Bool) : List (Int × Int) :=
  [(1, 0), (-1, 0), (0, 1), (0, -1)]
    ++ if withDiagonals then [(1, 1), (1, -1), (-1, 1), (-1, -1)] else []

def Differ (width height : Int) (c d m : Int × Int) : Prop :=
  d.1 - c.1 ≡ m.1 [ZMOD width] ∧ d.2 - c.2 ≡ m.2 [ZMOD height]

/--
A torus of processes, numbered row by row.
-/
structure IsTorus (width height startingAt : Int) (withDiagonals : Bool) (g : MixedGraph Int) : Prop where
  nodes : ∀ n, n ∈ g.nodes ↔ startingAt ≤ n ∧ n < startingAt + width * height
  adjacent : ∀ i j, i ∈ g.nodes → j ∈ g.nodes →
    (g.Adj i j ↔ ∃ m, m ∈ offsets withDiagonals
      ∧ Differ width height (cellOf width (i - startingAt)) (cellOf width (j - startingAt)) m)
  degree : ∀ i, i ∈ g.nodes → (g.neighbors i).card = if withDiagonals then 8 else 4

variable {width height startingAt : Int} {withDiagonals : Bool} {c d m : Int × Int}

theorem differ_symm : Differ width height d c m ↔ Differ width height c d (-m.1, -m.2) := by
  have hneg : ∀ n a b k : Int, a - b ≡ k [ZMOD n] ↔ b - a ≡ -k [ZMOD n] := by
    intro n a b k
    constructor
    . intro h
      rw [← Int.neg_sub]
      exact h.neg
    . intro h
      rw [← Int.neg_sub, ← Int.neg_neg k]
      exact h.neg
  unfold Differ
  rw [hneg width, hneg height]

-- The cell at an offset of another one.
def translate (width height : Int) (c m : Int × Int) : Int × Int :=
  ((c.1 + m.1) % width, (c.2 + m.2) % height)

theorem inside_translate (hwidth : 0 < width) (hheight : 0 < height)
    : Inside width height (translate width height c m) :=
  ⟨⟨Int.emod_nonneg _ (by omega), Int.emod_lt_of_pos _ hwidth⟩, Int.emod_nonneg _ (by omega),
    Int.emod_lt_of_pos _ hheight⟩

theorem differ_iff (hd : Inside width height d)
    : Differ width height c d m ↔ d = translate width height c m := by
  have hmod : ∀ n a b k : Int, 0 ≤ a → a < n → (a - b ≡ k [ZMOD n] ↔ a = (b + k) % n) := by
    intro n a b k hnonneg hlt
    rw [Int.modEq_iff_dvd, show k - (a - b) = b + k - a by omega, ← Int.modEq_iff_dvd, Int.ModEq,
      Int.emod_eq_of_lt hnonneg hlt]
  obtain ⟨⟨hx, hwidth⟩, hy, hheight⟩ := hd
  rw [Differ, hmod _ _ _ _ hx hwidth, hmod _ _ _ _ hy hheight, translate, Prod.ext_iff]

theorem eq_of_modEq {n a b : Int} (hn : 3 ≤ n) (ha : -1 ≤ a ∧ a ≤ 1) (hb : -1 ≤ b ∧ b ≤ 1)
    (h : a ≡ b [ZMOD n])
    : a = b := by
  have hzero := Int.eq_zero_of_abs_lt_dvd h.dvd (show |b - a| < n by
    rw [abs_lt]
    omega)
  omega

theorem mem_offsets (h : m ∈ offsets withDiagonals)
    : (-1 ≤ m.1 ∧ m.1 ≤ 1) ∧ (-1 ≤ m.2 ∧ m.2 ≤ 1) ∧ m ≠ (0, 0) := by
  revert m
  cases withDiagonals with
  | false => decide
  | true => decide

abbrev TorusStep (width height : Int) (withDiagonals : Bool) : Int × Int → Int × Int → Prop :=
  Step withDiagonals (fun x _ => 0 ≤ x) (fun x y => (x.tmod width, y.tmod height))

theorem torusStep_iff (hc : Inside width height c)
    : TorusStep width height withDiagonals c d
      ↔ ∃ m, m ∈ moves withDiagonals ∧ 0 ≤ c.1 + m.1 ∧ d = translate width height c m := by
  obtain ⟨-, hy, -⟩ := hc
  apply exists_congr
  intro m
  apply and_congr_right
  intro hm
  have hdown : 0 ≤ m.2 := by
    rw [mem_moves] at hm
    rcases hm with rfl | rfl | ⟨-, rfl | rfl⟩
    all_goals decide
  rw [decide_eq_true_eq]
  apply and_congr_right
  intro hkeep
  dsimp only
  rw [translate, Int.tmod_eq_emod_of_nonneg hkeep, Int.tmod_eq_emod_of_nonneg (by omega)]

theorem inside_torusStep (hwidth : 3 ≤ width) (hheight : 3 ≤ height) (hc : Inside width height c)
    (h : TorusStep width height withDiagonals c d)
    : Inside width height d := by
  obtain ⟨m, -, -, rfl⟩ := (torusStep_iff hc).mp h
  exact inside_translate (by omega) (by omega)

theorem torusStep_right (hc : Inside width height c)
    : TorusStep width height withDiagonals c (translate width height c (1, 0)) := by
  refine (torusStep_iff hc).mpr ⟨(1, 0), mem_moves.mpr (.inl rfl), ?_, rfl⟩
  have := hc.1.1
  dsimp only
  omega

-- Without diagonals, no step is left out.
theorem torusStep_false_iff (hc : Inside width height c) (hd : Inside width height d)
    : TorusStep width height false c d
      ↔ Differ width height c d (1, 0) ∨ Differ width height c d (0, 1) := by
  rw [torusStep_iff hc, differ_iff hd, differ_iff hd]
  simp only [mem_moves, Bool.false_eq_true, false_and, or_false]
  have := hc.1.1
  constructor
  . rintro ⟨m, rfl | rfl, -, rfl⟩
    . exact .inl rfl
    . exact .inr rfl
  . rintro (rfl | rfl)
    . exact ⟨(1, 0), .inl rfl, by dsimp only; omega, rfl⟩
    . exact ⟨(0, 1), .inr rfl, by dsimp only; omega, rfl⟩

theorem step_false_iff (hc : Inside width height c) (hd : Inside width height d)
    : TorusStep width height false c d ∨ TorusStep width height false d c
      ↔ ∃ m, m ∈ offsets false ∧ Differ width height c d m := by
  rw [torusStep_false_iff hc hd, torusStep_false_iff hd hc, differ_symm (c := c) (d := d) (m := (1, 0)),
    differ_symm (c := c) (d := d) (m := (0, 1))]
  simp only [offsets, List.mem_append, List.mem_cons, List.not_mem_nil, or_false, Bool.false_eq_true,
    if_false, exists_eq_or_imp, exists_eq_left, Int.neg_zero]
  tauto

theorem translate_inj (hwidth : 3 ≤ width) (hheight : 3 ≤ height) {m' : Int × Int}
    (hm : m ∈ offsets withDiagonals) (hm' : m' ∈ offsets withDiagonals)
    (heq : translate width height c m = translate width height c m')
    : m = m' := by
  obtain ⟨hx, hy, -⟩ := mem_offsets hm
  obtain ⟨hx', hy', -⟩ := mem_offsets hm'
  have hfirst : c.1 + m.1 ≡ c.1 + m'.1 [ZMOD width] := congrArg Prod.fst heq
  have hsecond : c.2 + m.2 ≡ c.2 + m'.2 [ZMOD height] := congrArg Prod.snd heq
  apply Prod.ext
  . exact eq_of_modEq hwidth hx hx' (hfirst.add_left_cancel' _)
  . exact eq_of_modEq hheight hy hy' (hsecond.add_left_cancel' _)

theorem translate_ne (hwidth : 3 ≤ width) (hheight : 3 ≤ height) (hc : Inside width height c)
    (hm : m ∈ offsets withDiagonals)
    : translate width height c m ≠ c := by
  obtain ⟨hx, hy, hne⟩ := mem_offsets hm
  intro heq
  obtain ⟨hfirst, hsecond⟩ := (differ_iff hc).mpr heq.symm
  rw [Int.sub_self] at hfirst hsecond
  apply hne
  apply Prod.ext
  . exact (eq_of_modEq hwidth (by omega) hx hfirst).symm
  . exact (eq_of_modEq hheight (by omega) hy hsecond).symm

-- The process at the offset `m` from another.
def shifted (width height startingAt i : Int) (m : Int × Int) : Int :=
  startingAt + index width (translate width height (cellOf width (i - startingAt)) m)

theorem neighbors_of_adjacent {g : MixedGraph Int} (hwidth : 3 ≤ width) (hheight : 3 ≤ height)
    (hnodes : ∀ n, n ∈ g.nodes ↔ startingAt ≤ n ∧ n < startingAt + width * height)
    (hadjacent : ∀ i j, i ∈ g.nodes → j ∈ g.nodes →
      (g.Adj i j ↔ ∃ m, m ∈ offsets withDiagonals
        ∧ Differ width height (cellOf width (i - startingAt)) (cellOf width (j - startingAt)) m))
    {i : Int} (hi : i ∈ g.nodes)
    : g.neighbors i = (offsets withDiagonals).toFinset.image (shifted width height startingAt i) := by
  have hcell : Inside width height (cellOf width (i - startingAt)) := by
    rw [hnodes] at hi
    exact inside_cellOf (by omega) (by omega) (by omega)
  have hinside : ∀ m, Inside width height (translate width height (cellOf width (i - startingAt)) m) :=
    fun _ => inside_translate (by omega) (by omega)
  unfold shifted
  ext j
  rw [mem_neighbors, Finset.mem_image]
  simp only [List.mem_toFinset]
  constructor
  . rintro ⟨-, hadj⟩
    have hj := hadj.mem_nodes.2
    obtain ⟨m, hm, hdiffer⟩ := (hadjacent i j hi hj).mp hadj
    rw [hnodes] at hj
    refine ⟨m, hm, ?_⟩
    rw [← (differ_iff (inside_cellOf (by omega) (by omega) (by omega))).mp hdiffer, index_cellOf]
    omega
  . rintro ⟨m, hm, rfl⟩
    have hj : startingAt + index width (translate width height (cellOf width (i - startingAt)) m)
        ∈ g.nodes := by
      rw [hnodes]
      have := (hinside m).index_nonneg
      have := (hinside m).index_lt
      omega
    constructor
    . intro heq
      apply translate_ne hwidth hheight hcell hm
      apply (hinside m).index_inj hcell
      rw [index_cellOf]
      omega
    . apply (hadjacent i _ hi hj).mpr
      refine ⟨m, hm, ?_⟩
      rw [add_sub_cancel_left, (hinside m).cellOf_index]
      exact (differ_iff (hinside m)).mpr rfl

theorem card_offsets : (offsets withDiagonals).toFinset.card = if withDiagonals then 8 else 4 := by
  cases withDiagonals with
  | false => decide
  | true => decide

-- In a torus, the processes next to one are as many as there are offsets.
theorem degree_of_adjacent {g : MixedGraph Int} (hwidth : 3 ≤ width) (hheight : 3 ≤ height)
    (hnodes : ∀ n, n ∈ g.nodes ↔ startingAt ≤ n ∧ n < startingAt + width * height)
    (hadjacent : ∀ i j, i ∈ g.nodes → j ∈ g.nodes →
      (g.Adj i j ↔ ∃ m, m ∈ offsets withDiagonals
        ∧ Differ width height (cellOf width (i - startingAt)) (cellOf width (j - startingAt)) m))
    {i : Int} (hi : i ∈ g.nodes)
    : (g.neighbors i).card = if withDiagonals then 8 else 4 := by
  have hinside : ∀ m, Inside width height (translate width height (cellOf width (i - startingAt)) m) :=
    fun _ => inside_translate (by omega) (by omega)
  rw [neighbors_of_adjacent hwidth hheight hnodes hadjacent hi, Finset.card_image_of_injOn, card_offsets]
  intro m hm m' hm' heq
  rw [Finset.mem_coe, List.mem_toFinset] at hm hm'
  exact translate_inj hwidth hheight hm hm' ((hinside m).index_inj (hinside m') (Int.add_left_cancel heq))

theorem mem_torusOf (hwidth : 3 ≤ width) (hheight : 3 ≤ height) (hlo : -2 ^ 31 ≤ startingAt)
    (hhi : startingAt + width * height ≤ 2 ^ 31) (n : Int)
    : n ∈ (torusOf width height startingAt withDiagonals).nodes
      ↔ startingAt ≤ n ∧ n < startingAt + width * height := by
  apply mem_latticeOf hlo hhi (by omega) (fun _ _ => inside_torusStep hwidth hheight)
  . right
    intro c hc
    exact ⟨_, inside_translate (by omega) (by omega), .inl (torusStep_right hc)⟩
  . exact Int.mul_nonneg (by omega) (by omega)

theorem isTorus_torusOf (hwidth : 3 ≤ width) (hheight : 3 ≤ height) (hlo : -2 ^ 31 ≤ startingAt)
    (hhi : startingAt + width * height ≤ 2 ^ 31)
    : IsTorus width height startingAt false (torusOf width height startingAt false) := by
  have hnodes := @mem_torusOf _ _ _ false hwidth hheight hlo hhi
  have hadjacent : ∀ i j, i ∈ (torusOf width height startingAt false).nodes →
      j ∈ (torusOf width height startingAt false).nodes →
      ((torusOf width height startingAt false).Adj i j ↔ ∃ m, m ∈ offsets false
        ∧ Differ width height (cellOf width (i - startingAt)) (cellOf width (j - startingAt)) m) := by
    intro i j hi hj
    rw [hnodes] at hi hj
    rw [torusOf, adj_latticeOf_cells hlo hhi (by omega) (fun _ _ => inside_torusStep hwidth hheight) hi hj]
    apply step_false_iff
    . exact inside_cellOf (by omega) (by omega) (by omega)
    . exact inside_cellOf (by omega) (by omega) (by omega)
  exact ⟨hnodes, hadjacent, fun _ => degree_of_adjacent hwidth hheight hnodes hadjacent⟩

/--
The edge from the first process to the end of the second row is missing.
-/
theorem not_adj_corner (hwidth : 3 ≤ width) (hheight : 3 ≤ height) (hlo : -2 ^ 31 ≤ startingAt)
    (hhi : startingAt + width * height ≤ 2 ^ 31)
    : ¬ (torusOf width height startingAt true).Adj startingAt (startingAt + index width (width - 1, 1)) := by
  have hcorner : Inside width height (width - 1, 1) := by
    unfold Inside
    omega
  have hfirst : Inside width height (0, 0) := by
    unfold Inside
    omega
  intro hadj
  obtain ⟨c, d, ⟨hc, hd⟩, hstep, hstart, hother⟩ :=
    (adj_latticeOf hlo hhi (fun _ _ => inside_torusStep hwidth hheight)).mp hadj
  have hzero : index width (0, 0) = 0 := by
    rw [index, Int.zero_mul]
    rfl
  obtain rfl : c = (0, 0) := hc.index_inj hfirst (by omega)
  obtain rfl : d = (width - 1, 1) := hd.index_inj hcorner (Int.add_left_cancel hother).symm
  rcases hstep with hstep | hstep
  -- from the first column, no step goes to the left
  . obtain ⟨m, hm, hkeep, heq⟩ := (torusStep_iff hc).mp hstep
    have hx := congrArg Prod.fst heq
    dsimp only [translate] at hx hkeep
    rw [mem_moves] at hm
    rcases hm with rfl | rfl | ⟨-, rfl | rfl⟩
    . rw [Int.emod_eq_of_lt (by omega) (by omega)] at hx
      omega
    . rw [Int.emod_eq_of_lt (by omega) (by omega)] at hx
      omega
    . rw [Int.emod_eq_of_lt (by omega) (by omega)] at hx
      omega
    . omega
  -- no step goes upwards
  . obtain ⟨m, hm, -, heq⟩ := (torusStep_iff hd).mp hstep
    have hy := congrArg Prod.snd heq
    dsimp only [translate] at hy
    rw [mem_moves] at hm
    have hdown : 0 ≤ m.2 ∧ m.2 ≤ 1 := by
      rcases hm with rfl | rfl | ⟨-, rfl | rfl⟩
      all_goals decide
    rw [Int.emod_eq_of_lt (by omega) (by omega)] at hy
    omega

/--
The filter `0 <= x + dx` of the grid has no place in a torus.
-/
theorem isTorus_torusOf_iff (hwidth : 3 ≤ width) (hheight : 3 ≤ height)
    (hstart : -2 ^ 31 ≤ startingAt ∧ startingAt < 2 ^ 31)
    : IsTorus width height startingAt withDiagonals (torusOf width height startingAt withDiagonals)
      ↔ withDiagonals = false ∧ startingAt + width * height ≤ 2 ^ 31 := by
  constructor
  . intro h
    have hhi : startingAt + width * height ≤ 2 ^ 31 := by
      by_contra hbig
      have hmem := (h.nodes (2 ^ 31)).mpr ⟨by omega, by omega⟩
      exact absurd (lt_of_mem_latticeOf hmem) (Int.lt_irrefl _)
    refine ⟨?_, hhi⟩
    by_contra hdiagonals
    rw [Bool.not_eq_false] at hdiagonals
    subst hdiagonals
    have hcorner : Inside width height (width - 1, 1) := by
      unfold Inside
      omega
    have hnonneg := hcorner.index_nonneg
    have hlt := hcorner.index_lt
    apply not_adj_corner hwidth hheight hstart.1 hhi
    refine (h.adjacent _ _ ((h.nodes _).mpr (by omega)) ((h.nodes _).mpr (by omega))).mpr
      ⟨(-1, 1), by decide, ?_⟩
    rw [add_sub_cancel_left, hcorner.cellOf_index, Int.sub_self, differ_iff hcorner]
    rw [translate, cellOf, Int.zero_emod, Int.zero_ediv]
    apply Prod.ext
    . show width - 1 = (0 + -1) % width
      rw [← Int.add_emod_right, Int.emod_eq_of_lt (by omega) (by omega)]
      omega
    . exact (Int.emod_eq_of_lt (by omega) (by omega)).symm
  . rintro ⟨rfl, hhi⟩
    exact isTorus_torusOf hwidth hheight hstart.1 hhi

theorem isTorus_torusOf_iff_three : IsTorus 3 3 0 false (torusOf 3 3 0 false) :=
  (isTorus_torusOf_iff (by decide) (by decide) (by decide)).mpr ⟨rfl, by decide⟩

theorem not_isTorus_of_diagonals : ¬ IsTorus 3 3 0 true (torusOf 3 3 0 true) := by
  intro h
  apply not_adj_corner (show (3 : Int) ≤ 3 by decide) (show (3 : Int) ≤ 3 by decide)
    (show (-2 ^ 31 : Int) ≤ 0 by decide) (by decide)
  exact (h.adjacent 0 5 ((h.nodes 0).mpr (by decide)) ((h.nodes 5).mpr (by decide))).mpr
    ⟨(-1, 1), by decide, by decide, by decide⟩

end MixedGraph
