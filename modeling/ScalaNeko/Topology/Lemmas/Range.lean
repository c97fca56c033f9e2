import ScalaNeko.Topology.Impl.Range

/-!
Ranges of processes, where the functions that go round one of them go, and the edges of the graphs over
it.
-/

theorem int32_eq {x : Int} (hlo : -2 ^ 31 ≤ x) (hhi : x < 2 ^ 31) : int32 x = x := by
  unfold int32
  omega

theorem int32_add (a b : Int) : int32 (int32 a + int32 b) = int32 (a + b) := by
  unfold int32
  omega

theorem int32_lt (x : Int) : int32 x < 2 ^ 31 := by
  unfold int32
  omega

namespace ProcessRange

variable {range : ProcessRange} {i : Int}

theorem mem_toList : i ∈ range.toList ↔ range.min ≤ i ∧ i < range.min + range.size :=
  Int.mem_range_iff

theorem mem_toSet : i ∈ range.toSet ↔ range.min ≤ i ∧ i < range.min + range.size := by
  rw [toSet, List.mem_toFinset, mem_toList]

theorem nodup_toList : range.toList.Nodup := by
  apply List.Nodup.map
  . intro k l hkl
    exact Int.ofNat.inj (Int.add_left_cancel hkl)
  . exact List.nodup_range

theorem length_toList : range.toList.length = range.size := by
  rw [toList, Int.range, List.length_map, List.length_range]
  omega

theorem card_toSet : range.toSet.card = range.size := by
  rw [toSet, List.toFinset_card_of_nodup nodup_toList, length_toList]

theorem mem_following (hi : i ∈ range.toSet) : range.following i ∈ range.toSet := by
  have := range.one_le
  rw [mem_toSet] at hi ⊢
  unfold following last
  split
  . omega
  . omega

theorem following_ne (htwo : 2 ≤ range.size) (hi : i ∈ range.toSet) : range.following i ≠ i := by
  rw [mem_toSet] at hi
  unfold following last
  split
  . omega
  . omega

theorem nextOf_eq (hi : i ∈ range.toSet) : range.nextOf i = range.following i := by
  have := range.one_le
  have := range.size_lt
  have := range.min_le
  have := range.last_lt
  rw [mem_toSet] at hi
  have hstep : int32 (int32 (i + 1) - range.min) = i + 1 - range.min := by
    unfold int32
    omega
  rw [nextOf, hstep, following]
  split
  . next hlast =>
    unfold last at hlast
    rw [Int.tmod_eq_of_lt (by omega) (by omega), int32_eq (by omega) (by omega)]
    omega
  . next hlast =>
    unfold last at hlast
    have hall : i + 1 - range.min = range.size := by omega
    rw [hall, Int.tmod_self, int32_eq (by omega) (by omega)]
    omega

-- The sum in `prevOf` is too large for 32 bits.
def Overflows (range : ProcessRange) (i : Int) : Prop :=
  i ∈ range.toSet ∧ 2 ^ 31 ≤ i - range.min + range.size - 1

-- What `prevOf` gives in that case.
def stray (range : ProcessRange) (i : Int) : Int :=
  int32 (range.min - (2 ^ 32 - (i - range.min + range.size - 1)) % range.size)

theorem prevOf_of_not_overflows (hi : i ∈ range.toSet) (h : ¬ range.Overflows i)
    : range.prevOf i = if range.min < i then i - 1 else range.last := by
  have := range.one_le
  have := range.min_le
  have := range.last_lt
  have hsum : ¬ 2 ^ 31 ≤ i - range.min + range.size - 1 := fun hsum => h ⟨hi, hsum⟩
  rw [mem_toSet] at hi
  have hstep : int32 (int32 (int32 (i + range.size) - 1) - range.min) = i - 1 - range.min + range.size := by
    unfold int32
    omega
  unfold prevOf last
  rw [hstep]
  split
  . next hmin =>
    rw [Int.tmod_eq_emod_of_nonneg (by omega), Int.add_emod_right,
      Int.emod_eq_of_lt (by omega) (by omega), int32_eq (by omega) (by omega)]
    omega
  . next hmin =>
    have hall : i = range.min := by omega
    rw [Int.tmod_eq_of_lt (by omega) (by omega), int32_eq (by omega) (by omega)]
    omega

theorem prevOf_of_overflows (h : range.Overflows i) : range.prevOf i = range.stray i := by
  obtain ⟨hi, hsum⟩ := h
  have := range.size_lt
  rw [mem_toSet] at hi
  have hstep : int32 (int32 (int32 (i + range.size) - 1) - range.min)
      = -(2 ^ 32 - (i - range.min + range.size - 1)) := by
    unfold int32
    omega
  rw [prevOf, hstep, Int.neg_tmod, Int.tmod_eq_emod_of_nonneg (by omega), stray]
  congr 1
  omega

-- It is never right.
theorem stray_ne (h : range.Overflows i) : range.stray i ≠ i - 1 := by
  obtain ⟨hi, hsum⟩ := h
  have := range.size_lt
  have := range.min_le
  have := range.last_lt
  rw [mem_toSet] at hi
  have hmod := Int.emod_nonneg (2 ^ 32 - (i - range.min + range.size - 1))
    (show (range.size : Int) ≠ 0 by omega)
  have hlt := Int.emod_lt_of_pos (2 ^ 32 - (i - range.min + range.size - 1))
    (show (0 : Int) < range.size by omega)
  unfold stray int32
  omega

-- No process overflows.
def Fits (range : ProcessRange) : Prop := range.size ≤ 2 ^ 30

instance (range : ProcessRange) : Decidable range.Fits := inferInstanceAs (Decidable (_ ≤ _))

theorem last_mem : range.last ∈ range.toSet := by
  have := range.one_le
  rw [mem_toSet, last]
  omega

theorem overflows_last_iff : range.Overflows range.last ↔ ¬ range.Fits := by
  unfold Overflows
  rw [and_iff_right last_mem]
  unfold last Fits
  omega

theorem Fits.not_overflows (h : range.Fits) (i : Int) : ¬ range.Overflows i := by
  rintro ⟨hi, hsum⟩
  rw [mem_toSet] at hi
  unfold Fits at h
  omega

theorem prevOf_eq (hfits : range.Fits) (hi : i ∈ range.toSet)
    : range.prevOf i = if range.min < i then i - 1 else range.last :=
  prevOf_of_not_overflows hi (hfits.not_overflows i)

theorem prevOf_last_ne (hbig : ¬ range.Fits) : range.prevOf range.last ≠ range.last - 1 := by
  have h := overflows_last_iff.mpr hbig
  rw [prevOf_of_overflows h]
  exact stray_ne h

end ProcessRange

namespace MixedGraph

variable {range : ProcessRange} {a b : Int}

theorem succ_cliqueOf : (cliqueOf range).Succ a b ↔ (a ∈ range.toSet ∧ b ∈ range.toSet) ∧ b ≠ a := by
  simp only [cliqueOf, succ_graphFrom, List.mem_flatMap, List.mem_map, List.mem_filter, decide_eq_true_eq,
    ProcessRange.toSet, List.mem_toFinset]
  constructor
  . rintro ⟨e, ⟨i, hi, j, ⟨hj, hne⟩, rfl⟩, hjoins⟩
    rcases Sym2.eq_iff.mp hjoins with ⟨rfl, rfl⟩ | ⟨rfl, rfl⟩
    . exact ⟨⟨hi, hj⟩, hne⟩
    . exact ⟨⟨hj, hi⟩, hne.symm⟩
  . rintro ⟨⟨ha, hb⟩, hne⟩
    exact ⟨_, ⟨a, ha, b, ⟨hb, hne⟩, rfl⟩, rfl⟩

theorem succ_ringOf
    : (ringOf range).Succ a b
      ↔ (a ∈ range.toSet ∧ b = range.following a) ∨ (b ∈ range.toSet ∧ a = range.following b) := by
  simp only [ringOf, succ_graphFrom, List.mem_map, ProcessRange.toSet, List.mem_toFinset]
  constructor
  . rintro ⟨e, ⟨i, hi, rfl⟩, hjoins⟩
    rcases Sym2.eq_iff.mp hjoins with ⟨rfl, rfl⟩ | ⟨rfl, rfl⟩
    . exact .inl ⟨hi, rfl⟩
    . exact .inr ⟨hi, rfl⟩
  . rintro (⟨ha, rfl⟩ | ⟨hb, rfl⟩)
    . exact ⟨_, ⟨a, ha, rfl⟩, rfl⟩
    . exact ⟨_, ⟨b, hb, rfl⟩, Sym2.eq_swap⟩

theorem succ_directedRingOf_true
    : (directedRingOf range true).Succ a b ↔ a ∈ range.toSet ∧ b = range.following a := by
  simp only [directedRingOf, if_true, succ_graphFrom, List.mem_map, ProcessRange.toSet, List.mem_toFinset]
  constructor
  . rintro ⟨e, ⟨i, hi, rfl⟩, rfl, rfl⟩
    exact ⟨hi, rfl⟩
  . rintro ⟨ha, rfl⟩
    exact ⟨_, ⟨a, ha, rfl⟩, rfl, rfl⟩

theorem succ_directedRingOf_false
    : (directedRingOf range false).Succ a b ↔ b ∈ range.toSet ∧ a = range.following b := by
  simp only [directedRingOf, Bool.false_eq_true, if_false, succ_graphFrom, List.mem_map, ProcessRange.toSet,
    List.mem_toFinset]
  constructor
  . rintro ⟨e, ⟨i, hi, rfl⟩, rfl, rfl⟩
    exact ⟨hi, rfl⟩
  . rintro ⟨hb, rfl⟩
    exact ⟨_, ⟨b, hb, rfl⟩, rfl, rfl⟩

-- In every kind of ring, a process is next to the one that follows it.
theorem adj_ring {g : MixedGraph Int}
    (h : g = ringOf range ∨ ∃ ascending, g = directedRingOf range ascending)
    : g.Adj a b ↔ (a ∈ range.toSet ∧ b = range.following a) ∨ (b ∈ range.toSet ∧ a = range.following b) := by
  unfold Adj
  rcases h with rfl | ⟨_ | _, rfl⟩
  . rw [succ_ringOf, succ_ringOf]
    tauto
  . rw [succ_directedRingOf_false, succ_directedRingOf_false]
    tauto
  . rw [succ_directedRingOf_true, succ_directedRingOf_true]

theorem nodes_cliqueOf : (cliqueOf range).nodes = range.toSet := by
  apply nodes_graphFrom
  rintro a b (h | h)
  . exact List.mem_toFinset.mp (succ_cliqueOf.mp h).1.1
  . exact List.mem_toFinset.mp (succ_cliqueOf.mp h).1.2

theorem mem_of_adj_ring {g : MixedGraph Int}
    (hring : g = ringOf range ∨ ∃ ascending, g = directedRingOf range ascending) (h : g.Adj a b)
    : a ∈ range.toList := by
  apply List.mem_toFinset.mp
  rcases (adj_ring hring).mp h with ⟨ha, -⟩ | ⟨hb, rfl⟩
  . exact ha
  . exact ProcessRange.mem_following hb

theorem nodes_ringOf : (ringOf range).nodes = range.toSet :=
  nodes_graphFrom (fun _ _ => mem_of_adj_ring (.inl rfl))

theorem nodes_directedRingOf (ascending : Bool) : (directedRingOf range ascending).nodes = range.toSet :=
  nodes_graphFrom (fun _ _ => mem_of_adj_ring (.inr ⟨ascending, rfl⟩))

end MixedGraph
