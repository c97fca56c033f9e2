import Mathlib.Data.Sym.Card
import ScalaNeko.Topology.Impl.Descriptor
import ScalaNeko.Topology.Lemmas.Cycle

/-!
Whether what `Clique`, `Ring` and `DirectedRing` answer without looking at their graphs is what the
graphs say.
-/

open ProcessRange (mem_toList mem_toSet)

namespace ProcessRange

variable {range : ProcessRange} {i j : Int}

theorem pred_last_mem (htwo : 2 ≤ range.size) : range.last - 1 ∈ range.toSet := by
  rw [mem_toSet, last]
  omega

theorem following_pred_last : range.following (range.last - 1) = range.last := by
  rw [following, if_pos (by omega)]
  omega

theorem eq_nextOf_iff (hfits : range.Fits) (hi : i ∈ range.toSet)
    : j ∈ range.toSet ∧ i = range.nextOf j ↔ j = range.prevOf i := by
  constructor
  . rintro ⟨hj, rfl⟩
    exact ((range.rotation.invOn (fun _ => mem_prevOf hfits) (fun _ => nextOf_prevOf hfits)).1 hj).symm
  . rintro rfl
    exact ⟨mem_prevOf hfits hi, (nextOf_prevOf hfits hi).symm⟩

end ProcessRange

namespace MixedGraph

variable {range : ProcessRange} {a b : Int}

theorem connected_cliqueOf : (cliqueOf range).Connected := by
  have := range.one_le
  apply connected_of_rank range.min (fun a => (a - range.min).toNat)
  intro a ha hne
  rw [nodes_cliqueOf] at ha
  refine ⟨range.min, .inl (succ_cliqueOf.mpr ⟨⟨ha, ?_⟩, hne.symm⟩), ?_⟩
  . rw [mem_toSet]
    omega
  . rw [mem_toSet] at ha
    omega

theorem connected_ring {g : MixedGraph Int}
    (h : g = ringOf range ∨ ∃ ascending, g = directedRingOf range ascending) (hnodes : g.nodes = range.toSet)
    : g.Connected := by
  apply connected_of_rank range.min (fun a => (a - range.min).toNat)
  intro a ha hne
  rw [hnodes, mem_toSet] at ha
  refine ⟨a - 1, (adj_ring h).mpr (.inr ⟨?_, ?_⟩), ?_⟩
  . rw [mem_toSet]
    omega
  . unfold ProcessRange.following ProcessRange.last
    rw [if_pos (by omega)]
    omega
  . omega

theorem graphSize_cliqueOf : (cliqueOf range).graphSize = range.size.choose 2 := by
  have hedges : (cliqueOf range).edges
      = (range.toSet.offDiag.image Sym2.mk.uncurry).image Edge.undi := by
    ext e
    simp only [cliqueOf, graphFrom, List.mem_toFinset, List.mem_flatMap, List.mem_map, List.mem_filter,
      decide_eq_true_eq, Finset.mem_image, Finset.mem_offDiag, ProcessRange.toSet]
    constructor
    . rintro ⟨i, hi, j, ⟨hj, hne⟩, rfl⟩
      exact ⟨_, ⟨(i, j), ⟨hi, hj, hne.symm⟩, rfl⟩, rfl⟩
    . rintro ⟨_, ⟨⟨i, j⟩, ⟨hi, hj, hne⟩, rfl⟩, rfl⟩
      exact ⟨i, hi, j, ⟨hj, Ne.symm hne⟩, rfl⟩
  have hinj : Function.Injective (Edge.undi (V := Int)) := fun _ _ => Edge.undi.inj
  rw [graphSize, hedges, Finset.card_image_of_injective _ hinj, Sym2.card_image_offDiag,
    ProcessRange.card_toSet]

theorem graphSize_of_inj {nodes : List Int} {f : Int → Edge Int}
    (hinj : ∀ i, i ∈ range.toSet → ∀ j, j ∈ range.toSet → f i = f j → i = j)
    : (graphFrom nodes (range.toList.map f)).graphSize = range.size := by
  show (range.toList.map f).toFinset.card = range.size
  rw [List.toFinset_card_of_nodup, List.length_map, ProcessRange.length_toList]
  apply List.Nodup.map_on _ ProcessRange.nodup_toList
  intro i hi j hj
  exact hinj i (List.mem_toFinset.mpr hi) j (List.mem_toFinset.mpr hj)

theorem graphSize_directedRingOf (ascending : Bool)
    : (directedRingOf range ascending).graphSize = range.size := by
  apply graphSize_of_inj
  intro i _ j _ heq
  cases ascending with
  | false => exact (Edge.di.inj heq).2
  | true => exact (Edge.di.inj heq).1

theorem graphSize_ringOf (hthree : 3 ≤ range.size) : (ringOf range).graphSize = range.size := by
  apply graphSize_of_inj
  intro i hi j hj heq
  rcases Sym2.eq_iff.mp (Edge.undi.inj heq) with ⟨hij, -⟩ | ⟨hij, hji⟩
  . exact hij
  -- no process is the one after its next
  . rw [mem_toSet] at hi hj
    unfold ProcessRange.following ProcessRange.last at hij hji
    split at hij
    . split at hji
      . omega
      . omega
    . split at hji
      . omega
      . omega

theorem graphSize_ringOf_two (htwo : range.size = 2) : (ringOf range).graphSize ≤ 1 := by
  apply Finset.card_le_one.mpr
  have hedge : ∀ e, e ∈ (ringOf range).edges → e = .undi s(range.min, range.min + 1) := by
    intro e he
    obtain ⟨i, hi, rfl⟩ := List.mem_map.mp (List.mem_toFinset.mp he)
    rw [mem_toList] at hi
    rw [Edge.undi.injEq, Sym2.eq_iff]
    unfold ProcessRange.following ProcessRange.last
    split
    . omega
    . omega
  intro e he e' he'
  rw [hedge e he, hedge e' he']

end MixedGraph

namespace TopologyDescriptor

open MixedGraph

/--
What a topology answers is what its graph says. The processes next to one are those in `around`.
-/
structure Agrees (around : MixedGraph Int → Int → Finset Int) (t : TopologyDescriptor) : Prop where
  neighborsFor : ∀ p, t.neighborsFor p
    = if p ∈ t.underlying.nodes then some (around t.underlying p) else none
  numberOfEdges : t.numberOfEdges = t.underlying.graphSize
  isConnected : t.isConnected = true ↔ t.underlying.Connected

variable {range : ProcessRange}

-- All topologies answer `None` outside their processes.
theorem answers_iff {nodes : Finset Int} {answer around : Int → Finset Int} (hnodes : nodes = range.toSet)
    : (∀ p, (if p ∈ range.toSet then some (answer p) else none) = if p ∈ nodes then some (around p) else none)
      ↔ ∀ p, p ∈ range.toSet → answer p = around p := by
  subst hnodes
  apply forall_congr'
  intro p
  split
  . next hp => rw [Option.some.injEq, forall_prop_of_true hp]
  . next hp => exact iff_of_true rfl (fun h => absurd h hp)

theorem numberOfEdges_clique_iff
    : (clique range).numberOfEdges = range.size.choose 2 ↔ range.size ≤ 46341 := by
  have := range.one_le
  have := range.size_lt
  have hpred : int32 (range.size - 1) = range.size - 1 := by
    unfold int32
    omega
  have hcast : (range.size * (range.size - 1) : Int) = (range.size * (range.size - 1) : Nat) := by
    rw [Nat.cast_mul, Nat.cast_sub range.one_le, Nat.cast_one]
  show (int32 (range.size * int32 (range.size - 1))).tdiv 2 = _ ↔ _
  rw [hpred, hcast, Nat.choose_two_right]
  constructor
  . intro heq
    by_contra hbig
    have hle : 46342 * 46341 ≤ range.size * (range.size - 1) := Nat.mul_le_mul (by omega) (by omega)
    have hint : int32 (range.size * (range.size - 1) : Nat) ≤ 2 ^ 31 - 1 := by
      unfold int32
      omega
    have hdiv := Int.tdiv_le_tdiv (show (0 : Int) < 2 by decide) hint
    rw [heq, show (2 ^ 31 - 1 : Int).tdiv 2 = 1073741823 by decide] at hdiv
    omega
  . intro hsmall
    have hle : range.size * (range.size - 1) ≤ 46341 * 46340 := Nat.mul_le_mul hsmall (by omega)
    rw [int32_eq (by omega) (by omega), Int.tdiv_eq_ediv_of_nonneg (by omega)]
    omega

theorem agrees_clique_iff : (clique range).Agrees neighbors ↔ range.size ≤ 46341 := by
  rw [← numberOfEdges_clique_iff]
  constructor
  . intro h
    rw [h.numberOfEdges]
    exact congrArg Nat.cast graphSize_cliqueOf
  . intro hedges
    refine ⟨(answers_iff nodes_cliqueOf).mpr ?_, ?_, iff_of_true rfl connected_cliqueOf⟩
    . intro p hp
      show range.toSet.erase p = (cliqueOf range).neighbors p
      ext q
      rw [mem_neighbors, Finset.mem_erase]
      unfold Adj
      rw [succ_cliqueOf, succ_cliqueOf]
      tauto
    . rw [hedges]
      exact (congrArg Nat.cast graphSize_cliqueOf).symm

theorem neighbors_ringOf (htwo : 2 ≤ range.size) (hfits : range.Fits) {p : Int} (hp : p ∈ range.toSet)
    : (ringOf range).neighbors p = {range.prevOf p, range.nextOf p} := by
  ext q
  rw [mem_neighbors, adj_ring (.inl rfl), Finset.mem_insert, Finset.mem_singleton,
    ← ProcessRange.eq_nextOf_iff hfits hp, ProcessRange.nextOf_eq hp]
  have hne : ∀ i, i ∈ range.toSet → range.following i ≠ i := fun _ => ProcessRange.following_ne htwo
  constructor
  . rintro ⟨-, ⟨-, heq⟩ | ⟨hq, heq⟩⟩
    . exact .inr heq
    . exact .inl ⟨hq, by rw [ProcessRange.nextOf_eq hq, heq]⟩
  . rintro (⟨hq, heq⟩ | rfl)
    . rw [ProcessRange.nextOf_eq hq] at heq
      refine ⟨?_, .inr ⟨hq, heq⟩⟩
      rintro rfl
      exact hne q hq heq.symm
    . exact ⟨hne p hp, .inl ⟨hp, rfl⟩⟩

theorem agrees_ring_iff (htwo : 2 ≤ range.size)
    : (ring range).Agrees neighbors ↔ range.size ≠ 2 ∧ range.Fits := by
  constructor
  . intro h
    have hedges : range.size ≠ 2 := by
      intro hsize
      have heq : (range.size : Int) = (ringOf range).graphSize := h.numberOfEdges
      have := graphSize_ringOf_two hsize
      omega
    refine ⟨hedges, ?_⟩
    by_contra hbig
    have hneighbors : {range.prevOf range.last, range.nextOf range.last} = (ringOf range).neighbors range.last :=
      (answers_iff nodes_ringOf).mp h.neighborsFor range.last ProcessRange.last_mem
    have hmem : range.last - 1 ∈ (ringOf range).neighbors range.last := by
      rw [mem_neighbors, adj_ring (.inl rfl), ProcessRange.following_pred_last]
      exact ⟨by omega, .inr ⟨ProcessRange.pred_last_mem htwo, rfl⟩⟩
    rw [← hneighbors, Finset.mem_insert, Finset.mem_singleton, ProcessRange.nextOf_eq ProcessRange.last_mem]
      at hmem
    rcases hmem with hprev | hnext
    . exact ProcessRange.prevOf_last_ne hbig hprev.symm
    . unfold ProcessRange.following ProcessRange.last at hnext
      rw [if_neg (by omega)] at hnext
      omega
  . rintro ⟨hsize, hfits⟩
    refine ⟨(answers_iff nodes_ringOf).mpr ?_, ?_, iff_of_true rfl (connected_ring (.inl rfl) nodes_ringOf)⟩
    . intro p hp
      exact (neighbors_ringOf htwo hfits hp).symm
    . exact (congrArg Nat.cast (graphSize_ringOf (by omega))).symm

theorem diSuccessors_directedRingOf_true (htwo : 2 ≤ range.size) {p : Int} (hp : p ∈ range.toSet)
    : (directedRingOf range true).diSuccessors p = {range.nextOf p} := by
  ext q
  rw [mem_diSuccessors, succ_directedRingOf_true, Finset.mem_singleton, ProcessRange.nextOf_eq hp]
  constructor
  . rintro ⟨-, -, heq⟩
    exact heq
  . rintro rfl
    exact ⟨ProcessRange.following_ne htwo hp, hp, rfl⟩

theorem mem_diSuccessors_directedRingOf_false (htwo : 2 ≤ range.size) {p q : Int}
    : q ∈ (directedRingOf range false).diSuccessors p ↔ q ∈ range.toSet ∧ p = range.nextOf q := by
  rw [mem_diSuccessors, succ_directedRingOf_false]
  constructor
  . rintro ⟨-, hq, heq⟩
    exact ⟨hq, by rw [ProcessRange.nextOf_eq hq, heq]⟩
  . rintro ⟨hq, heq⟩
    rw [ProcessRange.nextOf_eq hq] at heq
    refine ⟨?_, hq, heq⟩
    rintro rfl
    exact ProcessRange.following_ne htwo hq heq.symm

-- The number of edges and the connectedness are always right.
theorem agrees_directedRing_of (ascending : Bool)
    (hneighbors : ∀ p, (directedRing range ascending).neighborsFor p
      = if p ∈ (directedRingOf range ascending).nodes then
          some ((directedRingOf range ascending).diSuccessors p)
        else
          none)
    : (directedRing range ascending).Agrees diSuccessors where
  neighborsFor := hneighbors
  numberOfEdges := (congrArg Nat.cast (graphSize_directedRingOf ascending)).symm
  isConnected := iff_of_true rfl (connected_ring (.inr ⟨ascending, rfl⟩) (nodes_directedRingOf ascending))

theorem agrees_ascendingRing (htwo : 2 ≤ range.size) : (directedRing range true).Agrees diSuccessors := by
  apply agrees_directedRing_of
  apply (answers_iff (nodes_directedRingOf true)).mpr
  intro p hp
  exact (diSuccessors_directedRingOf_true htwo hp).symm

theorem agrees_descendingRing_iff (htwo : 2 ≤ range.size)
    : (directedRing range false).Agrees diSuccessors ↔ range.Fits := by
  constructor
  . intro h
    by_contra hbig
    have hsuccessors : {range.prevOf range.last} = (directedRingOf range false).diSuccessors range.last :=
      (answers_iff (nodes_directedRingOf false)).mp h.neighborsFor range.last ProcessRange.last_mem
    have hmem : range.last - 1 ∈ (directedRingOf range false).diSuccessors range.last := by
      have hprev : range.last - 1 ∈ range.toSet := ProcessRange.pred_last_mem htwo
      rw [mem_diSuccessors_directedRingOf_false htwo, ProcessRange.nextOf_eq hprev,
        ProcessRange.following_pred_last]
      exact ⟨hprev, rfl⟩
    rw [← hsuccessors, Finset.mem_singleton] at hmem
    exact ProcessRange.prevOf_last_ne hbig hmem.symm
  . intro hfits
    apply agrees_directedRing_of
    apply (answers_iff (nodes_directedRingOf false)).mpr
    intro p hp
    ext q
    rw [Finset.mem_singleton, mem_diSuccessors_directedRingOf_false htwo, ProcessRange.eq_nextOf_iff hfits hp]

theorem agrees_directedRing_iff (htwo : 2 ≤ range.size) (ascending : Bool)
    : (directedRing range ascending).Agrees diSuccessors ↔ ascending = true ∨ range.Fits := by
  cases ascending with
  | true => exact iff_of_true (agrees_ascendingRing htwo) (.inl rfl)
  | false => rw [agrees_descendingRing_iff htwo, or_iff_right Bool.false_ne_true]

/--
A ring of two processes has one edge, and counts two.
-/
theorem agrees_iff (range : ProcessRange) (htwo : 2 ≤ range.size)
    : ((clique range).Agrees neighbors ↔ range.size ≤ 46341)
        ∧ ((ring range).Agrees neighbors ↔ range.size ≠ 2 ∧ range.size ≤ 2 ^ 30)
        ∧ ∀ ascending, (directedRing range ascending).Agrees diSuccessors
            ↔ ascending = true ∨ range.size ≤ 2 ^ 30 :=
  ⟨agrees_clique_iff, agrees_ring_iff htwo, agrees_directedRing_iff htwo⟩

theorem agrees_iff_three
    : (ring (ProcessRange.rangeFrom 5 3 (by decide) (by decide))).Agrees neighbors :=
  (agrees_iff (ProcessRange.rangeFrom 5 3 (by decide) (by decide)) (by decide)).2.1.mpr
    ⟨by decide, by decide⟩

theorem not_agrees_of_two
    : ¬ (ring (ProcessRange.rangeFrom 0 2 (by decide) (by decide))).Agrees neighbors := by
  intro h
  have heq : (2 : Int) = (ringOf (ProcessRange.rangeFrom 0 2 (by decide) (by decide))).graphSize :=
    h.numberOfEdges
  have := @graphSize_ringOf_two (ProcessRange.rangeFrom 0 2 (by decide) (by decide)) rfl
  omega

end TopologyDescriptor
