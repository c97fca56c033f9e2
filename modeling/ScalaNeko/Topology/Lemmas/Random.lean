import Mathlib.Algebra.Order.Field.Basic
import Mathlib.Algebra.Order.Ring.Rat
import Mathlib.Logic.Function.Basic
import ScalaNeko.Topology.Impl.Random

/-!
In every run, the random topologies of one range are the same graph, and more of the parameter `alpha`
never means fewer edges.
-/

namespace RandomTopology

open MixedGraph (Edge)

variable {D : Type} {math : DoubleArithmetic D} {range : List Int} {seed : Int64}

section Graph

/--
An edge between two different members of the range.
-/
def Within (range : List Int) (e : Edge Int) : Prop := ∃ i j, i ∈ range ∧ j ∈ range ∧ i < j ∧ e = .undi s(i, j)

theorem nodes_of_within {edges : List (Edge Int)} (h : ∀ e, e ∈ edges → Within range e)
    : (MixedGraph.graphFrom range edges).nodes = range.toFinset := by
  have hsucc : ∀ a b, (MixedGraph.graphFrom range edges).Succ a b → a ∈ range ∧ b ∈ range := by
    intro a b hab
    obtain ⟨e, he, hjoins⟩ := MixedGraph.succ_graphFrom.mp hab
    obtain ⟨i, j, hi, hj, -, rfl⟩ := h e he
    rcases Sym2.eq_iff.mp hjoins with ⟨rfl, rfl⟩ | ⟨rfl, rfl⟩
    . exact ⟨hi, hj⟩
    . exact ⟨hj, hi⟩
  apply MixedGraph.nodes_graphFrom
  rintro a b (hab | hab)
  . exact (hsucc a b hab).1
  . exact (hsucc b a hab).2

theorem draws_subset {accept : D → Bool} {pairs : List (Int × Int)} {random : JavaRandom}
    : draws math accept pairs random ⊆ pairs := by
  induction pairs generalizing random with
  | nil => exact List.Subset.refl _
  | cons pair pairs ih =>
    intro e he
    rw [draws] at he
    dsimp only at he
    split at he
    . rcases List.mem_cons.mp he with rfl | he
      . exact List.mem_cons_self
      . exact List.mem_cons_of_mem _ (ih he)
    . exact List.mem_cons_of_mem _ (ih he)

theorem map_rank (math : DoubleArithmetic D) (range : List Int) (random : JavaRandom)
    : (positions math range random).map Position.rank = range := by
  induction range generalizing random with
  | nil => rfl
  | cons i range ih =>
    rw [positions]
    exact congrArg _ (ih _)

/--
The graphs whose nodes are the range and whose edges are between members of it.
-/
structure Over (range : List Int) (graph : MixedGraph Int) : Prop where
  nodes : graph.nodes = range.toFinset
  edges : ∀ e, e ∈ graph.edges → Within range e

theorem over_graphFrom {edges : List (Edge Int)} (h : ∀ e, e ∈ edges → Within range e)
    : Over range (.graphFrom range edges) where
  nodes := nodes_of_within h
  edges := fun e he => h e (List.mem_toFinset.mp he)

theorem over_erdosRenyi (accept : D → Bool) : Over range (erdosRenyi math accept range seed) := by
  apply over_graphFrom
  intro e he
  obtain ⟨⟨i, j⟩, hpair, rfl⟩ := List.mem_map.mp he
  obtain ⟨i', hi, hpair⟩ := List.mem_flatMap.mp (draws_subset hpair)
  obtain ⟨j', hj, heq⟩ := List.mem_map.mp hpair
  cases heq
  rw [List.mem_filter, decide_eq_true_eq] at hj
  exact ⟨i, j, hi, hj.1, hj.2, rfl⟩

theorem mem_geometric {close : Position D → Position D → Bool} {e : Edge Int}
    : e ∈ (geometric math close range seed).edges ↔
      ∃ loc1 loc2, loc1 ∈ positions math range (.create seed) ∧ loc2 ∈ positions math range (.create seed)
        ∧ loc1.rank < loc2.rank ∧ close loc1 loc2 ∧ e = .undi s(loc1.rank, loc2.rank) := by
  unfold geometric MixedGraph.graphFrom
  simp only [List.mem_toFinset, List.mem_flatMap, List.mem_map, List.mem_filter, Bool.and_eq_true,
    decide_eq_true_eq]
  constructor
  . rintro ⟨loc1, hloc1, loc2, ⟨hloc2, hlt, hclose⟩, rfl⟩
    exact ⟨loc1, loc2, hloc1, hloc2, hlt, hclose, rfl⟩
  . rintro ⟨loc1, loc2, hloc1, hloc2, hlt, hclose, rfl⟩
    exact ⟨loc1, hloc1, loc2, ⟨hloc2, hlt, hclose⟩, rfl⟩

theorem over_geometric (close : Position D → Position D → Bool)
    : Over range (geometric math close range seed) := by
  have hrank : ∀ loc, loc ∈ positions math range (.create seed) → loc.rank ∈ range := by
    intro loc hloc
    rw [← map_rank math range (.create seed)]
    exact List.mem_map_of_mem hloc
  apply over_graphFrom
  intro e he
  obtain ⟨loc1, loc2, hloc1, hloc2, hlt, -, rfl⟩ := mem_geometric.mp (List.mem_toFinset.mpr he)
  exact ⟨loc1.rank, loc2.rank, hrank _ hloc1, hrank _ hloc2, hlt, rfl⟩

theorem over_generate (generator : Generator D) : Over range (generator.generate math range seed) := by
  cases generator with
  | randomGraphOf => exact over_erdosRenyi _
  | geometricRandomGraphOf alpha => exact over_geometric _
  | random => exact over_erdosRenyi _
  | geometricRandom alpha => exact over_geometric _
  | utilRandom => exact over_erdosRenyi _
  | utilGeometricRandom alpha => exact over_geometric _

/--
What rounding keeps of the order, for the numbers that a radius is computed from.
-/
structure Monotone (math : DoubleArithmetic D) : Prop where
  add : ∀ (N : Nat) a b, 0 < N → math.le a b →
    math.le (math.add (math.log (math.ofInt N)) a) (math.add (math.log (math.ofInt N)) b)
  div : ∀ (N : Nat) a b, 0 < N → math.le a b →
    math.le (math.div a (math.mul math.pi (math.ofInt N))) (math.div b (math.mul math.pi (math.ofInt N)))
  lt_of_lt_of_le : ∀ a b c, math.lt a b → math.le b c → math.lt a c

theorem geometricRandomGraphOf_mono (h : Monotone math) {alpha beta : D} (hle : math.le alpha beta)
    : (geometricRandomGraphOf math alpha range seed).edges
      ⊆ (geometricRandomGraphOf math beta range seed).edges := by
  intro e he
  obtain ⟨loc1, loc2, hloc1, hloc2, hlt, hclose, rfl⟩ := mem_geometric.mp he
  have hlen : 0 < range.length := by
    rw [← map_rank math range (.create seed), List.length_map]
    exact List.length_pos_of_mem hloc1
  apply mem_geometric.mpr
  refine ⟨loc1, loc2, hloc1, hloc2, hlt, ?_, rfl⟩
  exact h.lt_of_lt_of_le _ _ _ hclose (h.div _ _ _ hlen (h.add _ _ _ hlen hle))

end Graph

section Runs

variable {objects objects' : Objects D}

/--
Every graph is the one that the seed of its range gives.
-/
def Kept (math : DoubleArithmetic D) (objects : Objects D) : Prop :=
  ∀ call graph, (call, graph) ∈ objects.built →
    ∃ seed, objects.seeds call.generator.owner call.range = some seed
      ∧ graph = call.generator.generate math call.range seed

/--
What a call does: it builds a graph from the seed of its range, which is drawn if there is none. No seed
is drawn again.
-/
theorem apply_cases (math : DoubleArithmetic D) (objects : Objects D) (call : Call D) (nextLong : Int64)
    : ∃ seeds seed, objects.apply math call nextLong
          = ⟨seeds, objects.built ++ [(call, call.generator.generate math call.range seed)]⟩
        ∧ seeds call.generator.owner call.range = some seed
        ∧ ∀ owner range seed, objects.seeds owner range = some seed → seeds owner range = some seed := by
  unfold Objects.apply
  dsimp only
  cases hseed : objects.seeds call.generator.owner call.range with
  | some seed =>
    refine ⟨objects.seeds, seed, ?_, hseed, fun _ _ _ h => h⟩
    rw [Option.isSome_some, if_pos rfl, hseed]
  | none =>
    refine ⟨Function.update objects.seeds call.generator.owner
      (Function.update (objects.seeds call.generator.owner) call.range (some nextLong)), nextLong, ?_, ?_, ?_⟩
    . rw [Option.isSome_none, if_neg Bool.false_ne_true, Function.update_self, Function.update_self]
    . rw [Function.update_self, Function.update_self]
    . intro owner range seed h
      by_cases howner : owner = call.generator.owner
      . subst howner
        rw [Function.update_self]
        by_cases hrange : range = call.range
        . rw [hrange, hseed] at h
          cases h
        . rw [Function.update_of_ne hrange]
          exact h
      . rw [Function.update_of_ne howner]
        exact h

theorem kept_of_reach (h : (lts math).Reachable objects) : Kept math objects := by
  apply LTS.Reach.invariant (I := Kept math) _ _ h
  . rintro objects rfl call graph hmem
    cases hmem
  . rintro objects ⟨call, nextLong⟩ _ - hkept rfl -
    obtain ⟨seeds, seed, heq, hseed, hold⟩ := apply_cases math objects call nextLong
    rw [heq]
    intro call' graph hmem
    rcases List.mem_append.mp hmem with hmem | hmem
    . obtain ⟨seed', hseed', hgraph⟩ := hkept call' graph hmem
      exact ⟨seed', hold _ _ _ hseed', hgraph⟩
    . rw [List.mem_singleton] at hmem
      cases hmem
      exact ⟨seed, hseed, rfl⟩

-- Two generators with the seeds of one object build from the same seed.
theorem Kept.same_seed (h : Kept math objects) (gen gen' : Generator D) {range : List Int}
    {graph graph' : MixedGraph Int} (howner : gen.owner = gen'.owner)
    (hgraph : (⟨gen, range⟩, graph) ∈ objects.built) (hgraph' : (⟨gen', range⟩, graph') ∈ objects.built)
    : ∃ seed, graph = gen.generate math range seed ∧ graph' = gen'.generate math range seed := by
  obtain ⟨seed, hseed, hgraph⟩ := h _ _ hgraph
  obtain ⟨seed', hseed', hgraph'⟩ := h _ _ hgraph'
  dsimp only at hseed hseed'
  rw [howner, hseed', Option.some.injEq] at hseed
  rw [hseed] at hgraph'
  exact ⟨seed, hgraph, hgraph'⟩

/--
What a program can rely on, whatever it asks for and in whatever order.
-/
structure Reproducible (math : DoubleArithmetic D) (objects : Objects D) : Prop where
  within : ∀ call graph, (call, graph) ∈ objects.built → Over call.range graph
  same : ∀ call graph graph', (call, graph) ∈ objects.built → (call, graph') ∈ objects.built → graph = graph'
  nested : ∀ gen, gen = Generator.geometricRandomGraphOf ∨ gen = Generator.utilGeometricRandom →
    ∀ range alpha beta graph graph', math.le alpha beta →
      (⟨gen alpha, range⟩, graph) ∈ objects.built → (⟨gen beta, range⟩, graph') ∈ objects.built →
      graph.edges ⊆ graph'.edges
  unused : ∀ range alpha beta graph graph', (⟨.geometricRandom alpha, range⟩, graph) ∈ objects.built →
    (⟨.geometricRandom beta, range⟩, graph') ∈ objects.built → graph = graph'

/--
Each random topology can be asked for again, and a larger `alpha` only adds edges to it, except in
`neko.topology.GeometricRandom`, where it changes nothing.
-/
theorem reproducible (hmono : Monotone math) (h : (lts math).Reachable objects)
    : Reproducible math objects := by
  have hkept := kept_of_reach h
  constructor
  . intro call graph hmem
    obtain ⟨seed, -, rfl⟩ := hkept call graph hmem
    exact over_generate call.generator
  . intro call graph graph' hmem hmem'
    obtain ⟨seed, rfl, rfl⟩ := hkept.same_seed call.generator call.generator rfl hmem hmem'
    rfl
  . rintro gen (rfl | rfl) range alpha beta graph graph' hle hmem hmem'
    . obtain ⟨seed, rfl, rfl⟩ :=
        hkept.same_seed (.geometricRandomGraphOf alpha) (.geometricRandomGraphOf beta) rfl hmem hmem'
      exact geometricRandomGraphOf_mono hmono hle
    . obtain ⟨seed, rfl, rfl⟩ :=
        hkept.same_seed (.utilGeometricRandom alpha) (.utilGeometricRandom beta) rfl hmem hmem'
      exact geometricRandomGraphOf_mono hmono hle
  . intro range alpha beta graph graph' hmem hmem'
    obtain ⟨seed, rfl, rfl⟩ :=
      hkept.same_seed (.geometricRandom alpha) (.geometricRandom beta) rfl hmem hmem'
    rfl

-- Exact arithmetic, with what is computed for two processes: no square root, and the logarithm of 2.
def exact : DoubleArithmetic Rat where
  ofInt := fun n => n
  ofDraw := fun x => x / 2 ^ 53
  add := (· + ·)
  sub := (· - ·)
  mul := (· * ·)
  div := (· / ·)
  lt := fun x y => decide (x < y)
  le := fun x y => decide (x ≤ y)
  pi := 884279719003555 / 281474976710656
  log := fun _ => 6243314768165359 / 9007199254740992
  sqrt := fun x => x
  pow := fun x _ => x * x
  hypot := fun x _ => x

theorem exact_monotone
    : Monotone exact := by
  constructor
  . intro N a b _ hle
    have hle := of_decide_eq_true hle
    exact decide_eq_true (add_le_add_right hle _)
  . intro N a b hpos hle
    have hle := of_decide_eq_true hle
    have hN : (0 : Rat) ≤ (N : Int) := by exact_mod_cast hpos.le
    apply decide_eq_true
    apply div_le_div_of_nonneg_right hle
    exact mul_nonneg (by decide +kernel) hN
  . intro a b c hlt hle
    exact decide_eq_true (lt_of_lt_of_le (of_decide_eq_true hlt) (of_decide_eq_true hle))

-- The same range twice, and the seed that the first call draws is 5.
def askedTwice : Objects Rat :=
  (Objects.apply exact {} ⟨.geometricRandomGraphOf 0, [0, 1]⟩ 5).apply exact
    ⟨.geometricRandomGraphOf 1, [0, 1]⟩ 7

theorem reproducible_pair
    : Reproducible exact askedTwice
      ∧ askedTwice.built.map (fun b => b.2.edges) = [∅, {.undi s(0, 1)}] := by
  constructor
  . have h0 : (lts exact).Reachable {} := .init rfl
    have h1 := h0.step (a := (⟨.geometricRandomGraphOf 0, [0, 1]⟩, 5)) rfl trivial
    have h2 := h1.step (a := (⟨.geometricRandomGraphOf 1, [0, 1]⟩, 7)) rfl trivial
    exact reproducible exact_monotone h2
  . decide +kernel

end Runs

end RandomTopology
