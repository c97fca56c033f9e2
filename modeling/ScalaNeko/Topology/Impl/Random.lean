import ScalaNeko.Lib.MixedGraph
import ScalaNeko.Lib.Transition

/-!
The random topologies, after `neko.topology.Topology`, `neko.topology.Random`,
`neko.topology.GeometricRandom` and the objects in `neko.util.Topology`, and the runs of programs that
ask for them. A range is given by its elements.
-/

/--
`java.util.Random`
-/
structure JavaRandom where
  seed : BitVec 48
  deriving DecidableEq

namespace JavaRandom

def create (seed : Int64) : JavaRandom where
  seed := (seed.toBitVec ^^^ 0x5DEECE66D#64).setWidth 48

-- For less than 32 bits, the result is not negative.
def next (random : JavaRandom) (bits : Nat) : Nat × JavaRandom :=
  let seed := random.seed * 0x5DEECE66D#48 + 0xB#48
  (seed.toNat / 2 ^ (48 - bits), ⟨seed⟩)

-- The result is to be divided by 2⁵³.
def nextDouble (random : JavaRandom) : Nat × JavaRandom :=
  let (high, random) := random.next 26
  let (low, random) := random.next 27
  (high * 2 ^ 27 + low, random)

end JavaRandom

/--
The arithmetic of `Double`. `ofDraw` divides a result of `nextDouble` by 2⁵³.
-/
structure DoubleArithmetic (D : Type) where
  ofInt : Int → D
  ofDraw : Nat → D
  add : D → D → D
  sub : D → D → D
  mul : D → D → D
  div : D → D → D
  lt : D → D → Bool
  le : D → D → Bool
  pi : D
  log : D → D
  sqrt : D → D
  pow : D → D → D
  hypot : D → D → D

namespace RandomTopology

variable {D : Type}

-- One draw for each pair, in this order.
def draws (math : DoubleArithmetic D) (accept : D → Bool)
    : List (Int × Int) → JavaRandom → List (Int × Int)
  | [], _ => []
  | pair :: pairs, random =>
    let (x, random) := random.nextDouble
    if accept (math.ofDraw x) then
      pair :: draws math accept pairs random
    else
      draws math accept pairs random

def erdosRenyi (math : DoubleArithmetic D) (accept : D → Bool) (range : List Int) (seed : Int64)
    : MixedGraph Int :=
  let pairs := range.flatMap fun i => (range.filter fun j => j > i).map fun j => (i, j)
  let edges := (draws math accept pairs (.create seed)).map fun (i, j) => .undi s(i, j)
  .graphFrom range edges

structure Position (D : Type) where
  x : D
  y : D
  rank : Int

def positions (math : DoubleArithmetic D) : List Int → JavaRandom → List (Position D)
  | [], _ => []
  | i :: range, random =>
    let (x, random) := random.nextDouble
    let (y, random) := random.nextDouble
    ⟨math.ofDraw x, math.ofDraw y, i⟩ :: positions math range random

def geometric (math : DoubleArithmetic D) (close : Position D → Position D → Bool) (range : List Int)
    (seed : Int64)
    : MixedGraph Int :=
  let positions := positions math range (.create seed)
  let edges := positions.flatMap fun loc1 =>
    (positions.filter fun loc2 => loc1.rank < loc2.rank && close loc1 loc2).map fun loc2 =>
      .undi s(loc1.rank, loc2.rank)
  .graphFrom range edges

variable (math : DoubleArithmetic D)

-- In `Topology` and in `neko.util.Topology.Random`
def randomGraphOf (range : List Int) (seed : Int64) : MixedGraph Int :=
  let N := range.length
  let threshold :=
    if N > 1 then math.div (math.log (math.ofInt N)) (math.ofInt (N - 1)) else math.ofInt 1
  erdosRenyi math (fun x => math.lt x threshold) range seed

def squaredRadius (N : Nat) (alpha : D) : D :=
  math.div (math.add (math.log (math.ofInt N)) alpha) (math.mul math.pi (math.ofInt N))

-- In `Topology` and in `neko.util.Topology.GeometricRandom`
def geometricRandomGraphOf (alpha : D) (range : List Int) (seed : Int64) : MixedGraph Int :=
  let r_square := squaredRadius math range.length alpha
  let close := fun (loc1 loc2 : Position D) =>
    math.lt (math.add (math.pow (math.sub loc1.x loc2.x) (math.ofInt 2))
      (math.pow (math.sub loc1.y loc2.y) (math.ofInt 2))) r_square
  geometric math close range seed

-- `neko.topology.Random`
def random (range : List Int) (seed : Int64) : MixedGraph Int :=
  let N := range.length
  let logN := math.log (math.ofInt N)
  let epsilon := math.div (math.mul (math.ofInt 2) logN) (math.sqrt (math.ofInt N))
  let threshold :=
    if N > 2 then math.div (math.mul (math.add (math.ofInt 1) epsilon) logN) (math.ofInt (N - 1))
    else math.ofInt 1
  erdosRenyi math (fun x => math.le x threshold) range seed

-- `neko.topology.GeometricRandom`, which does not use `alpha`
def geometricRandom (_alpha : D) (range : List Int) (seed : Int64) : MixedGraph Int :=
  let N := range.length
  let logN := math.log (math.ofInt N)
  let epsilon := math.add (math.ofInt 2) (math.div logN (math.sqrt (math.ofInt N)))
  let r_square := math.div (math.mul (math.ofInt 2) logN) (math.mul math.pi (math.ofInt N))
  let r := math.mul (math.sqrt r_square) epsilon
  let close := fun (loc1 loc2 : Position D) =>
    math.lt (math.hypot (math.sub loc1.x loc2.x) (math.sub loc1.y loc2.y)) r
  geometric math close range seed

/--
The objects that keep seeds.
-/
inductive Owner where
  | topology
  | random
  | geometricRandom
  | utilRandom
  | utilGeometricRandom
  deriving DecidableEq

inductive Generator (D : Type) where
  | randomGraphOf
  | geometricRandomGraphOf (alpha : D)
  | random
  | geometricRandom (alpha : D)
  | utilRandom
  | utilGeometricRandom (alpha : D)

def Generator.owner : Generator D → Owner
  -- the two share the seeds
  | randomGraphOf => .topology
  | geometricRandomGraphOf _ => .topology
  | random => .random
  | geometricRandom _ => .geometricRandom
  | utilRandom => .utilRandom
  | utilGeometricRandom _ => .utilGeometricRandom

def Generator.generate : Generator D → List Int → Int64 → MixedGraph Int
  | randomGraphOf => RandomTopology.randomGraphOf math
  | geometricRandomGraphOf alpha => RandomTopology.geometricRandomGraphOf math alpha
  | random => RandomTopology.random math
  | geometricRandom alpha => RandomTopology.geometricRandom math alpha
  | utilRandom => RandomTopology.randomGraphOf math
  | utilGeometricRandom alpha => RandomTopology.geometricRandomGraphOf math alpha

structure Call (D : Type) where
  generator : Generator D
  range : List Int

/--
The seeds, and the graphs that have been asked for.
-/
structure Objects (D : Type) where
  seeds : Owner → List Int → Option Int64 := fun _ _ => none
  built : List (Call D × MixedGraph Int) := []

/--
A call when the next number of the global generator is `nextLong`.
-/
def Objects.apply (objects : Objects D) (call : Call D) (nextLong : Int64) : Objects D :=
  let owner := call.generator.owner
  let seeds :=
    if (objects.seeds owner call.range).isSome then
      objects.seeds
    else
      Function.update objects.seeds owner
        (Function.update (objects.seeds owner) call.range (some nextLong))
  match seeds owner call.range with
  | some seed => ⟨seeds, objects.built ++ [(call, call.generator.generate math call.range seed)]⟩
  | none => objects

def lts : LTS (Objects D) (Call D × Int64) where
  init := fun objects => objects = {}
  step := fun objects (call, nextLong) objects' => objects' = objects.apply math call nextLong

end RandomTopology
