import ScalaNeko.Topology.Impl.Descriptor

/-!
The grids and tori that `Topology` builds, and the grid over a range in `neko.util.Topology`.
-/

namespace MixedGraph

-- The sequence that `(dx, dy)` is taken from.
def moves (withDiagonals : Bool) : List (Int × Int) :=
  if withDiagonals then [(1, 0), (0, 1), (1, 1), (-1, 1)] else [(1, 0), (0, 1)]

-- `startingAt + x + y * width`
def numberAt (width startingAt x y : Int) : Int := int32 (int32 (startingAt + x) + int32 (y * width))

-- What `gridOf` and `torusOf` have in common. The sums `x + dx` and `y + dy` do not overflow.
def latticeOf (width height startingAt : Int) (withDiagonals : Bool) (keep : Int → Int → Bool)
    (wrap : Int → Int → Int × Int)
    : MixedGraph Int :=
  let edges :=
    (Int.range 0 width).flatMap fun x =>
      (Int.range 0 height).flatMap fun y =>
        ((moves withDiagonals).filter fun (dx, dy) => keep (x + dx) (y + dy)).map fun (dx, dy) =>
          let (tx, ty) := wrap (x + dx) (y + dy)
          let i := numberAt width startingAt x y
          let j := numberAt width startingAt tx ty
          .undi s(i, j)
  let nodes := Int.range startingAt (int32 (startingAt + int32 (height * width)))
  graphFrom nodes edges

def gridOf (width height startingAt : Int) (withDiagonals : Bool) : MixedGraph Int :=
  latticeOf width height startingAt withDiagonals
    (fun x y => 0 ≤ x && x < width && y < height)
    (fun x y => (x, y))

def torusOf (width height startingAt : Int) (withDiagonals : Bool) : MixedGraph Int :=
  latticeOf width height startingAt withDiagonals
    (fun x _ => 0 ≤ x)
    (fun x y => (x.tmod width, y.tmod height))

end MixedGraph

namespace RangeGrid

-- `math.ceil(math.sqrt(n)).toInt`, which is exact for every `n` of type `Int`
def ceilSqrt (n : Nat) : Nat := if n.sqrt * n.sqrt = n then n.sqrt else n.sqrt + 1

-- An edge starts from a process above zero, so that no sum overflows.
def apply (range : ProcessRange) : MixedGraph Int :=
  let side := ceilSqrt range.size
  let edges :=
    range.toList.flatMap fun i =>
      let x := i.tmod side
      let y := i.tdiv side
      ([(-1, 0), (0, -1)].filter fun ((dx, dy) : Int × Int) => x + dx ≥ 0 && y + dy ≥ 0).map
        fun (dx, dy) => .undi s(i, i + dx + side * dy)
  .graphFrom range.toList edges

end RangeGrid
