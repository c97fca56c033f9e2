import Mathlib.Data.Int.Range
import ScalaNeko.Lib.MixedGraph

/-!
Ranges of processes, the functions that go round one of them, and the graphs that `Topology` builds for
it. An edge of the library for graphs is undirected or directed.
-/

-- The value of a 32-bit integer.
def int32 (x : Int) : Int := (x + 2 ^ 31) % 2 ^ 32 - 2 ^ 31

/--
A contiguous ascending range of process numbers that is not empty.
-/
structure ProcessRange where
  min : Int
  size : Nat
  one_le : 1 ≤ size
  size_lt : size < 2 ^ 31
  min_le : -2 ^ 31 ≤ min
  last_lt : min + size ≤ 2 ^ 31

structure Range extends ProcessRange where
  three_le : 3 ≤ size

namespace ProcessRange

def last (range : ProcessRange) : Int := range.min + range.size - 1

def toList (range : ProcessRange) : List Int := Int.range range.min (range.min + range.size)

def toSet (range : ProcessRange) : Finset Int := range.toList.toFinset

-- The private methods `nextOf` and `prevOf` of `Ring`, and of `DirectedRing`.

def nextOf (range : ProcessRange) (i : Int) : Int :=
  int32 ((int32 (int32 (i + 1) - range.min)).tmod range.size + range.min)

def prevOf (range : ProcessRange) (i : Int) : Int :=
  int32 ((int32 (int32 (int32 (i + range.size) - 1) - range.min)).tmod range.size + range.min)

-- `j` in the comprehensions of `ringOf` and `directedRingOf`
def following (range : ProcessRange) (i : Int) : Int := if i < range.last then i + 1 else range.min

end ProcessRange

namespace MixedGraph

def ringOf (range : ProcessRange) : MixedGraph Int :=
  graphFrom range.toList (range.toList.map fun i => .undi s(i, range.following i))

def cliqueOf (range : ProcessRange) : MixedGraph Int :=
  graphFrom range.toList
    (range.toList.flatMap fun i => (range.toList.filter fun j => j ≠ i).map fun j => .undi s(i, j))

def directedRingOf (range : ProcessRange) (ascending : Bool) : MixedGraph Int :=
  graphFrom range.toList
    (range.toList.map fun i =>
      let j := range.following i
      if ascending then .di i j else .di j i)

end MixedGraph
