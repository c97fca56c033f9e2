import ScalaNeko.Topology.Impl.Range

/-!
The classes `Clique`, `Ring` and `DirectedRing` over ranges of any length.
-/

-- What a topology answers.
structure TopologyDescriptor where
  processSet : Finset Int
  size : Nat
  neighborsFor : Int → Option (Finset Int)
  numberOfEdges : Int
  contains : Int → Bool
  isConnected : Bool
  underlying : MixedGraph Int

namespace TopologyDescriptor

def clique (range : ProcessRange) : TopologyDescriptor where
  processSet := range.toSet
  size := range.size
  neighborsFor process := if process ∈ range.toSet then some (range.toSet.erase process) else none
  numberOfEdges := (int32 (range.size * int32 (range.size - 1))).tdiv 2
  contains process := process ∈ range.toSet
  isConnected := true
  underlying := .cliqueOf range

def ring (range : ProcessRange) : TopologyDescriptor where
  processSet := range.toSet
  size := range.size
  neighborsFor process :=
    if process ∈ range.toSet then some {range.prevOf process, range.nextOf process} else none
  numberOfEdges := range.size
  contains process := process ∈ range.toSet
  isConnected := true
  underlying := .ringOf range

def directedRing (range : ProcessRange) (ascending : Bool) : TopologyDescriptor where
  processSet := range.toSet
  size := range.size
  neighborsFor process :=
    if process ∈ range.toSet then
      if ascending then some {range.nextOf process} else some {range.prevOf process}
    else
      none
  numberOfEdges := range.size
  contains process := process ∈ range.toSet
  isConnected := true
  underlying := .directedRingOf range ascending

end TopologyDescriptor
