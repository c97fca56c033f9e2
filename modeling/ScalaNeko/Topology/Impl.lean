import Mathlib.Data.Finset.Card
import ScalaNeko.Topology.Impl.Range

/-!
Topologies, after `neko.topology`. Processes are given by their numbers, and the undirected graphs of the
library for graphs are finite graphs without loops.
-/

inductive Topology where
  | clique (range : Range)
  | ring (range : Range)
  -- `GraphTopology`
  | graph (underlying : FinGraph Int)
  -- the classes in `Combinator`
  | union (t1 t2 : Topology)
  | intersect (t1 t2 : Topology)
  | diff (t1 t2 : Topology)

namespace Topology

def processSet : Topology → Finset Int
  | clique range => range.toSet
  | ring range => range.toSet
  | graph underlying => underlying.nodes
  | union t1 t2 => t1.processSet ∪ t2.processSet
  | intersect t1 t2 => t1.processSet ∩ t2.processSet
  | diff t1 t2 => t1.processSet \ t2.processSet

def size : Topology → Nat
  | clique range => range.size
  | ring range => range.size
  | graph underlying => underlying.nodes.card
  | union t1 t2 => (union t1 t2).processSet.card
  | intersect t1 t2 => (intersect t1 t2).processSet.card
  | diff t1 t2 => (diff t1 t2).processSet.card

def contains : Topology → Int → Bool
  | clique range, process => process ∈ range.toSet
  | ring range, process => process ∈ range.toSet
  | graph underlying, process => process ∈ underlying.nodes
  | union t1 t2, process => process ∈ (union t1 t2).processSet
  | intersect t1 t2, process => t1.contains process && t2.contains process
  | diff t1 t2, process => t1.contains process && !t2.contains process

def underlying : Topology → FinGraph Int
  | clique range => (MixedGraph.cliqueOf range.toProcessRange).simple
  | ring range => (MixedGraph.ringOf range.toProcessRange).simple
  | graph underlying => underlying
  | union t1 t2 => t1.underlying.union t2.underlying
  | intersect t1 t2 => t1.underlying.intersect t2.underlying
  | diff t1 t2 => t1.underlying.diff t2.underlying

def someNonempty (res : Finset Int) : Option (Finset Int) := if res = ∅ then none else some res

def neighborsFor : Topology → Int → Option (Finset Int)
  | clique range, process =>
    if process ∈ range.toSet then some (range.toSet.erase process) else none
  | ring range, process =>
    if process ∈ range.toSet then
      some {range.prevOf process, range.nextOf process}
    else
      none
  | graph underlying, process =>
    if process ∈ underlying.nodes then some (underlying.neighbors process) else none
  | union t1 t2, process =>
    if process ∈ (union t1 t2).processSet then
      let n1 := (t1.neighborsFor process).getD ∅
      let n2 := (t2.neighborsFor process).getD ∅
      someNonempty (n1 ∪ n2)
    else
      none
  | intersect t1 t2, process =>
    let n1 := (t1.neighborsFor process).getD ∅
    let n2 := (t2.neighborsFor process).getD ∅
    someNonempty (n1 ∩ n2)
  | diff t1 t2, process =>
    let n1 := (t1.neighborsFor process).getD ∅
    someNonempty (n1 \ t2.processSet)

def numberOfEdges : Topology → Int
  | clique range => (int32 (range.size * int32 (range.size - 1))).tdiv 2
  | ring range => range.size
  | graph underlying => underlying.graphSize
  | union t1 t2 => (union t1 t2).underlying.graphSize
  | intersect t1 t2 => (intersect t1 t2).underlying.graphSize
  | diff t1 t2 => (diff t1 t2).underlying.graphSize

def isConnected : Topology → Bool
  | clique _ => true
  | ring _ => true
  | graph underlying => underlying.isConnected
  | union t1 t2 => (union t1 t2).underlying.isConnected
  | intersect t1 t2 => (intersect t1 t2).underlying.isConnected
  | diff t1 t2 => (diff t1 t2).underlying.isConnected

/-!
The methods that combine topologies.
-/

def unionWith (this that : Topology) : Topology :=
  match this with
  | clique _ => if that.processSet ⊆ this.processSet then this else union this that
  | graph underlying => graph (underlying.union that.underlying)
  | _ => union this that

def intersectWith (this that : Topology) : Topology :=
  match this with
  | graph underlying => graph (underlying.intersect that.underlying)
  | _ => intersect this that

def diffWith (this that : Topology) : Topology :=
  match this with
  | clique _ => if this.processSet ∩ that.processSet = ∅ then this else diff this that
  | ring _ => if this.processSet ∩ that.processSet = ∅ then this else diff this that
  | graph underlying => graph (underlying.diff that.underlying)
  | _ => diff this that

end Topology

/--
How a topology is built.
-/
inductive TopologyExpr where
  | clique (range : Range)
  | ring (range : Range)
  -- `Topology.from`
  | graph (underlying : FinGraph Int)
  | union (e1 e2 : TopologyExpr)
  | intersect (e1 e2 : TopologyExpr)
  | diff (e1 e2 : TopologyExpr)

def TopologyExpr.build : TopologyExpr → Topology
  | clique range => .clique range
  | ring range => .ring range
  | graph underlying => .graph underlying
  | union e1 e2 => e1.build.unionWith e2.build
  | intersect e1 e2 => e1.build.intersectWith e2.build
  | diff e1 e2 => e1.build.diffWith e2.build
