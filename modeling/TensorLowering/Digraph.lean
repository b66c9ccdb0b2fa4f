/-!
# Directed graphs

Vertices are numbers below `size`, edges a list in the order in which they were added. An edge may
occur several times. Both orders of the library, depth first and by a list of ready vertices, visit
neighbours in the order of the edges.
-/

namespace TensorLowering

structure Digraph where
  size : Nat
  /-- Pairs of a producer and a consumer, oldest first. -/
  edges : List (Nat × Nat)
deriving DecidableEq, Repr

namespace Digraph

/-- The vertices that `v` has an edge to, one per edge. -/
def successors (g : Digraph) (v : Nat) : List Nat :=
  g.edges.filterMap fun (producer, consumer) => if producer = v then some consumer else none

/-- The vertices that have an edge to `v`, one per edge. -/
def predecessors (g : Digraph) (v : Nat) : List Nat :=
  g.edges.filterMap fun (producer, consumer) => if consumer = v then some producer else none

end Digraph

end TensorLowering
