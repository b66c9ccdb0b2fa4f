import TensorLowering.Digraph

/-!
# Order by readiness

`readyOrder` emits a vertex when all its predecessors were emitted. Vertices that became ready wait
on a stack; a vertex with several edges from its last predecessor is put there several times and
emitted once. On a graph without cycles every vertex is emitted.
-/

namespace TensorLowering.Digraph

/-- Emit vertices from the stack, whose top is its head; `emitted` has the latest first. Each step
takes one vertex off the stack, and an edge puts at most one vertex there, so the fuel of
`readyOrder` is enough. -/
def emitReady (g : Digraph) : (fuel : Nat) → (stack emitted : List Nat) → List Nat
  | 0, _, emitted => emitted
  | _ + 1, [], emitted => emitted
  | fuel + 1, v :: stack, emitted =>
    if emitted.contains v then g.emitReady fuel stack emitted
    else
      let emitted := v :: emitted
      let ready := (g.successors v).filter fun w => (g.predecessors w).all emitted.contains
      g.emitReady fuel (ready ++ stack) emitted

/-- Every vertex after its predecessors. Vertices without predecessors start on the stack, the one
with the highest number on top. -/
def readyOrder (g : Digraph) : List Nat :=
  let sources := (List.range g.size).filter fun v => (g.predecessors v).isEmpty
  (g.emitReady (g.size + g.edges.length) sources.reverse []).reverse

end TensorLowering.Digraph
