import TensorLowering.Digraph

/-!
# Depth-first order

`depthFirstOrder` lists every vertex before its successors if the graph has no cycle, and otherwise
returns a vertex on a cycle. A vertex is placed, in front of all placed so far, when the search has
placed its successors. If afterwards some edge still points backwards, its consumer was under way
when its producer was placed, so the producer can be reached from the consumer: both lie on a cycle.
-/

namespace TensorLowering.Digraph

/-- A depth-first search under way. -/
structure Search where
  /-- The vertices that were reached. -/
  reached : List Nat := []
  /-- The vertices whose successors are all placed, the latest first. -/
  placed : List Nat := []
deriving DecidableEq, Repr

/-- Reach `v` and everything that can be reached from it for the first time. The fuel bounds the
depth of the search; more than the number of vertices is never needed. An edge from a vertex to
itself ends the search with that vertex. -/
def visit (g : Digraph) : (fuel : Nat) → Search → (v : Nat) → Except Nat Search
  | 0, search, _ => .ok search
  | fuel + 1, search, v =>
    if search.reached.contains v then .ok search
    else if (g.successors v).contains v then .error v
    else do
      let search := { search with reached := v :: search.reached }
      let search ← (g.successors v).foldlM (g.visit fuel) search
      return { search with placed := v :: search.placed }

/-- The producer of the first edge that points backwards in an order, looking at consumers in that
order; `earlier` holds what comes before. -/
def misplaced? (g : Digraph) : (earlier : List Nat) → (order : List Nat) → Option Nat
  | _, [] => none
  | earlier, v :: order =>
    match (g.predecessors v).find? fun p => !(v :: earlier).contains p with
    | some p => some p
    | none => g.misplaced? (v :: earlier) order

/-- All vertices with every producer before its consumers, or a vertex on a cycle. -/
def depthFirstOrder (g : Digraph) : Except Nat (List Nat) := do
  let search ← (List.range g.size).foldlM (g.visit (g.size + 1)) {}
  match g.misplaced? [] search.placed with
  | some v => throw v
  | none => return search.placed

end TensorLowering.Digraph
