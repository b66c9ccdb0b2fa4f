import TensorLowering.Lowering.Planes
import TensorLowering.Lowering.Rule

/-!
# Sums, differences and products

Operands broadcast against each other, and are all plain or all complex with parts of one type.
Sums and differences of complex operands work plane by plane; products mix the planes.
-/

namespace TensorLowering.Lowering.Rule

open Dataflow (ValueId)
open Build (emit)

/-- The sum of the values from left to right. -/
def sumOf (node : ResolvedNode) : List ValueId → Build ValueId
  | [] => throw (node.error (.arity 1 0))
  | first :: others => others.foldlM (fun sum value => emit .add [sum, value]) first

/-- The sum of any number of inputs. -/
def addN : Rule where
  name := "AddN"
  lower node := do
    node.check 1 ["AddN", "ADD_N"] true
    return [← planewise node node.inputs (sumOf node)]

/-- An operation on two inputs, applied to each plane of complex ones. -/
def perPlane (name : String) (opTypes : List String) (op : Op) : Rule where
  name := name
  lower node := do
    node.check 2 opTypes true
    let inputs := [← node.input 0, ← node.input 1]
    return [← planewise node inputs (emit op)]

def add : Rule :=
  perPlane "Add" ["Add", "AddV2"] .add

def sub : Rule :=
  perPlane "Sub" ["Sub"] .subtract

def mul : Rule where
  name := "Mul"
  lower node := do
    node.check 2 ["Mul"] true
    let x ← node.input 0
    let y ← node.input 1
    match ← node.pairMarking x y with
    | .plain x y => return [.plain (← emit .multiply [x, y])]
    | .complex partType x y =>
      let lhs ← x.planes
      let rhs ← y.planes
      return [← (← lhs.mul rhs).toComplex partType]

end TensorLowering.Lowering.Rule
