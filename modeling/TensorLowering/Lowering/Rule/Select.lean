import TensorLowering.Lowering.Planes
import TensorLowering.Lowering.Rule

/-!
# Selection

Rules for choosing between two tensors by a condition. In the newer form all three broadcast
against each other. In the older form the condition has the shape of the branches, or is a vector
along their first axis, or a scalar; it is reshaped so that broadcasting does the same.
-/

namespace TensorLowering.Lowering.Rule

open Dataflow (ValueId)
open Build (emit int shapeOf rankOf)

/-- The condition with axes of size 1 added at the end up to the rank of `x`, which is plain. -/
def extendCondition (condition x : ValueId) : Build ValueId := do
  let conditionShape ← shapeOf condition
  let conditionRank ← shapeOf conditionShape
  let xRank ← rankOf x
  let missing ← emit .subtract [xRank, conditionRank]
  let one ← int 1
  let ones ← emit .broadcast [one, missing]
  let shape ← emit (.concat 0) [conditionShape, ones]
  emit (.reshape false) [condition, shape]

/-- Selection where `prepare` readies the condition for the branches, given one of them or its real
plane. -/
def selection (name : String) (prepare : ValueId → ValueId → Build ValueId) : Rule where
  name := name
  lower node := do
    node.check 3 [name] true
    let condition ← node.plainInput 0 .condition
    let x ← node.input 1
    let y ← node.input 2
    match ← node.pairMarking x y with
    | .plain x y =>
      let condition ← prepare condition x
      return [.plain (← emit .select [condition, x, y])]
    | .complex partType x y =>
      let x ← x.planes
      let y ← y.planes
      let condition ← prepare condition x.real
      let real ← emit .select [condition, x.real, y.real]
      let imag ← emit .select [condition, x.imag, y.imag]
      return [← (Planes.mk real imag).toComplex partType]

/-- The older form. -/
def select : Rule :=
  selection "Select" extendCondition

/-- The newer form. -/
def selectV2 : Rule :=
  selection "SelectV2" fun condition _ => pure condition

end TensorLowering.Lowering.Rule
