import TensorLowering.Lowering.Planes
import TensorLowering.Lowering.Rule

/-!
# Scattering into zeros

The inputs are the rows of indices, the updates, and the shape of the result. Complex updates are
scattered in packed form: the shape gains the axis with the real and imaginary parts.
-/

namespace TensorLowering.Lowering.Rule

open Dataflow (ValueId)
open Build (emit ints zeroLike)

/-- The shape of the stored elements of a result of the given shape. -/
def storedShape (updates : Lowered) (shape : ValueId) : Build ValueId := do
  if updates.isComplex then
    let pair ← ints [2]
    emit (.concat 0) [shape, pair]
  else return shape

/-- Scatters updates into a tensor of zeros. -/
def scatterNd : Rule where
  name := "ScatterNd"
  lower node := do
    node.check 3 ["ScatterNd", "SCATTER_ND"] true
    let indices ← node.plainInput 0 .notUpdates
    let shape ← node.plainInput 2 .notUpdates
    let updates ← node.input 1
    let fill ← zeroLike updates.elements
    let shape ← emit (.convert .i64) [shape]
    let target ← storedShape updates shape
    let zeros ← emit .broadcast [fill, target]
    let scattered ← emit .scatterNdUpdate [zeros, indices, updates.elements]
    match updates with
    | .plain _ => return [.plain scattered]
    | .complex value => return [← markComplex scattered value.partType]

end TensorLowering.Lowering.Rule
