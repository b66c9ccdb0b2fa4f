import TensorLowering.Lowering.Planes
import TensorLowering.Lowering.Rule
import TensorLowering.Tensor.Literal

/-!
# Constants and identity

Rules for nodes that embed a literal or pass their input on.
-/

namespace TensorLowering.Lowering.Rule

open Build (constant)

/-- Embeds the literal in the attribute `value`; a complex one becomes a marked packed constant. -/
def const : Rule where
  name := "Const"
  lower node := do
    node.check 0 ["Const"] true
    let literal ← node.attr .tensor "value"
    match Tensor.ofLiteral literal with
    | .error cause => throw (node.error (.target cause))
    | .ok value =>
      let id ← constant value
      if literal.dtype.isComplex then return [← markComplex id literal.dtype.storageType]
      else return [.plain id]

/-- Passes its input on, the mark of a complex one included. -/
def identity : Rule where
  name := "Identity"
  lower node := do
    node.check 1 ["Identity"] true
    return [← node.input 0]

end TensorLowering.Lowering.Rule
