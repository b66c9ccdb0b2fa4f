import TensorLowering.Kernel.Blocks
import TensorLowering.Kernel.Elementwise
import TensorLowering.Kernel.Pad
import TensorLowering.Kernel.Reduce
import TensorLowering.Kernel.Scatter
import TensorLowering.Op
import TensorLowering.Shape.Reshape

/-!
# Computing operations

`Op.compute` gives the result of an operation on concrete tensors. It serves both to fold constants
while a graph is built and to evaluate a finished graph.
-/

namespace TensorLowering

namespace Tensor

/-- The elements in the shape that `target` lists. -/
def reshapeTo (specialZero : Bool) (data target : Tensor) : Except Error Tensor := do
  let dims ← Shape.reshape (some (data.shape.map some)) (← target.ints) specialZero
  match dims.mapM id with
  | some shape => data.reshape shape
  | none => throw (.shape .unresolved)

/-- The tensor without the listed axes of size 1, or without all of them if none are listed. -/
def squeeze (axes : List Int) (data : Tensor) : Except Error Tensor := do
  let dims ← Shape.squeeze (data.shape.map some) axes
  data.reshape ((dims.getD []).filterMap id)

/-- The tensor with axes of size 1 at the listed positions of the result. -/
def unsqueeze (axes : List Int) (data : Tensor) : Except Error Tensor := do
  data.reshape (← Shape.unsqueeze 1 data.shape axes)

end Tensor

namespace Op

/-- The result of an operation on the given tensors. -/
def compute (op : Op) (inputs : List Tensor) : Except Error Tensor :=
  match op with
  | parameter name _ _ => .error (.evaluation (.parameterValue name))
  | constant value => .ok value
  | convert target => op.unary inputs fun x => .ok (x.convert target)
  | add => op.binary inputs (Tensor.arithmetic Arithmetic.add)
  | subtract => op.binary inputs (Tensor.arithmetic Arithmetic.sub)
  | multiply => op.binary inputs (Tensor.arithmetic Arithmetic.mul)
  | less => op.binary inputs Tensor.less
  | sqrt => op.unary inputs (Tensor.mapFloat Trigonometry.sqrt)
  | cos => op.unary inputs (Tensor.mapFloat Trigonometry.cos)
  | sin => op.unary inputs (Tensor.mapFloat Trigonometry.sin)
  | atan2 => op.binary inputs Tensor.atan2
  | gather axis => op.binary inputs (Tensor.gather axis)
  | concat axis =>
    match inputs with
    | [] => .error (.graph .emptyConcat)
    | first :: others => Tensor.concat axis first others
  | pad mode =>
    match inputs with
    | [data, before, after] => Tensor.pad mode data before after none
    | [data, before, after, fill] => Tensor.pad mode data before after (some fill)
    | _ => .error (.graph (.padInputs mode inputs.length))
  | reduce kind keepDims => op.binary inputs (Tensor.reduce kind keepDims)
  | broadcast => op.binary inputs Tensor.broadcast
  | scatterNdUpdate => op.ternary inputs Tensor.scatter
  | select => op.ternary inputs Tensor.select
  | reshape specialZero => op.binary inputs (Tensor.reshapeTo specialZero)
  | squeeze axes => op.unary inputs (Tensor.squeeze axes)
  | unsqueeze axes => op.unary inputs (Tensor.unsqueeze axes)
  | shapeOf outputType => op.unary inputs fun x => .ok (.ofShape outputType x.shape)
  | complexMark _ => op.unary inputs .ok

end Op

end TensorLowering
