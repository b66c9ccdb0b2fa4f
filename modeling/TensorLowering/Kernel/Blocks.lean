import TensorLowering.Kernel.Access
import TensorLowering.Shape.Axes
import TensorLowering.Tensor

/-!
# Taking and joining slices

Along an axis, a tensor is a sequence of blocks for each coordinate of the axes before it: the
elements with a fixed coordinate on those axes and on the axis itself lie next to each other.
Gathering copies blocks by index, concatenation copies the whole sequences of its parts in turn.
-/

namespace TensorLowering

namespace Kernel

variable {α : Type}

/-- For each coordinate of the axes before `axis`, the blocks that the indices name. -/
def gather (shape : List Nat) (axis : Nat) (indices : List Nat) (data : Array α) :
    Except Error (Array α) := do
  let outer := Shape.volume (shape.take axis)
  let size := shape.getD axis 0
  let inner := Shape.volume (shape.drop (axis + 1))
  let rows ← (List.range outer).mapM fun o =>
    indices.mapM fun i => readBlock data ((o * size + i) * inner) inner
  return rows.flatten.flatten.toArray

/-- For each coordinate of the axes before `axis`, the elements of each part in turn. -/
def concat (axis : Nat) (first : List Nat) (parts : List (List Nat × Array α)) :
    Except Error (Array α) := do
  let outer := Shape.volume (first.take axis)
  let rows ← (List.range outer).mapM fun o =>
    parts.mapM fun (shape, data) =>
      let length := Shape.volume (shape.drop axis)
      readBlock data (o * length) length
  return rows.flatten.flatten.toArray

end Kernel

namespace Tensor

/-- The slices of `data` along `axis` that the indices name. -/
def gather (axis : Int) (data indices : Tensor) : Except Error Tensor := do
  let axis ← Shape.resolveAxis axis data.rank
  let named ← (← indices.ints).mapM (Shape.resolveIndex · (data.shape.getD axis 0))
  let shape := data.shape.take axis ++ indices.shape ++ data.shape.drop (axis + 1)
  ofData data.elementType shape (← Kernel.gather data.shape axis named data.data)

/-- Fails unless two shapes agree on every axis but one. -/
def matchShapes (axis : Nat) (first other : List Nat) : Except Error Unit :=
  if other.length = first.length ∧ other.eraseIdx axis = first.eraseIdx axis then .ok ()
  else .error (.shape (.concatShapes first other axis))

/-- The tensors side by side along `axis`. -/
def concat (axis : Int) (first : Tensor) (others : List Tensor) : Except Error Tensor := do
  let axis ← Shape.resolveAxis axis first.rank
  others.forM fun other => matchShapes axis first.shape other.shape
  let length := (first :: others).foldr (fun part length => part.shape.getD axis 0 + length) 0
  let parts ← (first :: others).mapM fun part => do
    return (part.shape, ← part.dataAs first.elementType)
  ofData first.elementType (first.shape.set axis length) (← Kernel.concat axis first.shape parts)

end Tensor

end TensorLowering
