import TensorLowering.Kernel.Access
import TensorLowering.Shape.Axes
import TensorLowering.Shape.Walk
import TensorLowering.Tensor

/-!
# Scattering

The last axis of the indices holds rows; a row addresses a slice of the data by the coordinates of
its first axes. The slices are replaced row by row, so the last of several rows with the same
address wins.
-/

namespace TensorLowering

namespace Kernel

variable {α : Type}

/-- The flat position of the slice that a row addresses, from the sizes and strides of the data. -/
def rowOffset : List Int → List Nat → List Nat → Except Error Nat
  | index :: row, size :: sizes, stride :: strides => do
    let i ← Shape.resolveIndex index size
    return i * stride + (← rowOffset row sizes strides)
  | _, _, _ => .ok 0

/-- The flat positions that `count` rows of length `depth` address. -/
def rowOffsets (shape : List Nat) (count depth : Nat) (indices : Array Int) :
    Except Error (List Nat) :=
  (List.range count).mapM fun r => do
    let row ← readBlock indices (r * depth) depth
    rowOffset row shape (Shape.strides shape)

/-- The data with the block of updates of each row written at the offset of the row. -/
def scatter (data updates : Array α) (offsets : List Nat) : Except Error (Array α) :=
  let length := updates.size / offsets.length
  offsets.zipIdx.foldlM (fun written (offset, r) => do
    writeBlock written offset (← readBlock updates (r * length) length)) data

end Kernel

namespace Tensor

/-- The data with the slices that the rows of `indices` address replaced by those of `updates`. -/
def scatter (data indices updates : Tensor) : Except Error Tensor := do
  let expected ← Shape.updatesShape data.shape indices.shape
  if expected ≠ updates.shape then
    throw (.shape (.scatterUpdates expected updates.shape))
  let count := Shape.volume indices.shape.dropLast
  let depth := indices.shape.getLastD 0
  let offsets ← Kernel.rowOffsets data.shape count depth (← indices.ints).toArray
  let elements ← updates.dataAs data.elementType
  ofData data.elementType data.shape (← Kernel.scatter data.data elements offsets)

end Tensor

end TensorLowering
