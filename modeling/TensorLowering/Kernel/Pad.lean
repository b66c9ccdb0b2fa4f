import TensorLowering.Kernel.Access
import TensorLowering.Shape.Axes
import TensorLowering.Shape.Walk
import TensorLowering.Tensor

/-!
# Padding

Each element of the result is an element of the data or the fill value. `padAxis` says for one axis
which coordinate of the data is read, `padSource` combines the axes to a flat position.
-/

namespace TensorLowering

namespace Kernel

/-- The coordinate that is read for coordinate `c` of the data, which may lie outside of it; `none`
is the fill value. Mirroring too far gives a coordinate that is again outside. -/
def padAxis (mode : PadMode) (size c : Int) : Option Int :=
  if 0 ≤ c ∧ c < size then some c
  else match mode with
    | .constant => none
    | .edge => some (min (max c 0) (Word.signed (size - 1)))
    | .reflect => some (Word.signed (if c < 0 then -c else 2 * (size - 1) - c))
    | .symmetric => some (Word.signed (if c < 0 then -c - 1 else 2 * size - 1 - c))

/-- The flat position of the data that a coordinate of the result reads, from `axis` on. The lists
are the sizes and strides of the data, the counts of elements added before each axis, and the
coordinate. -/
def padSource (mode : PadMode) :
    (axis : Nat) → List Nat → List Nat → List Int → List Nat → Except Error (Option Nat)
  | axis, size :: sizes, stride :: strides, before :: befores, c :: coordinate =>
    let signed := Shape.signedSize size
    match padAxis mode signed (Word.signed (c - before)) with
    | none => .ok none
    | some i =>
      if 0 ≤ i ∧ i < signed then do
        let later ← padSource mode (axis + 1) sizes strides befores coordinate
        return later.map (i.toNat * stride + ·)
      else .error (.shape (.padReach mode signed axis))
  | _, _, _, _, _ => .ok (some 0)

/-- For every element of the result, the flat position that it reads, or `none` for the fill. -/
def padSources (mode : PadMode) (shape : List Nat) (before : List Int) (result : List Nat) :
    Except Error (List (Option Nat)) :=
  (Shape.walk result).mapM (padSource mode 0 shape (Shape.strides shape) before)

end Kernel

namespace Tensor

/-- The sizes after padding. -/
def paddedShape : List Nat → List Int → List Int → Except Error (List Nat)
  | size :: sizes, before :: befores, after :: afters => do
    let padded ← Shape.paddedSize size before after
    return padded :: (← paddedShape sizes befores afters)
  | _, _, _ => .ok []

/-- The data with elements added before and after each axis, or removed where a count is negative.
The fill value defaults to zero, and is read for every element of the result, whether it is taken for
it or not. -/
def pad (mode : PadMode) (data before after : Tensor) (fill : Option Tensor) :
    Except Error Tensor := do
  let before ← before.ints
  let after ← after.ints
  if before.length ≠ data.rank ∨ after.length ≠ data.rank then
    throw (.shape (.padLengths before.length after.length data.rank))
  let shape ← paddedShape data.shape before after
  let plan ← Kernel.padSources mode data.shape before shape
  let fillData ← (fill.getD (zero data.elementType)).dataAs data.elementType
  let elements ← plan.mapM fun source => do
    let filled ← Kernel.read fillData 0
    match source with
    | some position => Kernel.read data.data position
    | none => return filled
  ofData data.elementType shape elements.toArray

end Tensor

end TensorLowering
