import TensorLowering.Lowering.Builder
import TensorLowering.Lowering.ResolvedNode

/-!
# Planes of complex values

A packed tensor is split into its real and its imaginary plane, the planes are worked on as plain
tensors, and the results are packed and marked again. `planewise` does all of it for an operation
that treats the planes alike; `Planes.mul` multiplies complex numbers, which mixes the planes.
-/

namespace TensorLowering.Lowering

open Dataflow (ValueId)
open Build (emit int)

/-- The real and the imaginary part of a complex value, as plain tensors. -/
structure Planes where
  real : ValueId
  imag : ValueId
deriving DecidableEq, Repr

/-- The planes of a complex value, taken from the last axis of its packed tensor. -/
def ComplexValue.planes (value : ComplexValue) : Build Planes := do
  let realIndex ← int 0
  let imagIndex ← int 1
  let real ← emit (.gather (-1)) [value.packed, realIndex]
  let imag ← emit (.gather (-1)) [value.packed, imagIndex]
  return ⟨real, imag⟩

/-- Mark a packed tensor as complex. -/
def markComplex (packed : ValueId) (partType : ElementType) : Build Lowered := do
  let marker ← emit (.complexMark partType) [packed]
  return .complex ⟨marker, packed, partType⟩

namespace Planes

/-- The planes side by side on a new last axis. -/
def pack (planes : Planes) : Build ValueId := do
  let real ← emit (.unsqueeze [-1]) [planes.real]
  let imag ← emit (.unsqueeze [-1]) [planes.imag]
  emit (.concat (-1)) [real, imag]

/-- The complex value with the given planes. -/
def toComplex (planes : Planes) (partType : ElementType) : Build Lowered := do
  markComplex (← planes.pack) partType

/-- The product `(ac - bd) + (ad + bc)i` of `a + bi` and `c + di`. -/
def mul (lhs rhs : Planes) : Build Planes := do
  let ac ← emit .multiply [lhs.real, rhs.real]
  let bd ← emit .multiply [lhs.imag, rhs.imag]
  let ad ← emit .multiply [lhs.real, rhs.imag]
  let bc ← emit .multiply [lhs.imag, rhs.real]
  let real ← emit .subtract [ac, bd]
  let imag ← emit .add [ad, bc]
  return ⟨real, imag⟩

end Planes

/-- Apply an operation to plain inputs, or to the real planes and then to the imaginary planes of
complex ones. -/
def planewise (node : ResolvedNode) (inputs : List Lowered)
    (operation : List ValueId → Build ValueId) : Build Lowered := do
  match ← node.commonMarking inputs with
  | .plain values => return .plain (← operation values)
  | .complex partType values =>
    let planes ← values.mapM ComplexValue.planes
    let real ← operation (planes.map (·.real))
    let imag ← operation (planes.map (·.imag))
    (Planes.mk real imag).toComplex partType

end TensorLowering.Lowering
