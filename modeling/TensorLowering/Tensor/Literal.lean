import TensorLowering.Source.Literal
import TensorLowering.Tensor

/-!
# Tensors from literals

A valid literal becomes a tensor of the type in which its elements are stored. A complex literal
becomes a packed tensor: its parts, with an additional last axis of size 2.
-/

namespace TensorLowering

/-- The target type of the elements; complex numbers have none. -/
def Source.DataType.toElementType (d : DataType) : Except TensorLowering.Error ElementType :=
  match d.elementType? with
  | some e => .ok e
  | none => .error (.unsupported d)

namespace ElementType

/-- The number of bytes in which a literal stores one element. -/
def byteWidth : ElementType → Nat
  | f32 | i32 => 4
  | f64 | i64 => 8
  | bool => 1

/-- The element with the given bit pattern; every pattern but zero is a true truth value. -/
def ofWord : (e : ElementType) → Nat → e.Carrier
  | f32, word => ⟨UInt32.ofNat word⟩
  | f64, word => ⟨UInt64.ofNat word⟩
  | i32, word => (UInt32.ofNat word).toInt32
  | i64, word => (UInt64.ofNat word).toInt64
  | bool, word => word != 0

end ElementType

namespace Tensor

/-- The shape of the stored parts of a literal. -/
def literalShape (literal : Source.Literal) : List Nat :=
  if literal.dtype.isComplex then literal.dims ++ [2] else literal.dims

/-- The tensor that a literal describes. -/
def ofLiteral (literal : Source.Literal) : Except Error Tensor :=
  match literal.validate with
  | .error cause => .error (.graph (.literal cause))
  | .ok () =>
    let e := literal.dtype.storageType
    let words := (Source.chunks e.byteWidth literal.raw).map Source.ofLittleEndian
    ofData e (literalShape literal) (words.map e.ofWord).toArray

end Tensor

end TensorLowering
