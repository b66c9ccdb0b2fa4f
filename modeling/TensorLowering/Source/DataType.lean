import TensorLowering.ElementType

/-!
# Data types of source graphs

A source graph may use the element types of the target and, besides them, complex numbers with
single or double precision parts.
-/

namespace TensorLowering.Source

inductive DataType where
  | f32
  | f64
  | i32
  | i64
  | bool
  /-- A pair of single precision floats. -/
  | complex64
  /-- A pair of double precision floats. -/
  | complex128
deriving DecidableEq, Repr

namespace DataType

/-- The name under which messages and answers show the type. -/
def name : DataType → String
  | f32 => "F32"
  | f64 => "F64"
  | i32 => "I32"
  | i64 => "I64"
  | bool => "Bool"
  | complex64 => "Complex64"
  | complex128 => "Complex128"

/-- The size of one element in bytes. -/
def size : DataType → Nat
  | bool => 1
  | f32 | i32 => 4
  | f64 | i64 | complex64 => 8
  | complex128 => 16

/-- The type of the real and the imaginary part of a complex type. -/
def part? : DataType → Option DataType
  | complex64 => some f32
  | complex128 => some f64
  | f32 | f64 | i32 | i64 | bool => none

def isComplex (d : DataType) : Bool :=
  d.part?.isSome

/-- The target type with the same elements; a complex type has none. -/
def elementType? : DataType → Option ElementType
  | f32 => some .f32
  | f64 => some .f64
  | i32 => some .i32
  | i64 => some .i64
  | bool => some .bool
  | complex64 | complex128 => none

/-- The type in which the parts of an element are stored: the type itself when it is real. -/
def storageType : DataType → ElementType
  | f32 | complex64 => .f32
  | f64 | complex128 => .f64
  | i32 => .i32
  | i64 => .i64
  | bool => .bool

end DataType

end TensorLowering.Source
