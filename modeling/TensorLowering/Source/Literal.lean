import TensorLowering.Binary
import TensorLowering.Shape.Volume
import TensorLowering.Source.Error

/-!
# Literals

A literal is a constant tensor as source graphs store it: its elements in little-endian byte order,
a complex element as its real part followed by its imaginary part. Nothing ties the number of bytes
to the type and the sizes; `validate` checks that they agree.
-/

namespace TensorLowering.Source

structure Literal where
  dtype : DataType
  dims : List Nat
  raw : List UInt8
deriving DecidableEq, Repr

/-- The `width` lowest bytes of a number, lowest first. -/
def littleEndian : (width : Nat) → Nat → List UInt8
  | 0, _ => []
  | width + 1, n => UInt8.ofNat n :: littleEndian width (n / 256)

/-- The number whose bytes are given, lowest first. -/
def ofLittleEndian : List UInt8 → Nat
  | [] => 0
  | byte :: bytes => byte.toNat + 256 * ofLittleEndian bytes

/-- The bytes in groups of `width`; an incomplete last group is left out. -/
def chunks (width : Nat) (bytes : List UInt8) : List (List UInt8) :=
  if width = 0 ∨ bytes.length < width then []
  else bytes.take width :: chunks width (bytes.drop width)
termination_by bytes.length
decreasing_by simp; omega

namespace Literal

/-- The number of elements that the sizes ask for. -/
def elementCount (literal : Literal) : Nat :=
  Shape.volume literal.dims

/-- A literal from the bit patterns of its elements or, for a complex type, of their parts. -/
def ofWords (dtype : DataType) (width : Nat) (words : List Nat) (dims : List Nat) : Literal :=
  ⟨dtype, dims, words.flatMap (littleEndian width)⟩

def ofF32 (values : List Binary32) (dims : List Nat) : Literal :=
  ofWords .f32 4 (values.map (·.bits.toNat)) dims

def ofF64 (values : List Binary64) (dims : List Nat) : Literal :=
  ofWords .f64 8 (values.map (·.bits.toNat)) dims

def ofI32 (values : List Int32) (dims : List Nat) : Literal :=
  ofWords .i32 4 (values.map (·.toUInt32.toNat)) dims

def ofI64 (values : List Int64) (dims : List Nat) : Literal :=
  ofWords .i64 8 (values.map (·.toUInt64.toNat)) dims

def ofBool (values : List Bool) (dims : List Nat) : Literal :=
  ofWords .bool 1 (values.map (·.toNat)) dims

/-- A literal from pairs of a real and an imaginary part. -/
def ofComplex64 (values : List (Binary32 × Binary32)) (dims : List Nat) : Literal :=
  ofWords .complex64 4
    (values.flatMap fun (real, imag) => [real.bits.toNat, imag.bits.toNat]) dims

/-- Checks that the number of bytes is what the type and the sizes ask for. -/
def validate (literal : Literal) : Except Error Unit :=
  let expected := literal.elementCount * literal.dtype.size
  if literal.raw.length = expected then .ok ()
  else .error (.literalSize literal.dtype literal.dims expected literal.raw.length)

end Literal

end TensorLowering.Source
