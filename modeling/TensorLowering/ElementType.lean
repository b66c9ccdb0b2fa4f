import TensorLowering.Binary

/-!
# Element types

The element types of the target representation, and the Lean type that carries the elements of
each. Complex numbers are not among them: a complex tensor is a real tensor whose last axis has
size 2, holding the real and the imaginary part.
-/

namespace TensorLowering

/-- The element types that target tensors can have. -/
inductive ElementType where
  | f32
  | f64
  | i32
  | i64
  | bool
deriving DecidableEq, Repr

namespace ElementType

/-- The name under which messages and answers show the type. -/
def name : ElementType → String
  | f32 => "F32"
  | f64 => "F64"
  | i32 => "I32"
  | i64 => "I64"
  | bool => "Bool"

/-- The Lean type of one element: binary floats, machine integers, truth values. -/
abbrev Carrier : ElementType → Type
  | f32 => Binary32
  | f64 => Binary64
  | i32 => Int32
  | i64 => Int64
  | bool => Bool

def isFloat : ElementType → Bool
  | f32 | f64 => true
  | i32 | i64 | bool => false

def isInteger : ElementType → Bool
  | i32 | i64 => true
  | f32 | f64 | bool => false

/-- Arithmetic is defined on every type but `bool`. -/
def isNumeric (e : ElementType) : Bool :=
  e.isFloat || e.isInteger

/-- The zero of the type, `false` for truth values. -/
def zero : (e : ElementType) → e.Carrier
  | f32 => .zero
  | f64 => .zero
  | i32 => 0
  | i64 => 0
  | bool => false

instance : (e : ElementType) → DecidableEq e.Carrier
  | f32 => inferInstanceAs (DecidableEq Binary32)
  | f64 => inferInstanceAs (DecidableEq Binary64)
  | i32 => inferInstanceAs (DecidableEq Int32)
  | i64 => inferInstanceAs (DecidableEq Int64)
  | bool => inferInstanceAs (DecidableEq Bool)

end ElementType

end TensorLowering
