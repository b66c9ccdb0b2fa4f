import TensorLowering.ElementType

/-!
# Element arithmetic

Two records of operations on a carrier: `Arithmetic` for sums, products, comparisons and
reductions, `Trigonometry` for what only floats have. Kernels take the record as an argument, so
what they do to positions does not depend on what the operations do to elements.

Integers wrap around. Arithmetic that stops at an overflow agrees with this wherever it does not stop.
-/

namespace TensorLowering

/-- What elementwise arithmetic and reductions need of an element type. -/
structure Arithmetic (α : Type) where
  zero : α
  one : α
  add : α → α → α
  sub : α → α → α
  mul : α → α → α
  /-- Strictly less; false whenever an operand is not a number. -/
  less : α → α → Bool
  /-- A sum divided by a number of elements, which becomes a value of the type for that. -/
  divideByCount : α → Nat → Option α
  sqrt : α → α

/-- The functions that only floats have. -/
structure Trigonometry (α : Type) where
  sqrt : α → α
  cos : α → α
  sin : α → α
  atan2 : α → α → α

namespace Arithmetic

/-- The quotient of two signed words of which `least` is the least one. It is not there for a division
by zero, nor for the one that no word holds. -/
def quotient? {α : Type} [DecidableEq α] [Div α] [Neg α] [OfNat α 0] [OfNat α 1]
    (least x y : α) : Option α :=
  if y = 0 ∨ x = least ∧ y = -1 then none else some (x / y)

/-- Single precision throughout: no intermediate result is wider. -/
def f32 : Arithmetic Binary32 where
  zero := .zero
  one := .ofFloat 1
  add := .map₂ (· + ·)
  sub := .map₂ (· - ·)
  mul := .map₂ (· * ·)
  less := Binary32.less
  divideByCount x n := some (x.map (· / (UInt64.ofNat n).toFloat32))
  sqrt := .map Float32.sqrt

def f64 : Arithmetic Binary64 where
  zero := .zero
  one := .ofFloat 1
  add := .map₂ (· + ·)
  sub := .map₂ (· - ·)
  mul := .map₂ (· * ·)
  less := Binary64.less
  divideByCount x n := some (x.map (· / (UInt64.ofNat n).toFloat))
  sqrt := .map Float.sqrt

/-- Sums, differences and products wrap around, division truncates, the mean of no elements is zero,
and the root is rounded toward zero. -/
def i32 : Arithmetic Int32 where
  zero := 0
  one := 1
  add := (· + ·)
  sub := (· - ·)
  mul := (· * ·)
  less x y := decide (x < y)
  divideByCount x n := if n = 0 then some 0 else quotient? Int32.minValue x (Int32.ofNat n)
  sqrt x := x.toFloat.sqrt.toInt32

/-- Sums, differences and products wrap around, division truncates, the mean of no elements is zero,
and the root is rounded toward zero. -/
def i64 : Arithmetic Int64 where
  zero := 0
  one := 1
  add := (· + ·)
  sub := (· - ·)
  mul := (· * ·)
  less x y := decide (x < y)
  divideByCount x n := if n = 0 then some 0 else quotient? Int64.minValue x (Int64.ofNat n)
  sqrt x := x.toFloat.sqrt.toInt64

end Arithmetic

namespace Trigonometry

def f32 : Trigonometry Binary32 where
  sqrt := .map Float32.sqrt
  cos := .map Float32.cos
  sin := .map Float32.sin
  atan2 := .map₂ Float32.atan2

def f64 : Trigonometry Binary64 where
  sqrt := .map Float.sqrt
  cos := .map Float.cos
  sin := .map Float.sin
  atan2 := .map₂ Float.atan2

end Trigonometry

namespace ElementType

/-- The arithmetic of a numeric type. -/
def arithmetic? : (e : ElementType) → Option (Arithmetic e.Carrier)
  | f32 => some Arithmetic.f32
  | f64 => some Arithmetic.f64
  | i32 => some Arithmetic.i32
  | i64 => some Arithmetic.i64
  | bool => none

/-- The further functions of a float type. -/
def trigonometry? : (e : ElementType) → Option (Trigonometry e.Carrier)
  | f32 => some Trigonometry.f32
  | f64 => some Trigonometry.f64
  | i32 | i64 | bool => none

end ElementType

end TensorLowering
