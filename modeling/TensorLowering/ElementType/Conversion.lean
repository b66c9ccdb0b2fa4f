import TensorLowering.ElementType

/-!
# Conversion between element types

An element is widened to a double or to a 64-bit integer and then narrowed to the target type, so
that one rule covers every pair of types:

* a float becomes an integer by truncation, clamped to the range of the target; a value that is
  not a number becomes zero;
* an integer becomes a narrower integer modulo its width, and a float by rounding to nearest;
* everything but zero is true, also a value that is not a number.
-/

namespace TensorLowering

/-- An element in the widest type of its kind. -/
inductive Widened where
  | real (x : Float)
  | whole (n : Int64)

namespace ElementType

def widen : (e : ElementType) → e.Carrier → Widened
  | f32, x => .real x.toFloat.toFloat
  | f64, x => .real x.toFloat
  | i32, n => .whole n.toInt64
  | i64, n => .whole n
  | bool, b => .whole (if b then 1 else 0)

def narrow : (e : ElementType) → Widened → e.Carrier
  | f32, .real x => .ofFloat x.toFloat32
  | f64, .real x => .ofFloat x
  | i32, .real x => x.toInt32
  | i64, .real x => x.toInt64
  | bool, .real x => x != 0
  | f32, .whole n => .ofFloat n.toFloat32
  | f64, .whole n => .ofFloat n.toFloat
  | i32, .whole n => n.toInt32
  | i64, .whole n => n
  | bool, .whole n => n != 0

/-- An element of type `source` as one of type `target`; an element of the target type already
stays as it is. -/
def convert (source target : ElementType) (x : source.Carrier) : target.Carrier :=
  if h : source = target then h ▸ x else target.narrow (source.widen x)

end ElementType

end TensorLowering
