/-!
# Binary floating-point formats

A stored float is its bit pattern. Lean's own floats have one value that is not a number, while the
patterns of such values differ in sign and payload; tensors and literals keep the pattern, and
arithmetic goes through `Float32` and `Float`. So an element that is only moved comes out bit for
bit as it went in.
-/

namespace TensorLowering

/-- A single-precision float: sign, 8 bits of exponent, 23 bits of fraction. -/
structure Binary32 where
  bits : UInt32
deriving DecidableEq, Repr

/-- A double-precision float: sign, 11 bits of exponent, 52 bits of fraction. -/
structure Binary64 where
  bits : UInt64
deriving DecidableEq, Repr

namespace Binary32

/-- The value of a pattern; the patterns that are not a number have one value together. -/
def toFloat (x : Binary32) : Float32 :=
  Float32.ofBits x.bits

def ofFloat (x : Float32) : Binary32 :=
  ⟨x.toBits⟩

/-- Positive zero. -/
def zero : Binary32 :=
  ⟨0⟩

def isNaN (x : Binary32) : Bool :=
  x.toFloat.isNaN

/-- A function of one float, on patterns. -/
def map (f : Float32 → Float32) (x : Binary32) : Binary32 :=
  ofFloat (f x.toFloat)

/-- A function of two floats, on patterns. -/
def map₂ (f : Float32 → Float32 → Float32) (x y : Binary32) : Binary32 :=
  ofFloat (f x.toFloat y.toFloat)

/-- Strictly less; false whenever an operand is not a number. -/
def less (x y : Binary32) : Bool :=
  decide (x.toFloat < y.toFloat)

end Binary32

namespace Binary64

/-- The value of a pattern; the patterns that are not a number have one value together. -/
def toFloat (x : Binary64) : Float :=
  Float.ofBits x.bits

def ofFloat (x : Float) : Binary64 :=
  ⟨x.toBits⟩

/-- Positive zero. -/
def zero : Binary64 :=
  ⟨0⟩

def isNaN (x : Binary64) : Bool :=
  x.toFloat.isNaN

/-- A function of one float, on patterns. -/
def map (f : Float → Float) (x : Binary64) : Binary64 :=
  ofFloat (f x.toFloat)

/-- A function of two floats, on patterns. -/
def map₂ (f : Float → Float → Float) (x y : Binary64) : Binary64 :=
  ofFloat (f x.toFloat y.toFloat)

/-- Strictly less; false whenever an operand is not a number. -/
def less (x y : Binary64) : Bool :=
  decide (x.toFloat < y.toFloat)

end Binary64

end TensorLowering
