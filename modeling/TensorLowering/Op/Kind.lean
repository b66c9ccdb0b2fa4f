/-!
# Padding modes and reductions

The two enumerations that operations carry as parameters.
-/

namespace TensorLowering

/-- What padding puts outside the data. -/
inductive PadMode where
  /-- A fill value. -/
  | constant
  /-- The border element, repeated. -/
  | edge
  /-- The data mirrored at the border element, which is not repeated. -/
  | reflect
  /-- The data mirrored between the border element and its copy. -/
  | symmetric
deriving DecidableEq, Repr

/-- How a reduction combines the elements of a slice. -/
inductive ReduceKind where
  | sum
  | mean
  | min
  | max
  | prod
  | logicalAnd
  | logicalOr
  /-- The root of the sum of squares. -/
  | l2
deriving DecidableEq, Repr

namespace PadMode

def name : PadMode → String
  | constant => "Constant"
  | edge => "Edge"
  | reflect => "Reflect"
  | symmetric => "Symmetric"

end PadMode

namespace ReduceKind

def name : ReduceKind → String
  | sum => "ReduceSum"
  | mean => "ReduceMean"
  | min => "ReduceMin"
  | max => "ReduceMax"
  | prod => "ReduceProd"
  | logicalAnd => "ReduceLogicalAnd"
  | logicalOr => "ReduceLogicalOr"
  | l2 => "ReduceL2"

/-- Logical reductions take truth values, the others numbers. -/
def isLogical : ReduceKind → Bool
  | logicalAnd | logicalOr => true
  | sum | mean | min | max | prod | l2 => false

end ReduceKind

end TensorLowering
