import TensorLowering.Tensor

/-!
# Operations

The operations of the target representation. Each takes a list of operands and gives one tensor.
Axes may be negative and then count from the back.
-/

namespace TensorLowering

inductive Op where
  /-- A tensor that is fed when the graph is evaluated. -/
  | parameter (name : String) (elementType : ElementType) (shape : PartialShape)
  | constant (value : Tensor)
  /-- The operand in another element type. -/
  | convert (target : ElementType)
  | add
  | subtract
  | multiply
  /-- Truth values: where the first operand is less than the second. -/
  | less
  | sqrt
  | cos
  | sin
  /-- The angle of the point whose ordinate is the first operand and abscissa the second. -/
  | atan2
  /-- The slices of the first operand along `axis` that the indices in the second name. -/
  | gather (axis : Int)
  /-- The operands side by side along `axis`. -/
  | concat (axis : Int)
  /-- The first operand with the second and third as the counts of added elements before and after
  each axis; in constant mode a fourth operand may give the fill. -/
  | pad (mode : PadMode)
  /-- The first operand combined along the axes that the second lists. -/
  | reduce (kind : ReduceKind) (keepDims : Bool)
  /-- The first operand broadcast against the shape that the second lists. -/
  | broadcast
  /-- The first operand with the slices that the rows of the second address replaced by those of the
  third. -/
  | scatterNdUpdate
  /-- The second operand where the first is true and the third elsewhere. -/
  | select
  /-- The first operand in the shape that the second lists. -/
  | reshape (specialZero : Bool)
  /-- The operand without the listed axes of size 1, without all of them if none are listed. -/
  | squeeze (axes : List Int)
  /-- The operand with axes of size 1 at the listed positions of the result. -/
  | unsqueeze (axes : List Int)
  /-- The shape of the operand as a vector of integers. -/
  | shapeOf (outputType : ElementType)
  /-- The operand itself, marked as a packed complex tensor with parts of the given type. -/
  | complexMark (partType : ElementType)
deriving DecidableEq

namespace Op

/-- The name that messages show and that names of nodes are made of. -/
def name : Op → String
  | parameter .. => "Parameter"
  | constant _ => "Constant"
  | convert _ => "Convert"
  | add => "Add"
  | subtract => "Subtract"
  | multiply => "Multiply"
  | less => "Less"
  | sqrt => "Sqrt"
  | cos => "Cos"
  | sin => "Sin"
  | atan2 => "Atan2"
  | gather _ => "Gather"
  | concat _ => "Concat"
  | pad _ => "Pad"
  | reduce kind _ => kind.name
  | broadcast => "Broadcast"
  | scatterNdUpdate => "ScatterNdUpdate"
  | select => "Select"
  | reshape _ => "Reshape"
  | squeeze _ => "Squeeze"
  | unsqueeze _ => "Unsqueeze"
  | shapeOf _ => "ShapeOf"
  | complexMark _ => "ComplexMark"

/-- The part type of a complex mark. -/
def partType? : Op → Option ElementType
  | complexMark partType => some partType
  | _ => none

def isComplexMark (op : Op) : Bool :=
  op.partType?.isSome

/-! ## Numbers of operands -/

section Arity

variable {α β : Type}

/-- Goes on if there is no operand. -/
def nullary (op : Op) (operands : List α) (next : Except Error β) : Except Error β :=
  match operands with
  | [] => next
  | _ => .error (.graph (.arity op.name 0 operands.length))

/-- Goes on with the one operand. -/
def unary (op : Op) (operands : List α) (next : α → Except Error β) : Except Error β :=
  match operands with
  | [x] => next x
  | _ => .error (.graph (.arity op.name 1 operands.length))

/-- Goes on with the two operands. -/
def binary (op : Op) (operands : List α) (next : α → α → Except Error β) : Except Error β :=
  match operands with
  | [x, y] => next x y
  | _ => .error (.graph (.arity op.name 2 operands.length))

/-- Goes on with the three operands. -/
def ternary (op : Op) (operands : List α) (next : α → α → α → Except Error β) :
    Except Error β :=
  match operands with
  | [x, y, z] => next x y z
  | _ => .error (.graph (.arity op.name 3 operands.length))

end Arity

end Op

end TensorLowering
