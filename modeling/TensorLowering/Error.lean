import TensorLowering.Op.Kind
import TensorLowering.Shape.Partial
import TensorLowering.Source.Error

/-!
# Errors of typing, computation and evaluation

One type of causes per kind of error, and one `message` function per type. An operation appears
in a cause by its name, so that errors do not depend on what operations carry.
-/

namespace TensorLowering

/-- What is wrong with how a graph is put together. -/
inductive GraphError where
  | arity (op : String) (expected actual : Nat)
  | emptyConcat
  | padInputs (mode : PadMode) (actual : Nat)
  /-- The named node would mark a value that is marked as complex already. -/
  | markedTwice (name : String)
  | unknownValue (id : Nat)
  | unknownNode (index : Nat)
  | unknownName (name : String)
  | literal (cause : Source.Error)
deriving DecidableEq, Repr

/-- What is wrong with a shape, an axis, an index or a size. -/
inductive ShapeError where
  | dataLength (length : Nat) (shape : List Nat)
  | broadcast (left right : List (Option Nat)) (axis leftSize rightSize : Nat)
  /-- An operand that has to be a vector and has another rank. -/
  | vectorRank (op operand : String) (rank : Nat)
  | axisRange (axis : Int) (rank : Nat)
  | indexRange (index : Int) (size : Nat)
  | negativeSize (size : Int)
  | negativeTarget (size : Int)
  | scalarMark
  /-- A complex value whose last axis does not hold pairs. -/
  | markSize (size : Nat)
  | concatRanks (left right : Nat)
  | concatSizes (axis left right : Nat)
  | concatShapes (first other : List Nat) (axis : Nat)
  | padFill
  | padRank (length rank : Nat)
  | padLengths (before after rank : Nat)
  | padSize (before after : Int) (size : Nat)
  /-- The size is given as the coordinates were compared with it, as a signed number. -/
  | padReach (mode : PadMode) (size : Int) (axis : Nat)
  | scatterRank
  | scatterDepth (depth rank : Nat)
  | scatterUpdates (expected actual : List Nat)
  | inferredTwice
  | copiedAxis (axis : Nat)
  | inferredSize (elements : Nat) (target : List Int)
  | elementCount (elements : Nat) (target : List Int)
  | unresolved
  | squeeze (axis size : Nat)
  | repeatedAxes
deriving DecidableEq, Repr

/-- What an operation asks of the type of an operand. -/
inductive Demand where
  | numericInputs
  | numericInput
  | floatInput
  | floatInputs
  | boolInput
  | boolCondition
  | integerIndices
  | integerOutput
  | floatPart
  | integers (operand : String)
deriving DecidableEq, Repr

/-- What is wrong with an element type. -/
inductive TypeError where
  | operand (op : String) (demand : Demand) (actual : ElementType)
  | mixed (op : String) (first other : ElementType)
  | markPart (part actual : ElementType)
  | padFill (fill data : ElementType)
  | scatterUpdates (updates data : ElementType)
  | notInteger (actual : ElementType)
deriving DecidableEq, Repr

/-- What can go wrong when an operation is computed or a graph is evaluated. -/
inductive EvaluationError where
  | parameterValue (name : String)
  | unexpectedType (actual : ElementType)
  | boolArithmetic
  | boolComparison
  | floatOnly (actual : ElementType)
  | boolCondition
  | boolReduction (kind : ReduceKind) (actual : ElementType)
  | numericReduction (kind : ReduceKind)
  | emptyReduction (kind : ReduceKind)
  /-- A position outside the stored elements. -/
  | outOfRange (position size : Nat)
  /-- The number of elements of a shape is no word. -/
  | elementOverflow (shape : List Nat)
  /-- A sum cannot be divided by a number of elements as its type has it. -/
  | meanDivision (elements : Nat)
  /-- No vector has so many elements. -/
  | capacity (elements : Nat)
  | missingFeed (name : String)
  | feedType (name : String) (fed expected : ElementType)
  | feedShape (name : String) (fed : List Nat) (expected : PartialShape)
  | usedTooEarly (id : Nat)
  | notComputed (id : Nat)
deriving DecidableEq, Repr

/-- The causes that are no answers to a request: a program that meets one of them stops. -/
@[simp] def EvaluationError.stops : EvaluationError → Bool
  | outOfRange .. | elementOverflow _ | meanDivision _ | capacity _ => true
  | _ => false

/-- An error of the target representation, by kind. -/
inductive Error where
  | graph (cause : GraphError)
  | shape (cause : ShapeError)
  | type (cause : TypeError)
  /-- A source type that no target type can hold. -/
  | unsupported (dtype : Source.DataType)
  | evaluation (cause : EvaluationError)
deriving DecidableEq, Repr

def GraphError.message : GraphError → String
  | arity op expected actual => s!"{op} expects {expected} inputs, got {actual}"
  | emptyConcat => "Concat needs at least one input"
  | padInputs mode actual => "Pad in " ++ mode.name ++ s!" mode got {actual} inputs"
  | markedTwice name => s!"'{name}' would mark an already marked complex value"
  | unknownValue id => s!"Value IrValueId({id}) not found"
  | unknownNode index => s!"Node NodeIndex({index}) not found"
  | unknownName name => s!"Node '{name}' not found"
  | literal cause => cause.message

def ShapeError.message : ShapeError → String
  | dataLength length shape =>
    s!"Data length {length} doesn't match shape " ++ Text.naturals shape
  | broadcast left right axis leftSize rightSize =>
    "Cannot broadcast shapes " ++ Text.sizes left ++ " and " ++ Text.sizes right
      ++ s!" at dimension {axis} ({leftSize} vs {rightSize})"
  | vectorRank op operand rank => s!"{op} {operand} must be 1-D, got rank {rank}"
  | axisRange axis rank => s!"Axis {axis} is out of range for rank {rank}"
  | indexRange index size => s!"Index {index} is out of bounds for dimension of size {size}"
  | negativeSize size => s!"Invalid dimension {size}"
  | negativeTarget size => s!"Invalid broadcast dimension {size}"
  | scalarMark => "ComplexMark cannot wrap a scalar"
  | markSize size => s!"ComplexMark needs a trailing dimension of 2, got {size}"
  | concatRanks left right => s!"Concat inputs have different ranks ({left} vs {right})"
  | concatSizes axis left right =>
    s!"Concat inputs differ at dimension {axis} ({left} vs {right})"
  | concatShapes first other axis =>
    "Cannot concatenate " ++ Text.naturals first ++ " and " ++ Text.naturals other
      ++ s!" along axis {axis}"
  | padFill => "Pad value must be a scalar"
  | padRank length rank => s!"Pad bounds have length {length} but data has rank {rank}"
  | padLengths before after rank =>
    s!"Pad bounds of length {before}/{after} for data of rank {rank}"
  | padSize before after size =>
    s!"Padding ({before}, {after}) removes more than the {size} available elements"
  | padReach mode size axis =>
    mode.name ++ s!" padding reaches past a dimension of size {size} on axis {axis}"
  | scatterRank => "ScatterNdUpdate indices must have rank >= 1"
  | scatterDepth depth rank => s!"ScatterNdUpdate index depth {depth} exceeds data rank {rank}"
  | scatterUpdates expected actual =>
    "ScatterNdUpdate expects updates of shape " ++ Text.naturals expected ++ ", got "
      ++ Text.naturals actual
  | inferredTwice => "Reshape target may contain at most one -1"
  | copiedAxis axis => s!"Reshape copies dimension {axis} that the input does not have"
  | inferredSize elements target =>
    s!"Cannot infer reshape dimension: {elements} elements into " ++ Text.integers target
  | elementCount elements target =>
    s!"Cannot reshape {elements} elements into " ++ Text.integers target
  | unresolved => "Reshape left a dimension unresolved"
  | squeeze axis size => s!"Cannot squeeze axis {axis} of size {size}"
  | repeatedAxes => "Unsqueeze axes must be unique"

def Demand.text : Demand → String
  | numericInputs => "needs numeric inputs"
  | numericInput => "needs a numeric input"
  | floatInput => "needs a float input"
  | floatInputs => "needs float inputs"
  | boolInput => "needs a bool input"
  | boolCondition => "needs a bool condition"
  | integerIndices => "needs integer indices"
  | integerOutput => "needs an integer output type"
  | floatPart => "needs a float part type"
  | integers operand => s!"needs integer {operand}"

def TypeError.message : TypeError → String
  | operand op demand actual => op ++ " " ++ demand.text ++ ", got " ++ actual.name
  | mixed op first other =>
    op ++ " inputs must share an element type (" ++ first.name ++ " vs " ++ other.name ++ ")"
  | markPart part actual =>
    "ComplexMark with part type " ++ part.name ++ " wraps a " ++ actual.name ++ " value"
  | padFill fill data => "Pad value is " ++ fill.name ++ " but data is " ++ data.name
  | scatterUpdates updates data =>
    "ScatterNdUpdate updates are " ++ updates.name ++ " but data is " ++ data.name
  | notInteger actual => "Expected an integer tensor, got " ++ actual.name

def EvaluationError.message : EvaluationError → String
  | parameterValue name => s!"Parameter '{name}' has no value without a feed"
  | unexpectedType actual => "Unexpected element type " ++ actual.name
  | boolArithmetic => "Arithmetic on bool tensors"
  | boolComparison => "Less on bool tensors"
  | floatOnly actual => "Float op applied to " ++ actual.name ++ " tensor"
  | boolCondition => "Select condition must be bool"
  | boolReduction kind actual => kind.name ++ " needs a bool tensor, got " ++ actual.name
  | numericReduction kind => kind.name ++ " on a numeric tensor"
  | emptyReduction kind => kind.name ++ " over an empty axis"
  | outOfRange position size => s!"Position {position} is outside of {size} elements"
  | elementOverflow shape =>
    "The number of elements of shape " ++ Text.naturals shape ++ " overflows"
  | meanDivision elements => s!"Cannot divide a sum by the number {elements}"
  | capacity elements => s!"No vector holds {elements} elements"
  | missingFeed name => s!"No feed for parameter '{name}'"
  | feedType name fed expected =>
    s!"Feed for '{name}' is " ++ fed.name ++ ", parameter is " ++ expected.name
  | feedShape name fed expected =>
    s!"Feed for '{name}' has shape " ++ Text.naturals fed ++ ", parameter expects "
      ++ expected.text
  | usedTooEarly id => s!"Value IrValueId({id}) used before it was computed"
  | notComputed id => s!"Output IrValueId({id}) was not computed"

def Error.message : Error → String
  | graph cause => "Invalid graph structure: " ++ cause.message
  | shape cause => "Shape error: " ++ cause.message
  | type cause => "Type error: " ++ cause.message
  | unsupported dtype =>
    "Unsupported operation: " ++ dtype.name ++ " has no native element type in the IR"
  | evaluation cause => "Evaluation error: " ++ cause.message

end TensorLowering
