import TensorLowering.Op
import TensorLowering.Shape.Broadcast
import TensorLowering.Shape.Reshape

/-!
# Typing of operations

`Op.infer` gives the element type and the partial shape of a result from what is known about the
operands: their types and, for some, their contents. It rejects an operation whose operands are too
few or too many, have the wrong element types, or have shapes that cannot fit whatever the open
sizes turn out to be. What it cannot tell yet is checked when the operation is computed.
-/

namespace TensorLowering

/-- What is known about a tensor before run time: its element type and part of its shape. -/
structure TensorType where
  elementType : ElementType
  shape : PartialShape
deriving DecidableEq, Repr

/-- What is known about an operand: its type and perhaps its contents. -/
structure Operand extends TensorType where
  contents : Option Tensor := none
deriving DecidableEq

namespace Operand

/-- The integers that an operand with known contents holds. -/
def ints? (operand : Operand) : Except Error (Option (List Int)) :=
  match operand.contents with
  | none => .ok none
  | some tensor => do return some (← tensor.ints)

end Operand

namespace Op

/-! ## Demands on operands -/

/-- Fails with the demand that an element type does not meet. -/
def demand (op : Op) (holds : Bool) (demand : Demand) (actual : ElementType) :
    Except Error Unit :=
  if holds then .ok () else .error (.type (.operand op.name demand actual))

/-- The element type that all operands have. -/
def commonType (op : Op) (first : Operand) (others : List Operand) : Except Error ElementType :=
  match others.find? (·.elementType != first.elementType) with
  | some other => .error (.type (.mixed op.name first.elementType other.elementType))
  | none => .ok first.elementType

/-- Demands a vector of integers, or a single one where `allowScalar` says so. -/
def integerVector (op : Op) (operand : Operand) (role : String) (allowScalar : Bool) :
    Except Error Unit := do
  op.demand operand.elementType.isInteger (.integers role) operand.elementType
  match operand.shape.rank? with
  | none | some 1 => return ()
  | some rank =>
    if rank = 0 ∧ allowScalar then return ()
    else throw (.shape (.vectorRank op.name role rank))

/-- The shape that all operands broadcast to; unknown as soon as one of them is unranked. -/
def broadcastAll (operands : List Operand) : Except Error PartialShape := do
  let dims ← operands.foldlM (fun (dims : Option (List (Option Nat))) operand =>
    match dims, operand.shape.dims? with
    | some left, some right => do return some (← Shape.broadcastPartial left right)
    | _, _ => .ok none) (some [])
  return .ofDims? dims

/-! ## Rules by operation -/

/-- Sums, differences and products: numbers of one type, broadcast. -/
def inferArithmetic (op : Op) (x y : Operand) : Except Error TensorType := do
  let e ← op.commonType x [y]
  op.demand e.isNumeric .numericInputs e
  return ⟨e, ← broadcastAll [x, y]⟩

def inferLess (op : Op) (x y : Operand) : Except Error TensorType := do
  let e ← op.commonType x [y]
  op.demand e.isNumeric .numericInputs e
  return ⟨.bool, ← broadcastAll [x, y]⟩

/-- Functions of one float. -/
def inferFloat (op : Op) (x : Operand) : Except Error TensorType := do
  op.demand x.elementType.isFloat .floatInput x.elementType
  return x.toTensorType

def inferAtan2 (op : Op) (y x : Operand) : Except Error TensorType := do
  let e ← op.commonType y [x]
  op.demand e.isFloat .floatInputs e
  return ⟨e, ← broadcastAll [y, x]⟩

def inferGather (op : Op) (axis : Int) (data indices : Operand) : Except Error TensorType := do
  op.demand indices.elementType.isInteger .integerIndices indices.elementType
  match data.shape.dims?, indices.shape.dims? with
  | some dims, some indexDims => do
    let axis ← Shape.resolveAxis axis dims.length
    match dims[axis]?, ← indices.ints? with
    | some (some size), some values => values.forM fun i => do discard (Shape.resolveIndex i size)
    | _, _ => pure ()
    return ⟨data.elementType, .ofSizes (dims.take axis ++ indexDims ++ dims.drop (axis + 1))⟩
  | _, _ => return ⟨data.elementType, .unranked⟩

/-- One axis of two parts that are put side by side along another axis. -/
def concatOtherDim (axis : Nat) : Option Nat → Option Nat → Except Error (Option Nat)
  | some x, some y =>
    if x = y then .ok (some x) else .error (.shape (.concatSizes axis x y))
  | some x, none => .ok (some x)
  | none, dim => .ok dim

/-- The axis along which two parts are put side by side. -/
def concatDim : Option Nat → Option Nat → Option Nat
  | some x, some y => some (x + y)
  | _, _ => none

/-- The dims of two ranked parts side by side along `axis`. -/
def concatDims (axis : Nat) (left right : List (Option Nat)) :
    Except Error (List (Option Nat)) :=
  if left.length = right.length then
    (List.zip left right).zipIdx.mapM fun ((x, y), i) =>
      if i = axis then .ok (concatDim x y) else concatOtherDim i x y
  else .error (.shape (.concatRanks left.length right.length))

/-- The dims of the ranked operands side by side, if there are any. -/
def concatRanked (axis : Int) (operands : List Operand) :
    Except Error (Option (List (Option Nat))) :=
  operands.foldlM (fun joined operand =>
    match operand.shape.dims? with
    | none => .ok joined
    | some dims => do
      let a ← Shape.resolveAxis axis dims.length
      match joined with
      | none => return some dims
      | some joined => return some (← concatDims a joined dims)) none

/-- An operand of unknown rank leaves the length along the axis open. -/
def inferConcat (op : Op) (axis : Int) (first : Operand) (others : List Operand) :
    Except Error TensorType := do
  let e ← op.commonType first others
  match ← concatRanked axis (first :: others) with
  | none => return ⟨e, .unranked⟩
  | some dims =>
    if (first :: others).all (·.shape.rank?.isSome) then
      return ⟨e, .ofSizes dims⟩
    else
      let a ← Shape.resolveAxis axis dims.length
      return ⟨e, .ofSizes (dims.set a none)⟩

/-- The sizes after padding; a size is open unless it and both of its bounds are known. -/
def paddedDims (before after : Option (List Int)) (dims : List (Option Nat)) :
    Except Error (List (Option Nat)) :=
  dims.zipIdx.mapM fun (dim, axis) =>
    match dim, before.bind (·[axis]?), after.bind (·[axis]?) with
    | some size, some b, some a => do return some (← Shape.paddedSize size b a)
    | _, _, _ => .ok none

def inferPad (op : Op) (data before after : Operand) (fill : Option Operand) :
    Except Error TensorType := do
  op.integerVector before "pads_begin" false
  op.integerVector after "pads_end" false
  if let some fill := fill then
    if fill.elementType ≠ data.elementType then
      throw (.type (.padFill fill.elementType data.elementType))
    if fill.shape.rank?.any (· != 0) then
      throw (.shape .padFill)
  match data.shape.dims? with
  | none => return ⟨data.elementType, .unranked⟩
  | some dims =>
    [before, after].forM fun bound =>
      match bound.shape.firstSize? with
      | some length =>
        if length = dims.length then .ok () else .error (.shape (.padRank length dims.length))
      | none => .ok ()
    return ⟨data.elementType, .ofSizes (← paddedDims (← before.ints?) (← after.ints?) dims)⟩

def inferReduce (op : Op) (kind : ReduceKind) (keepDims : Bool) (data axes : Operand) :
    Except Error TensorType := do
  let e := data.elementType
  if kind.isLogical then op.demand (e == .bool) .boolInput e
  else op.demand e.isNumeric .numericInput e
  op.integerVector axes "axes" true
  match data.shape.dims?, ← axes.ints? with
  | some dims, some values =>
    let axes ← Shape.resolveAxes values dims.length
    return ⟨e, .ofSizes (Shape.collapse (some 1) keepDims axes dims)⟩
  | some dims, none =>
    return ⟨e, if keepDims then .ofSizes (dims.map fun _ => none) else .unranked⟩
  | none, _ => return ⟨e, .unranked⟩

def inferBroadcast (op : Op) (data target : Operand) : Except Error TensorType := do
  op.integerVector target "target shape" false
  let e := data.elementType
  match data.shape.dims?, ← target.ints? with
  | some dims, some values =>
    let sizes ← values.mapM Shape.sizeOfInt
    return ⟨e, .ofSizes (← Shape.broadcastPartial dims (sizes.map some))⟩
  | some dims, none =>
    match target.shape.firstSize? with
    | some length => return ⟨e, .ofSizes (List.replicate (max length dims.length) none)⟩
    | none => return ⟨e, .unranked⟩
  | none, _ => return ⟨e, .unranked⟩

def inferScatter (op : Op) (data indices updates : Operand) : Except Error TensorType := do
  op.demand indices.elementType.isInteger .integerIndices indices.elementType
  if updates.elementType ≠ data.elementType then
    throw (.type (.scatterUpdates updates.elementType data.elementType))
  match data.shape.fixed?, indices.shape.fixed?, updates.shape.fixed? with
  | some dataDims, some indexDims, some updateDims =>
    let expected ← Shape.updatesShape dataDims indexDims
    if expected = updateDims then return data.toTensorType
    else throw (.shape (.scatterUpdates expected updateDims))
  | _, _, _ => return data.toTensorType

def inferSelect (op : Op) (condition x y : Operand) : Except Error TensorType := do
  op.demand (condition.elementType == .bool) .boolCondition condition.elementType
  let e ← op.commonType x [y]
  return ⟨e, ← broadcastAll [condition, x, y]⟩

def inferReshape (op : Op) (specialZero : Bool) (data target : Operand) :
    Except Error TensorType := do
  op.integerVector target "shape" false
  match ← target.ints? with
  | some values =>
    return ⟨data.elementType,
      .ofSizes (← Shape.reshape data.shape.dims? values specialZero)⟩
  | none =>
    match target.shape.firstSize? with
    | some length => return ⟨data.elementType, .ofSizes (List.replicate length none)⟩
    | none => return ⟨data.elementType, .unranked⟩

def inferSqueeze (axes : List Int) (data : Operand) : Except Error TensorType := do
  match data.shape.dims? with
  | some dims => return ⟨data.elementType, .ofDims? (← Shape.squeeze dims axes)⟩
  | none => return ⟨data.elementType, .unranked⟩

def inferUnsqueeze (axes : List Int) (data : Operand) : Except Error TensorType := do
  match data.shape.dims? with
  | some dims => return ⟨data.elementType, .ofSizes (← Shape.unsqueeze (some 1) dims axes)⟩
  | none => return ⟨data.elementType, .unranked⟩

/-- A vector as long as the rank of the operand. -/
def inferShapeOf (op : Op) (outputType : ElementType) (data : Operand) :
    Except Error TensorType := do
  op.demand outputType.isInteger .integerOutput outputType
  return ⟨outputType, .ofSizes [data.shape.rank?]⟩

/-- A complex mark needs floats of the part type and pairs on the last axis. -/
def inferComplexMark (op : Op) (partType : ElementType) (packed : Operand) :
    Except Error TensorType := do
  let e := packed.elementType
  if e ≠ partType then
    throw (.type (.markPart partType e))
  op.demand e.isFloat .floatPart e
  match packed.shape.dims? with
  | none => return packed.toTensorType
  | some dims =>
    match dims.getLast? with
    | none => throw (.shape .scalarMark)
    | some (some size) =>
      if size = 2 then return packed.toTensorType else throw (.shape (.markSize size))
    | some none => return packed.toTensorType

/-- The type of the result of an operation on the given operands. -/
def infer (op : Op) (operands : List Operand) : Except Error TensorType :=
  match op with
  | parameter _ elementType shape => op.nullary operands (.ok ⟨elementType, shape⟩)
  | constant value => op.nullary operands (.ok ⟨value.elementType, .fixed value.shape⟩)
  | convert target => op.unary operands fun x => .ok ⟨target, x.shape⟩
  | add | subtract | multiply => op.binary operands op.inferArithmetic
  | less => op.binary operands op.inferLess
  | sqrt | cos | sin => op.unary operands op.inferFloat
  | atan2 => op.binary operands op.inferAtan2
  | gather axis => op.binary operands (op.inferGather axis)
  | concat axis =>
    match operands with
    | [] => .error (.graph .emptyConcat)
    | first :: others => op.inferConcat axis first others
  | pad mode =>
    match mode, operands with
    | _, [data, before, after] => op.inferPad data before after none
    | .constant, [data, before, after, fill] => op.inferPad data before after (some fill)
    | _, _ => .error (.graph (.padInputs mode operands.length))
  | reduce kind keepDims => op.binary operands (op.inferReduce kind keepDims)
  | broadcast => op.binary operands op.inferBroadcast
  | scatterNdUpdate => op.ternary operands op.inferScatter
  | select => op.ternary operands op.inferSelect
  | reshape specialZero => op.binary operands (op.inferReshape specialZero)
  | squeeze axes => op.unary operands (inferSqueeze axes)
  | unsqueeze axes => op.unary operands (inferUnsqueeze axes)
  | shapeOf outputType => op.unary operands (op.inferShapeOf outputType)
  | complexMark partType => op.unary operands (op.inferComplexMark partType)

end Op

end TensorLowering
