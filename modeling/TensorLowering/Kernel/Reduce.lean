import TensorLowering.ElementType.Arithmetic
import TensorLowering.Kernel.Access
import TensorLowering.Shape.Axes
import TensorLowering.Shape.Walk
import TensorLowering.Tensor

/-!
# Reductions

The elements are dealt to groups, one for each element of the result, in row-major order; each group
is then combined on its own. A reduced axis has one place in the shape of groups, so all elements
along it share a group.
-/

namespace TensorLowering

namespace Kernel

variable {α : Type}

/-- The shape of groups: reduced axes have size 1. -/
def groupShape (axes shape : List Nat) : List Nat :=
  Shape.collapse 1 true axes shape

/-- The coordinate of the group that the element at a coordinate goes to. -/
def groupCoordinate (axes coordinate : List Nat) : List Nat :=
  Shape.collapse 0 true axes coordinate

/-- For each element, in row-major order, the number of its group. -/
def groupNumbers (axes shape : List Nat) : List Nat :=
  let strides := Shape.strides (groupShape axes shape)
  (Shape.walk shape).map fun c => Shape.position (groupCoordinate axes c) strides

/-- Put an element into the group of the given number. -/
def deal (groups : Array (Array α)) (number : Nat) (x : α) : Except Error (Array (Array α)) :=
  if number < groups.size then .ok (groups.modify number (·.push x))
  else .error (.evaluation (.outOfRange number groups.size))

/-- The elements by group, each group in row-major order. -/
def groups (axes shape : List Nat) (data : Array α) : Except Error (Array (Array α)) :=
  let empty := Array.replicate (Shape.volume (groupShape axes shape)) #[]
  -- `List.zip` is this too, but nests with the length.
  (List.zipWith Prod.mk (groupNumbers axes shape) data.toList).foldlM
    (fun filled (number, x) => deal filled number x) empty

/-- The best element, where a later one has to be better to take the place of an earlier one. -/
def best (better : α → α → Bool) : List α → Option α
  | [] => none
  | x :: xs => some (xs.foldl (fun kept y => if better y kept then y else kept) x)

/-- The value of a group of numbers. -/
def combine (a : Arithmetic α) (kind : ReduceKind) (xs : List α) : Except Error α :=
  match kind with
  | .sum => .ok (xs.foldl a.add a.zero)
  | .mean => orError (.meanDivision xs.length) (a.divideByCount (xs.foldl a.add a.zero) xs.length)
  | .prod => .ok (xs.foldl a.mul a.one)
  | .l2 => .ok (a.sqrt (xs.foldl (fun sum x => a.add sum (a.mul x x)) a.zero))
  | .min => orError (.emptyReduction kind) (best a.less xs)
  | .max => orError (.emptyReduction kind) (best (fun x y => a.less y x) xs)
  | .logicalAnd | .logicalOr => .error (.evaluation (.numericReduction kind))
where
  orError (cause : EvaluationError) : Option α → Except Error α
    | some x => .ok x
    | none => .error (.evaluation cause)

/-- The value of a group of truth values, for the two logical reductions. -/
def combineLogical (kind : ReduceKind) (xs : List Bool) : Bool :=
  match kind with
  | .logicalOr => xs.any id
  | _ => xs.all id

end Kernel

namespace Tensor

/-- The data combined along the axes that `axes` lists. -/
def reduce (kind : ReduceKind) (keepDims : Bool) (data axes : Tensor) : Except Error Tensor := do
  let axes ← Shape.resolveAxes (← axes.ints) data.rank
  let shape := Shape.collapse 1 keepDims axes data.shape
  if kind.isLogical then
    match data.dataAs? .bool with
    | none => throw (.evaluation (.boolReduction kind data.elementType))
    | some truths =>
      let groups ← Kernel.groups axes data.shape truths
      ofData .bool shape (groups.map fun b => Kernel.combineLogical kind b.toList)
  else
    match data.elementType.arithmetic? with
    | none => throw (.evaluation .boolArithmetic)
    | some a =>
      let groups ← Kernel.groups axes data.shape data.data
      let elements ← groups.toList.mapM fun b => Kernel.combine a kind b.toList
      ofData data.elementType shape elements.toArray

end Tensor

end TensorLowering
