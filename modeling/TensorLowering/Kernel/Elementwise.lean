import TensorLowering.ElementType.Arithmetic
import TensorLowering.Kernel.Access
import TensorLowering.Shape.Broadcast
import TensorLowering.Tensor

/-!
# Elementwise kernels

Operations whose result at a coordinate depends on the operands at that coordinate, after
broadcasting. The kernels are generic in the function that is applied to the elements.
-/

namespace TensorLowering

namespace Kernel

variable {α β γ : Type}

/-- The elements of a tensor of shape `source`, repeated as broadcasting to `result` asks for. -/
def spread (source result : List Nat) (data : Array α) : Except Error (List α) :=
  readAll data (Shape.broadcastPositions source result)

/-- A function of two elements, applied at every place of the result. -/
def zipBroadcast (f : α → β → γ) (left right result : List Nat) (xs : Array α) (ys : Array β) :
    Except Error (Array γ) := do
  let xs ← spread left result xs
  let ys ← spread right result ys
  return (List.zipWith f xs ys).toArray

/-- One of two elements at every place of the result, by a third tensor of truth values. -/
def choose (condition left right result : List Nat) (cs : Array Bool) (xs ys : Array α) :
    Except Error (Array α) := do
  let cs ← spread condition result cs
  let xs ← spread left result xs
  let ys ← spread right result ys
  let pairs := List.zip xs ys
  return (List.zipWith (fun c (x, y) => if c then x else y) cs pairs).toArray

end Kernel

namespace Tensor

/-- A sum, difference or product, as `operation` picks it from the arithmetic of the type. -/
def arithmetic (operation : {α : Type} → Arithmetic α → α → α → α) (x y : Tensor) :
    Except Error Tensor := do
  let shape ← Shape.broadcast x.shape y.shape
  match x.elementType.arithmetic? with
  | none => throw (.evaluation .boolArithmetic)
  | some a =>
    let ys ← y.dataAs x.elementType
    ofData x.elementType shape
      (← Kernel.zipBroadcast (operation a) x.shape y.shape shape x.data ys)

/-- Where `x` is less than `y`. -/
def less (x y : Tensor) : Except Error Tensor := do
  let shape ← Shape.broadcast x.shape y.shape
  match x.elementType.arithmetic? with
  | none => throw (.evaluation .boolComparison)
  | some a =>
    let ys ← y.dataAs x.elementType
    ofData .bool shape (← Kernel.zipBroadcast a.less x.shape y.shape shape x.data ys)

/-- A function of one float at every place. -/
def mapFloat (operation : {α : Type} → Trigonometry α → α → α) (x : Tensor) :
    Except Error Tensor :=
  match x.elementType.trigonometry? with
  | none => .error (.evaluation (.floatOnly x.elementType))
  | some t => ofData x.elementType x.shape (x.data.map (operation t))

/-- The angle of the point with ordinate `y` and abscissa `x`. -/
def atan2 (y x : Tensor) : Except Error Tensor := do
  let shape ← Shape.broadcast y.shape x.shape
  match y.elementType.trigonometry? with
  | none => throw (.evaluation (.floatOnly y.elementType))
  | some t =>
    let xs ← x.dataAs y.elementType
    ofData y.elementType shape (← Kernel.zipBroadcast t.atan2 y.shape x.shape shape y.data xs)

/-- The elements of `x` where the condition holds and those of `y` elsewhere. -/
def select (condition x y : Tensor) : Except Error Tensor := do
  match condition.dataAs? .bool with
  | none => throw (.evaluation .boolCondition)
  | some cs =>
    let shape ← Shape.broadcast (← Shape.broadcast condition.shape x.shape) y.shape
    let ys ← y.dataAs x.elementType
    ofData x.elementType shape
      (← Kernel.choose condition.shape x.shape y.shape shape cs x.data ys)

/-- A size of a broadcast target. -/
def targetSize (size : Int) : Except Error Nat :=
  if size < 0 then .error (.shape (.negativeTarget size)) else .ok size.toNat

/-- The tensor broadcast against the shape that `target` lists. -/
def broadcast (x target : Tensor) : Except Error Tensor := do
  let sizes ← (← target.ints).mapM targetSize
  let shape ← Shape.broadcast x.shape sizes
  ofData x.elementType shape (← Kernel.spread x.shape shape x.data).toArray

end Tensor

end TensorLowering
