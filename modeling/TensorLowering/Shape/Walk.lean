import TensorLowering.Shape.Volume

/-!
# Row-major walks

Tensors are stored in row-major order: the last axis changes fastest. `strides` says how far apart
in memory two neighbours on an axis are, `advance` steps a coordinate to the next element, and
`walk` is the list of all coordinates of a shape in that order.
-/

namespace TensorLowering.Shape

/-- The distance between neighbours on each axis: the product of the later sizes. -/
def strides : List Nat → List Nat
  | [] => []
  | _ :: sizes => volume sizes :: strides sizes

/-- The flat position of a coordinate under the given strides. -/
def position : (coordinate strides : List Nat) → Nat
  | c :: coordinate, stride :: strides => c * stride + position coordinate strides
  | _, _ => 0

/-- Step the last axis and carry to the left; the flag says that the first axis overflowed. -/
def advanceCarry : List Nat → List Nat → List Nat × Bool
  | c :: coordinate, d :: shape =>
    match advanceCarry coordinate shape with
    | (rest, true) => if c + 1 < d then ((c + 1) :: rest, false) else (0 :: rest, true)
    | (rest, false) => (c :: rest, false)
  | coordinate, _ => (coordinate, true)

/-- The coordinate after `coordinate` in row-major order, and the origin after the last one. -/
def advance (coordinate shape : List Nat) : List Nat :=
  (advanceCarry coordinate shape).1

/-- The coordinate with a zero on every axis of `shape`. -/
def origin (shape : List Nat) : List Nat :=
  shape.map fun _ => 0

/-- `count` coordinates from `coordinate` on. -/
def walkFrom (shape : List Nat) : Nat → List Nat → List (List Nat)
  | 0, _ => []
  | count + 1, coordinate => coordinate :: walkFrom shape count (advance coordinate shape)

/-- The coordinates of a walk behind those that are there already. Unlike `walkFrom`, a long walk
does not nest. -/
def walkOnto (shape : List Nat) : Nat → List Nat → Array (List Nat) → Array (List Nat)
  | 0, _, walked => walked
  | count + 1, coordinate, walked =>
    walkOnto shape count (advance coordinate shape) (walked.push coordinate)

/-- Every coordinate of `shape`, in row-major order. -/
def walk (shape : List Nat) : List (List Nat) :=
  (walkOnto shape (volume shape) (origin shape) #[]).toList

theorem toList_walkOnto (shape : List Nat) (count : Nat) (coordinate : List Nat)
    (walked : Array (List Nat)) : (walkOnto shape count coordinate walked).toList =
      walked.toList ++ walkFrom shape count coordinate := by
  induction count generalizing coordinate walked with
  | zero => simp [walkOnto, walkFrom]
  | succ count ih => simp [walkOnto, walkFrom, ih]

theorem walk_eq_walkFrom (shape : List Nat) :
    walk shape = walkFrom shape (volume shape) (origin shape) :=
  (toList_walkOnto ..).trans (List.nil_append _)

end TensorLowering.Shape
