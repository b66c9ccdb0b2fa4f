import TensorLowering.Error
import TensorLowering.Shape.Walk

/-!
# Broadcasting

Two shapes are aligned at their last axes and the shorter one is filled up with ones. On each axis
the sizes have to agree, or one of them is 1 and gives way. `broadcastPartial` does this for sizes
of which some are unknown, `broadcast` for known sizes. `broadcastPositions` says from where each
element of the result is read.
-/

namespace TensorLowering.Shape

/-- Two sizes on one axis. An unknown size against 1 or another unknown size stays unknown; against
any other size it has to be that size. The error holds two different sizes neither of which is 1. -/
def broadcastSize : Option Nat → Option Nat → Except (Nat × Nat) (Option Nat)
  | some x, some y =>
    if x = y then .ok (some x)
    else if x = 1 then .ok (some y)
    else if y = 1 then .ok (some x)
    else .error (x, y)
  | some x, none => .ok (if x = 1 then none else some x)
  | none, some y => .ok (if y = 1 then none else some y)
  | none, none => .ok none

/-- The sizes filled up with ones on the left to the given rank. -/
def alignRight (rank : Nat) (dims : List (Option Nat)) : List (Option Nat) :=
  List.replicate (rank - dims.length) (some 1) ++ dims

/-- The shape that two partially known shapes broadcast to. -/
def broadcastPartial (left right : List (Option Nat)) : Except Error (List (Option Nat)) :=
  let rank := max left.length right.length
  (List.zip (alignRight rank left) (alignRight rank right)).zipIdx.mapM fun ((x, y), axis) =>
    match broadcastSize x y with
    | .ok dim => .ok dim
    | .error (leftSize, rightSize) =>
      .error (.shape (.broadcast left right axis leftSize rightSize))

/-- The shape that two known shapes broadcast to. -/
def broadcast (left right : List Nat) : Except Error (List Nat) := do
  let dims ← broadcastPartial (left.map some) (right.map some)
  return dims.filterMap id

/-- The flat position that an element of the result reads in a tensor of shape `source`: leading
axes that the source lacks are dropped, and along an axis of size 1 it stays at 0. -/
def broadcastPosition (source coordinate : List Nat) : Nat :=
  let own := coordinate.drop (coordinate.length - source.length)
  let clamped := List.zipWith (fun size c => if size = 1 then 0 else c) source own
  position clamped (strides source)

/-- For each element of a tensor of shape `result`, in row-major order, the flat position it reads
in a tensor of shape `source`. -/
def broadcastPositions (source result : List Nat) : List Nat :=
  (walk result).map (broadcastPosition source)

end TensorLowering.Shape
