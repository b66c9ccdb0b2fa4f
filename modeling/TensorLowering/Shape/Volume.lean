/-!
# The number of places of a shape

A shape lists the sizes of the axes, and a tensor of that shape has one element for each choice of a
coordinate on every axis: `volume` many. A shape without axes has one place, and a shape with an
axis of size 0 has none.
-/

namespace TensorLowering.Shape

/-- The product of the sizes. -/
def volume : List Nat → Nat
  | [] => 1
  | size :: sizes => size * volume sizes

@[simp] theorem volume_nil : volume [] = 1 := rfl

@[simp] theorem volume_cons (size : Nat) (sizes : List Nat) :
    volume (size :: sizes) = size * volume sizes := rfl

theorem volume_append (left right : List Nat) :
    volume (left ++ right) = volume left * volume right := by
  induction left with
  | nil => simp
  | cons size sizes ih => simp [ih, Nat.mul_assoc]

end TensorLowering.Shape
