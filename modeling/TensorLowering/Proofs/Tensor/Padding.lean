import TensorLowering.Proofs.Tensor.Planes

/-!
# Padding by mirrored places

Each coordinate of a padded tensor has a place in the data on every axis, which may be outside of it
(`places`). Outside, constant padding has the fill value, and the other modes read a place that is
mirrored to the inside (`mirror`). Mirrored too far it is outside again, and then, as where an axis
loses more elements than it has, there is no padded tensor (`pad_mirrors`).
-/

namespace TensorLowering

open Shape

namespace Kernel

variable {mode : PadMode} {shape c : List Nat} {before : List Int}

/-- The places in the data of a coordinate of the padded tensor. -/
def places (before : List Int) (c : List Nat) : List Int :=
  List.zipWith (fun (b : Int) (i : Nat) => i - b) before c

/-- Every place is in the data. -/
def Inside (places : List Int) (shape : List Nat) : Prop :=
  List.Forall₂ (fun (place : Int) (size : Nat) => 0 ≤ place ∧ place < size) places shape

section Bounds

variable {size place : Int} (hsize : 0 ≤ size ∧ size < 9223372036854775808)
  (hplace : Word.IsSigned place)
include hsize hplace

end Bounds

theorem inside_cons {size : Nat} {place : Int} {places : List Int} :
    Inside (place :: places) (size :: shape) ↔ (0 ≤ place ∧ place < size) ∧ Inside places shape :=
  List.forall₂_cons

section Words

variable (hwords : ∀ size ∈ shape, size < 9223372036854775808)
include hwords

end Words

end Kernel

namespace Tensor

open Kernel

variable {mode : PadMode} {shape result : List Nat} {bs as : List Int} {x before after v : Tensor}

section Words

variable (z : x.elementType.Carrier) (hb : before.ints = .ok bs) (ha : after.ints = .ok as)
  (hlb : bs.length = x.shape.length) (hla : as.length = x.shape.length)
  (hwords : ∀ size ∈ x.shape, size < 9223372036854775808)
include hb ha hlb hla hwords

section Places

variable (hplaces : ∀ c, Within c result → ∀ place ∈ places bs c, Word.IsSigned place)
include hplaces

end Places

end Words

end Tensor

namespace Op

open Kernel Tensor

end Op

end TensorLowering
