import TensorLowering.Proofs.Op.ResultShape
import TensorLowering.Proofs.Shape.Alignment

/-!
# Operands in any order

Broadcasting is a join: up to which error is reported, it is commutative, associative and idempotent,
and the empty shape is neutral. So operands of known rank broadcast to the same shape in whatever
order they come (`broadcasting_semilattice`): two steps that each take one more operand can change
places (`joinDims_right_comm`).
-/

namespace TensorLowering.Op

open Shape

theorem exists_dims? {shape : PartialShape} (h : shape.rank?.isSome) :
    ∃ dims, shape.dims? = some dims := by
  cases shape with
  | fixed sizes => exact ⟨_, rfl⟩
  | ranked dims => exact ⟨dims, rfl⟩
  | unranked => cases h

theorem joinDims_some {x : Operand} {dims : List (Option Nat)} (h : x.shape.dims? = some dims)
    (left : List (Option Nat)) : joinDims (some left) x = some <$> broadcastPartial left dims := by
  unfold joinDims
  rw [h]
  exact bind_pure_comp some _

theorem joinDims_right_comm (dims : Option (List (Option Nat))) (x y : Operand)
    (hx : x.shape.rank?.isSome) (hy : y.shape.rank?.isSome) :
    (joinDims dims x >>= (joinDims · y)).toOption =
      (joinDims dims y >>= (joinDims · x)).toOption := by
  cases dims with
  | none => rfl
  | some left =>
    obtain ⟨xs, hxs⟩ := exists_dims? hx
    obtain ⟨ys, hys⟩ := exists_dims? hy
    simp only [joinDims_some hxs, joinDims_some hys, bind_map_left, ← map_bind, toOption_map]
    rw [broadcastPartial_right_comm]

/-- Broadcasting partially known shapes is commutative, associative and idempotent with the empty
shape as neutral element, where all failures count as one. Operands of known rank broadcast to the
same shape, or fail to, in every order. -/
theorem broadcasting_semilattice :
    (∀ a b, (broadcastPartial a b).toOption = (broadcastPartial b a).toOption) ∧
    (∀ a b c, (broadcastPartial a b >>= fun ab => broadcastPartial ab c).toOption =
      (broadcastPartial b c >>= fun bc => broadcastPartial a bc).toOption) ∧
    (∀ a, broadcastPartial a a = .ok a) ∧
    (∀ a, broadcastPartial a [] = .ok a) ∧
    ∀ operands operands' : List Operand, operands.Perm operands' →
      (∀ x ∈ operands, x.shape.rank?.isSome) →
      (broadcastAll operands).toOption = (broadcastAll operands').toOption := by
  refine ⟨broadcastPartial_comm, broadcastPartial_assoc, broadcastPartial_self,
    broadcastPartial_nil_right, fun operands operands' hperm hranked => ?_⟩
  rw [broadcastAll_eq, broadcastAll_eq, toOption_map, toOption_map,
    toOption_foldlM_perm joinDims_right_comm hperm hranked]

/-- The open first size meets a 1 and a 4 in either order. -/
theorem threeShapes_semilattice :
    let x : Operand := { elementType := .f32, shape := .ranked [none, some 3] }
    let y : Operand := { elementType := .f32, shape := .fixed [4, 1] }
    let z : Operand := { elementType := .f32, shape := .fixed [2, 1, 1] }
    [x, y, z].Perm [z, x, y] ∧ (∀ operand ∈ [x, y, z], operand.shape.rank?.isSome) ∧
      (broadcastAll [x, y, z]).toOption = (broadcastAll [z, x, y]).toOption ∧
      broadcastAll [x, y, z] = .ok (.fixed [2, 4, 3]) := by
  intro x y z
  have hperm : [x, y, z].Perm [z, x, y] := by decide
  have hranked : ∀ operand ∈ [x, y, z], operand.shape.rank?.isSome := by decide
  exact ⟨hperm, hranked, broadcasting_semilattice.2.2.2.2 _ _ hperm hranked, by decide⟩

/-- An operand of unknown rank ends the checks, so for such operands the order does make a
difference. -/
example :
    let x : Operand := { elementType := .f32, shape := .unranked }
    let y : Operand := { elementType := .f32, shape := .fixed [2] }
    let z : Operand := { elementType := .f32, shape := .fixed [3] }
    (broadcastAll [x, y, z]).toOption = some .unranked ∧ (broadcastAll [y, z, x]).toOption = none := by
  decide

end TensorLowering.Op
