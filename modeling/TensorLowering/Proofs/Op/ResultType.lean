import TensorLowering.Op.Compute
import TensorLowering.Proofs.Op.Refinement
import TensorLowering.Proofs.Shape.Rules

/-!
# Types of computed tensors

For each operation on tensors, what its success says about the type of the result: the element type,
and the shape as the rule for known sizes gives it.
-/

namespace TensorLowering

namespace Tensor

variable {x y z v : Tensor}

theorem type_ofData {e : ElementType} {shape : List Nat} {data : Array e.Carrier}
    (h : ofData e shape data = .ok v) : v.type = ⟨e, .fixed shape⟩ := by
  obtain ⟨_, rfl⟩ := ofData_eq_ok.mp h
  rfl

/-- What functions of two elements end with, where `y` is read as of the type of `x`. -/
theorem type_zipBroadcast {e e' : ElementType} {f : e.Carrier → e.Carrier → e'.Carrier}
    {left right shape : List Nat} {xs : Array e.Carrier}
    (h : (do ofData e' shape (← Kernel.zipBroadcast f left right shape xs (← y.dataAs e))) =
      Except.ok v) : v.type = ⟨e', .fixed shape⟩ := by
  obtain ⟨ys, -, h⟩ := bind_eq_ok.mp h
  obtain ⟨data, -, h⟩ := bind_eq_ok.mp h
  exact type_ofData h

theorem type_arithmetic {operation : {α : Type} → Arithmetic α → α → α → α}
    (h : arithmetic operation x y = .ok v) : ∃ shape, Shape.broadcast x.shape y.shape = .ok shape ∧
      v.type = ⟨x.elementType, .fixed shape⟩ := by
  obtain ⟨shape, hs, h⟩ := bind_eq_ok.mp h
  split at h
  · cases h
  · exact ⟨shape, hs, type_zipBroadcast h⟩

theorem type_less (h : less x y = .ok v) : ∃ shape, Shape.broadcast x.shape y.shape = .ok shape ∧
    v.type = ⟨.bool, .fixed shape⟩ := by
  obtain ⟨shape, hs, h⟩ := bind_eq_ok.mp h
  split at h
  · cases h
  · exact ⟨shape, hs, type_zipBroadcast h⟩

theorem type_atan2 (h : atan2 x y = .ok v) : ∃ shape, Shape.broadcast x.shape y.shape = .ok shape ∧
    v.type = ⟨x.elementType, .fixed shape⟩ := by
  obtain ⟨shape, hs, h⟩ := bind_eq_ok.mp h
  split at h
  · cases h
  · exact ⟨shape, hs, type_zipBroadcast h⟩

theorem type_mapFloat {operation : {α : Type} → Trigonometry α → α → α}
    (h : mapFloat operation x = .ok v) : v.type = x.type := by
  unfold mapFloat at h
  split at h
  · cases h
  · exact type_ofData h

theorem type_select (h : select x y z = .ok v) : ∃ inner shape,
    Shape.broadcast x.shape y.shape = .ok inner ∧ Shape.broadcast inner z.shape = .ok shape ∧
      v.type = ⟨y.elementType, .fixed shape⟩ := by
  unfold select at h
  split at h
  · cases h
  · obtain ⟨inner, hi, h⟩ := bind_eq_ok.mp h
    obtain ⟨shape, hs, h⟩ := bind_eq_ok.mp h
    obtain ⟨zs, -, h⟩ := bind_eq_ok.mp h
    obtain ⟨data, -, h⟩ := bind_eq_ok.mp h
    exact ⟨inner, shape, hi, hs, type_ofData h⟩

theorem type_broadcast (h : broadcast x y = .ok v) : ∃ values sizes shape, y.ints = .ok values ∧
    values.mapM Shape.sizeOfInt = .ok sizes ∧ Shape.broadcast x.shape sizes = .ok shape ∧
      v.type = ⟨x.elementType, .fixed shape⟩ := by
  obtain ⟨values, hv, h⟩ := bind_eq_ok.mp h
  obtain ⟨sizes, hs, h⟩ := bind_eq_ok.mp h
  obtain ⟨shape, hb, h⟩ := bind_eq_ok.mp h
  obtain ⟨data, -, h⟩ := bind_eq_ok.mp h
  refine ⟨values, sizes, shape, hv, ?_, hb, type_ofData h⟩
  rw [mapM_eq_ok] at hs ⊢
  refine hs.imp fun i n hi => ?_
  unfold targetSize at hi
  unfold Shape.sizeOfInt
  split at hi
  · cases hi
  · rename_i hneg
    rw [if_neg hneg, hi]

theorem type_gather {axis : Int} (h : gather axis x y = .ok v) : ∃ a values positions,
    Shape.resolveAxis axis x.shape.length = .ok a ∧ y.ints = .ok values ∧
      values.mapM (Shape.resolveIndex · (x.shape.getD a 0)) = .ok positions ∧
      v.type = ⟨x.elementType, .fixed (x.shape.take a ++ y.shape ++ x.shape.drop (a + 1))⟩ := by
  obtain ⟨a, ha, h⟩ := bind_eq_ok.mp h
  obtain ⟨values, hv, h⟩ := bind_eq_ok.mp h
  obtain ⟨positions, hp, h⟩ := bind_eq_ok.mp h
  obtain ⟨data, -, h⟩ := bind_eq_ok.mp h
  exact ⟨a, values, positions, ha, hv, hp, type_ofData h⟩

theorem type_concat {axis : Int} {others : List Tensor} (h : concat axis x others = .ok v) :
    ∃ a, Shape.resolveAxis axis x.shape.length = .ok a ∧
      (∀ other ∈ others, other.shape.length = x.shape.length ∧
        other.shape.eraseIdx a = x.shape.eraseIdx a) ∧
      v.type = ⟨x.elementType, .fixed (x.shape.set a
        ((x :: others).foldr (fun part length => part.shape.getD a 0 + length) 0))⟩ := by
  obtain ⟨a, ha, h⟩ := bind_eq_ok.mp h
  obtain ⟨_, hm, h⟩ := bind_eq_ok.mp h
  obtain ⟨parts, -, h⟩ := bind_eq_ok.mp h
  obtain ⟨data, -, h⟩ := bind_eq_ok.mp h
  refine ⟨a, ha, fun other ho => ?_, type_ofData h⟩
  have := forM_eq_ok.mp hm other ho
  unfold matchShapes at this
  split at this
  · assumption
  · cases this

theorem type_pad {mode : PadMode} {fill : Option Tensor} (h : pad mode x y z fill = .ok v) :
    ∃ before after shape, y.ints = .ok before ∧ z.ints = .ok after ∧
      before.length = x.shape.length ∧ after.length = x.shape.length ∧
      paddedShape x.shape before after = .ok shape ∧ v.type = ⟨x.elementType, .fixed shape⟩ := by
  obtain ⟨before, hb, h⟩ := bind_eq_ok.mp h
  obtain ⟨after, ha, h⟩ := bind_eq_ok.mp h
  dsimp only at h
  split at h
  · cases h
  · rename_i hlen
    obtain ⟨shape, hs, h⟩ := bind_eq_ok.mp h
    obtain ⟨plan, -, h⟩ := bind_eq_ok.mp h
    obtain ⟨fillData, -, h⟩ := bind_eq_ok.mp h
    obtain ⟨elements, -, h⟩ := bind_eq_ok.mp h
    rw [not_or, not_not, not_not] at hlen
    exact ⟨before, after, shape, hb, ha, hlen.1, hlen.2, hs, type_ofData h⟩

theorem type_reduce {kind : ReduceKind} {keepDims : Bool} (h : reduce kind keepDims x y = .ok v) :
    ∃ values positions, y.ints = .ok values ∧
      Shape.resolveAxes values x.shape.length = .ok positions ∧
      v.type = ⟨if kind.isLogical then .bool else x.elementType,
        .fixed (Shape.collapse 1 keepDims positions x.shape)⟩ := by
  obtain ⟨values, hv, h⟩ := bind_eq_ok.mp h
  obtain ⟨positions, hp, h⟩ := bind_eq_ok.mp h
  refine ⟨values, positions, hv, hp, ?_⟩
  dsimp only at h
  split at h
  · rename_i hk
    rw [if_pos hk]
    split at h
    · cases h
    · obtain ⟨groups, -, h⟩ := bind_eq_ok.mp h
      exact type_ofData h
  · rename_i hk
    rw [if_neg hk]
    split at h
    · cases h
    · obtain ⟨groups, -, h⟩ := bind_eq_ok.mp h
      obtain ⟨elements, -, h⟩ := bind_eq_ok.mp h
      exact type_ofData h

theorem type_scatter (h : scatter x y z = .ok v) : v.type = x.type := by
  obtain ⟨expected, -, h⟩ := bind_eq_ok.mp h
  dsimp only at h
  split at h
  · cases h
  · obtain ⟨indices, -, h⟩ := bind_eq_ok.mp h
    obtain ⟨offsets, -, h⟩ := bind_eq_ok.mp h
    obtain ⟨elements, -, h⟩ := bind_eq_ok.mp h
    obtain ⟨data, -, h⟩ := bind_eq_ok.mp h
    exact type_ofData h

theorem type_reshapeTo {specialZero : Bool} (h : reshapeTo specialZero x y = .ok v) :
    ∃ values shape, y.ints = .ok values ∧
      Shape.reshape (some (x.shape.map some)) values specialZero = .ok (shape.map some) ∧
      v.type = ⟨x.elementType, .fixed shape⟩ := by
  obtain ⟨values, hv, h⟩ := bind_eq_ok.mp h
  obtain ⟨dims, hd, h⟩ := bind_eq_ok.mp h
  split at h
  · rename_i shape hs
    rw [mapM_id_eq_some.mp hs] at hd
    exact ⟨values, shape, hv, hd, type_ofData h⟩
  · cases h

theorem type_squeeze {axes : List Int} (h : squeeze axes x = .ok v) :
    ∃ shape : List Nat, Shape.squeeze (x.shape.map some) axes = .ok (some (shape.map some)) ∧
      v.type = ⟨x.elementType, .fixed shape⟩ := by
  obtain ⟨dims, hd, h⟩ := bind_eq_ok.mp h
  obtain ⟨shape, rfl⟩ := Shape.squeeze_known hd
  refine ⟨shape, hd, ?_⟩
  rw [type_ofData h, Option.getD_some, List.filterMap_map]
  simp

theorem type_unsqueeze {axes : List Int} (h : unsqueeze axes x = .ok v) :
    ∃ shape, Shape.unsqueeze 1 x.shape axes = .ok shape ∧
      v.type = ⟨x.elementType, .fixed shape⟩ := by
  obtain ⟨shape, hs, h⟩ := bind_eq_ok.mp h
  exact ⟨shape, hs, type_ofData h⟩

end Tensor

end TensorLowering
