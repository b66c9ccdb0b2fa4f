import TensorLowering.Proofs.Op.Errors
import TensorLowering.Proofs.Op.ResultType

/-!
# The last axis of results

What operations make of the last axis of their operands, and of the last of the integers that they
read: an axis of size 1 is added (`shape_unsqueeze`), parts are put side by side along it
(`getLast?_concat`), padding by zero leaves it as it is (`getLast?_pad`), a target gives it its size
(`getLast?_broadcast`). The integers of two vectors side by side are those of the first, then those
of the second (`ints_concat`).
-/

namespace TensorLowering

namespace Shape

/-- The last axis, counted from the back. -/
theorem resolveAxis_neg_one {rank : Nat} (h : 0 < rank) : resolveAxis (-1) rank = .ok (rank - 1) := by
  rw [resolveAxis_eq_ok, fromBack?_eq_some, if_pos (by decide)]
  omega

theorem insertOnes_last {α : Type} (one : α) (dims : List α) (start : Nat) :
    insertOnes one [start + dims.length] (List.range' start (dims.length + 1)) dims =
      dims ++ [one] := by
  induction dims generalizing start with
  | nil => simp [insertOnes]
  | cons dim dims ih =>
    have hne : (start == start + (dims.length + 1)) = false := by simp
    rw [List.length_cons, List.range'_succ, insertOnes]
    simp only [List.contains_cons, hne, List.contains_nil, Bool.or_self, Bool.false_eq_true,
      if_false, List.cons_append, List.cons.injEq, true_and]
    rw [← ih (start + 1), show start + (dims.length + 1) = start + 1 + dims.length by omega]

theorem unsqueeze_neg_one {α : Type} (one : α) (dims : List α) :
    unsqueeze one dims [-1] = .ok (dims ++ [one]) := by
  have hpos : resolveAxes [-1] (dims.length + 1) = .ok [dims.length] := by
    have hfilter : (List.range (dims.length + 1)).filter ([dims.length].contains ·) =
        [dims.length] := by
      rw [List.range_succ, List.filter_append, List.filter_eq_nil_iff.mpr]
      · simp
      · intro i hi
        have := List.mem_range.mp hi
        simp only [List.contains_cons, List.contains_nil, Bool.or_false, beq_iff_eq]
        omega
    simp [resolveAxes, resolveAxis_neg_one, hfilter]
  have hins := insertOnes_last one dims 0
  rw [Nat.zero_add, ← List.range_eq_range'] at hins
  simp [unsqueeze, hpos, hins]

end Shape

namespace Kernel

variable {α : Type}

theorem readBlock_all (data : Array α) : readBlock data 0 data.size = .ok data.toList := by
  rw [readBlock, if_pos (by omega), Nat.zero_add, Array.extract_size]

/-- Along the first axis, parts are put one after the other. -/
theorem concat_zero (first left right : List Nat) {xs ys : Array α}
    (hx : xs.size = Shape.volume left) (hy : ys.size = Shape.volume right) :
    concat 0 first [(left, xs), (right, ys)] = .ok (xs ++ ys) := by
  simp [concat, ← hx, ← hy, readBlock_all, List.range_succ]

end Kernel

namespace Tensor

variable {x y z v : Tensor}

theorem shape_unsqueeze (h : unsqueeze [-1] x = .ok v) : v.shape = x.shape ++ [1] := by
  obtain ⟨shape, hs, ht⟩ := type_unsqueeze h
  rw [Shape.unsqueeze_neg_one] at hs
  rw [Except.ok.inj hs]
  exact PartialShape.fixed.inj (congrArg TensorType.shape ht)

/-- Two parts side by side along their last axes. -/
theorem getLast?_concat {m n : Nat} (h : concat (-1) x [y] = .ok v)
    (hx : x.shape.getLast? = some m) (hy : y.shape.getLast? = some n) :
    v.shape.getLast? = some (m + n) := by
  obtain ⟨a, ha, hall, ht⟩ := type_concat h
  have hlen := (hall y List.mem_cons_self).1
  have hpos : 0 < x.shape.length := List.length_pos_iff.mpr fun hnil => by simp [hnil] at hx
  rw [Shape.resolveAxis_neg_one hpos] at ha
  obtain rfl := Except.ok.inj ha
  have hshape := PartialShape.fixed.inj (congrArg TensorType.shape ht)
  rw [List.getLast?_eq_getElem?] at hx hy ⊢
  rw [hlen] at hy
  rw [hshape, List.length_set, List.getElem?_set_self (by omega)]
  simp [List.getD_eq_getElem?_getD, hx, hy]

/-- The elements of both, read as of one type. -/
theorem exists_data_of_concat (h : concat 0 x [y] = .ok v) : ∃ ys shape,
    y.dataAs x.elementType = .ok ys ∧ ofData x.elementType shape (x.data ++ ys) = .ok v := by
  obtain ⟨a, ha, h⟩ := bind_eq_ok.mp h
  obtain ⟨_, -, h⟩ := bind_eq_ok.mp h
  obtain ⟨parts, hp, h⟩ := bind_eq_ok.mp h
  obtain ⟨data, hd, h⟩ := bind_eq_ok.mp h
  have hself : x.dataAs x.elementType = .ok x.data := by simp [dataAs, dataAs?]
  obtain rfl : a = 0 :=
    Int.ofNat_eq_zero.mp (Shape.fromBack?_eq_some.mp (Shape.resolveAxis_eq_ok.mp ha)).1
  simp only [mapM_eq_ok, bind_eq_ok, pure_eq_ok, Except.ok.injEq] at hp
  obtain _ | ⟨⟨xs, hxs, rfl⟩, _ | ⟨⟨ys, hys, rfl⟩, _ | _⟩⟩ := hp
  obtain rfl := Except.ok.inj (hself.symm.trans hxs)
  rw [Kernel.concat_zero _ _ _ x.size_data (size_dataAs hys)] at hd
  obtain rfl := Except.ok.inj hd
  exact ⟨ys, _, hys, h⟩

/-- The integers of two vectors side by side. -/
theorem ints_concat (h : concat 0 x [y] = .ok v) {values : List Int} (hv : v.ints = .ok values) :
    ∃ xs ys, x.ints = .ok xs ∧ y.ints = .ok ys ∧ values = xs ++ ys := by
  obtain ⟨ys, shape, hys, hdata⟩ := exists_data_of_concat h
  obtain ⟨_, hy, rfl⟩ := eq_of_dataAs hys
  obtain ⟨e, xshape, xs, hx⟩ := x
  obtain ⟨_, rfl⟩ := ofData_eq_ok.mp hdata
  cases e <;> simp_all [ints, eq_comm]

/-- Where nothing is added before or after, the last axis keeps its size. -/
theorem getLast?_paddedShape {sizes shape : List Nat} {before after : List Int} {size : Nat}
    (hb : before.length = sizes.length) (ha : after.length = sizes.length)
    (hs : sizes.getLast? = some size) (hsize : size < 9223372036854775808)
    (hb0 : before.getLast? = some 0) (ha0 : after.getLast? = some 0)
    (h : paddedShape sizes before after = .ok shape) : shape.getLast? = some size := by
  induction sizes generalizing before after shape with
  | nil => simp at hs
  | cons first sizes ih =>
    obtain ⟨b, before, rfl⟩ := List.exists_cons_of_length_eq_add_one hb
    obtain ⟨a, after, rfl⟩ := List.exists_cons_of_length_eq_add_one ha
    simp only [paddedShape, bind_eq_ok, pure_eq_ok, Except.ok.injEq] at h
    obtain ⟨padded, hp, rest, hrest, rfl⟩ := h
    cases sizes with
    | nil =>
      obtain rfl := List.length_eq_zero_iff.mp (Nat.succ.inj hb)
      obtain rfl := List.length_eq_zero_iff.mp (Nat.succ.inj ha)
      obtain rfl := Except.ok.inj hrest
      simp only [List.getLast?_singleton, Option.some.injEq] at hs hb0 ha0 ⊢
      subst hs hb0 ha0
      obtain rfl := Except.ok.inj ((Shape.paddedSize_zero hsize).symm.trans hp)
      rfl
    | cons second sizes =>
      obtain ⟨b', before, rfl⟩ := List.exists_cons_of_length_eq_add_one (Nat.succ.inj hb)
      obtain ⟨a', after, rfl⟩ := List.exists_cons_of_length_eq_add_one (Nat.succ.inj ha)
      rw [List.getLast?_cons_cons] at hs hb0 ha0
      have hlast := ih (Nat.succ.inj hb) (Nat.succ.inj ha) hs hb0 ha0 hrest
      rw [List.getLast?_cons, hlast, Option.getD_some]

theorem getLast?_pad {mode : PadMode} {fill : Option Tensor} {before after : List Int} {size : Nat}
    (h : pad mode x y z fill = .ok v) (hy : y.ints = .ok before) (hz : z.ints = .ok after)
    (hx : x.shape.getLast? = some size) (hsize : size < 9223372036854775808)
    (hb : before.getLast? = some 0) (ha : after.getLast? = some 0) :
    v.shape.getLast? = some size := by
  obtain ⟨before', after', shape, hy', hz', hlb, hla, hs, ht⟩ := type_pad h
  obtain rfl := Except.ok.inj (hy.symm.trans hy')
  obtain rfl := Except.ok.inj (hz.symm.trans hz')
  rw [PartialShape.fixed.inj (congrArg TensorType.shape ht)]
  exact getLast?_paddedShape hlb hla hx hsize hb ha hs

/-- The last size that a target lists, unless it is 1, is that of the result. -/
theorem getLast?_broadcast {values : List Int} {size : Nat} (h : broadcast x y = .ok v)
    (hy : y.ints = .ok values) (hlast : values.getLast? = some (size : Int)) (hsize : size ≠ 1) :
    v.shape.getLast? = some size := by
  obtain ⟨values', sizes, shape, hy', hsizes, hs, ht⟩ := type_broadcast h
  obtain rfl := Except.ok.inj (hy.symm.trans hy')
  rw [PartialShape.fixed.inj (congrArg TensorType.shape ht)]
  have hsz : sizes.getLast? = some size := by
    rw [mapM_eq_ok] at hsizes
    rw [List.getLast?_eq_getElem?] at hlast ⊢
    obtain ⟨n, hn, hof⟩ := getElem?_of_forall₂ hsizes hlast
    rw [← hsizes.length_eq, hn]
    have hneg : ¬((size : Int) < 0) := Int.not_lt.mpr (Int.natCast_nonneg _)
    simpa [Shape.sizeOfInt, hneg, eq_comm] using hof
  have hfit := (Shape.fits_of_broadcast hs).2
  have hle := hfit.length_le
  rw [List.getLast?_eq_getElem?] at hsz
  obtain ⟨r, hr, hone⟩ := getElem?_of_forall₂ hfit hsz
  have hlt := (List.getElem?_eq_some_iff.mp hsz).1
  rw [List.getElem?_drop, show shape.length - sizes.length + (sizes.length - 1) =
    shape.length - 1 by omega] at hr
  rw [List.getLast?_eq_getElem?, hr, hone.resolve_left hsize]

end Tensor

end TensorLowering
