import TensorLowering.Proofs.Tensor.Planes

/-!
# Tensors of complex numbers

A packed tensor is a table of pairs, the real and the imaginary part at each coordinate
(`exists_ofPairs`), and its planes are the tables of the parts (`plane_ofPairs`). What tables become
along an axis: a range of indices takes a slice (`gather_range`), and a table is put behind another
one (`concat_along`).
-/

namespace TensorLowering

open Shape

namespace Shape

theorem getD_lt_of_within_set {shape c : List Nat} {axis n : Nat}
    (hc : Within c (shape.set axis n)) (hlt : axis < shape.length) : c.getD axis 0 < n := by
  have hlt' : axis < c.length := by rwa [hc.length_eq, List.length_set]
  obtain ⟨_, hsize, hi⟩ := getElem?_of_forall₂ hc (List.getElem?_eq_getElem hlt')
  rw [List.getElem?_set_self hlt] at hsize
  rw [← Option.some.inj hsize] at hi
  simpa [hlt'] using hi

end Shape

namespace Tensor

variable {e : ElementType} {shape : List Nat} {f g : List Nat → e.Carrier × e.Carrier}

/-- The packed tensor with the given parts at each coordinate. -/
def ofPairs (e : ElementType) (shape : List Nat) (f : List Nat → e.Carrier × e.Carrier) : Tensor :=
  tabulate e (shape ++ [2]) fun c =>
    if c.getLast? = some 0 then (f c.dropLast).1 else (f c.dropLast).2

@[simp] theorem elementType_ofPairs : (ofPairs e shape f).elementType = e := rfl

@[simp] theorem shape_ofPairs : (ofPairs e shape f).shape = shape ++ [2] := rfl

theorem plane_ofPairs : plane 0 (ofPairs e shape f) = tabulate e shape (fun c => (f c).1) ∧
    plane 1 (ofPairs e shape f) = tabulate e shape fun c => (f c).2 := by
  constructor <;> rw [ofPairs, plane_tabulate (by omega)] <;>
    exact tabulate_congr fun c _ => by simp

theorem exists_concat_of_within {n : Nat} {c : List Nat} (h : Within c (shape ++ [n])) :
    ∃ d i, c = d ++ [i] ∧ Within d shape ∧ i < n := by
  obtain ⟨d, i, q, rfl, hd, hi, hq⟩ := exists_of_within_split h
  obtain rfl := List.forall₂_nil_right_iff.mp hq
  exact ⟨d, i, rfl, hd, hi⟩

theorem ofPairs_congr (h : ∀ c, Within c shape → f c = g c) :
    ofPairs e shape f = ofPairs e shape g := by
  refine tabulate_congr fun c hc => ?_
  obtain ⟨d, i, rfl, hd, -⟩ := exists_concat_of_within hc
  rw [List.dropLast_concat, h d hd]

theorem exists_ofPairs {t : Tensor} (h : t.type = ⟨e, .fixed (shape ++ [2])⟩) :
    ∃ f, t = ofPairs e shape f := by
  obtain ⟨f, rfl⟩ := exists_tabulate h
  refine ⟨fun c => (f (c ++ [0]), f (c ++ [1])), tabulate_congr fun c hc => ?_⟩
  obtain ⟨d, i, rfl, -, hi⟩ := exists_concat_of_within hc
  rw [List.dropLast_concat, List.getLast?_concat]
  obtain rfl | rfl : i = 0 ∨ i = 1 := by omega
  · rfl
  · rfl

theorem tabulate_inj {f g : List Nat → e.Carrier} (h : tabulate e shape f = tabulate e shape g)
    {c : List Nat} (hc : Within c shape) : f c = g c := by
  have hdata : ((walk shape).map f).toArray = ((walk shape).map g).toArray := by
    simpa only [tabulate, mk.injEq, heq_eq_eq, true_and] using h
  exact List.map_inj_left.mp (congrArg Array.toList hdata) c (mem_walk.mpr hc)

/-- The planes of a packed tensor determine it. -/
theorem eq_ofPairs {t : Tensor} (ht : t.type = ⟨e, .fixed (shape ++ [2])⟩)
    (hreal : plane 0 t = tabulate e shape fun c => (f c).1)
    (himag : plane 1 t = tabulate e shape fun c => (f c).2) : t = ofPairs e shape f := by
  obtain ⟨g, rfl⟩ := exists_ofPairs ht
  rw [plane_ofPairs.1] at hreal
  rw [plane_ofPairs.2] at himag
  exact ofPairs_congr fun c hc => Prod.ext (tabulate_inj hreal hc) (tabulate_inj himag hc)

theorem eq_of_planes {p q : Tensor} (hp : p.shape.getLast? = some 2) (htype : q.type = p.type)
    (hreal : plane 0 q = plane 0 p) (himag : plane 1 q = plane 1 p) : q = p := by
  obtain ⟨sizes, hsizes⟩ := List.getLast?_eq_some_iff.mp hp
  have hptype : p.type = ⟨p.elementType, .fixed (sizes ++ [2])⟩ := by
    rw [← hsizes]
    rfl
  obtain ⟨f, hf⟩ := exists_ofPairs hptype
  rw [hptype] at htype
  generalize p.elementType = e at *
  subst hf
  exact eq_ofPairs htype (hreal.trans plane_ofPairs.1) (himag.trans plane_ofPairs.2)

/-! ## Slices -/

/-- A vector of integers with these values. -/
structure Lists (indices : Tensor) (ns : List Nat) : Prop where
  shape : indices.shape = [ns.length]
  ints : indices.ints = .ok (ns.map Int.ofNat)

theorem lists_ofInts {ns : List Nat} (h : ∀ n ∈ ns, n < 9223372036854775808) :
    (ofInts (ns.map Int.ofNat)).Lists ns :=
  ⟨by simp [ofInts], ints_ofInts h⟩

section Slices

variable {f g : List Nat → e.Carrier} {axis size start count m n : Nat}

/-- A range of indices takes the slices from the first of them on. -/
theorem gather_lists {i : Int} {indices : Tensor} (ha : resolveAxis i shape.length = .ok axis)
    (hindices : indices.Lists (List.range' start count)) (hsize : shape[axis]? = some size)
    (hword : size < 9223372036854775808) (hle : start + count ≤ size) :
    gather i (tabulate e shape f) indices =
      .ok (tabulate e (shape.set axis count) fun c => f (c.set axis (start + c.getD axis 0))) := by
  obtain ⟨hlt, rfl⟩ := List.getElem?_eq_some_iff.mp hsize
  have hindex : ∀ i ∈ List.range' start count, i < shape[axis] := fun i hi => by
    have := List.mem_range'_1.mp hi
    omega
  have hnamed : ((List.range' start count).map Int.ofNat).mapM
      (resolveIndex · (shape.getD axis 0)) = .ok (List.range' start count) := by
    have hget : shape.getD axis 0 = shape[axis] := by simp [hlt]
    rw [mapM_eq_ok, List.forall₂_map_left_iff, hget]
    exact List.forall₂_same.mpr fun i hi => resolveIndex_natCast (hindex i hi) hword
  have hshape : indices.shape = [count] := by
    rw [hindices.shape, List.length_range']
  have hresult : shape.take axis ++ [count] ++ shape.drop (axis + 1) = shape.set axis count := by
    rw [List.set_eq_take_cons_drop _ hlt, List.append_assoc]
    rfl
  rw [gather_tabulate ha hindices.ints hnamed, hshape, hresult]
  refine congrArg Except.ok (tabulate_congr fun p hp => ?_)
  have hlt' : axis < p.length := by rwa [hp.length_eq, List.length_set]
  have hi := getD_lt_of_within_set hp hlt
  have htake : (p.drop axis).take 1 = [p[axis]] := by
    rw [List.drop_eq_getElem_cons hlt']
    rfl
  have hget : p.getD axis 0 = p[axis] := by simp [hlt']
  rw [hget] at hi
  rw [List.set_eq_take_cons_drop _ hlt', List.length_singleton, htake, hget]
  simp [strides, position, hi]

theorem gather_range (hsize : shape[axis]? = some size) (hword : size < 9223372036854775808)
    (hle : start + count ≤ size) :
    gather axis (tabulate e shape f) (ofInts ((List.range' start count).map Int.ofNat)) =
      .ok (tabulate e (shape.set axis count) fun c => f (c.set axis (start + c.getD axis 0))) := by
  obtain ⟨hlt, -⟩ := List.getElem?_eq_some_iff.mp hsize
  refine gather_lists (resolveAxis_natCast hlt) (lists_ofInts fun i hi => ?_) hsize hword hle
  have := List.mem_range'_1.mp hi
  omega

/-- Behind a table on an axis starts the next one. -/
theorem concat_along (hlt : axis < shape.length) :
    concat axis (tabulate e (shape.set axis m) f) [tabulate e (shape.set axis n) g] =
      .ok (tabulate e (shape.set axis (m + n)) fun c =>
        if c.getD axis 0 < m then f c else g (c.set axis (c.getD axis 0 - m))) := by
  obtain ⟨left, size, right, rfl, rfl⟩ := exists_split hlt
  have hset (k : Nat) : (left ++ size :: right).set left.length k = left ++ k :: right := by simp
  rw [hset, hset, hset]
  exact concat_tabulate _ (resolveAxis_natCast (by omega))

end Slices

end Tensor

end TensorLowering
