import Mathlib.Algebra.GroupWithZero.Nat
import TensorLowering.Op.Compute
import TensorLowering.Proofs.Op.LastAxis
import TensorLowering.Proofs.Shape.RowMajor

/-!
# Tensors by coordinate

A tensor is a table of its entries (`tabulate_entry`), so an operation on tensors can be described
by what the entry of the result at a coordinate is: elementwise operations combine entries at the
same coordinate (`arithmetic_tabulate`), gathering replaces the coordinate on one axis by an index
(`gather_tabulate`), side by side the elements of the parts follow each other (`concat_eq_tabulate`),
so that the second of two starts where the first one ends (`concat_tabulate`), and axes of size 1 come
and go with a zero in the coordinate (`unsqueeze_tabulate`, `squeeze_tabulate`).
-/

namespace TensorLowering

open Shape

namespace Kernel

variable {α : Type}

/-- The block of the elements with one coordinate on the first part of a shape. -/
theorem readBlock_walk (f : List Nat → α) {left : List Nat} (right : List Nat) {n : Nat}
    (h : n < volume left) :
    readBlock ((walk (left ++ right)).map f).toArray (n * volume right) (volume right) =
      .ok ((walk right).map fun d => f (locate left n ++ d)) := by
  have hle : n * volume right + volume right ≤ volume (left ++ right) := by
    rw [volume_append]
    exact block_le h _
  rw [readBlock, if_pos (by simpa using hle), ← block_map_walk f right h]
  simp

theorem gather_walk (f : List Nat → α) (left right : List Nat) {indices : List Nat} {size : Nat}
    (h : ∀ i ∈ indices, i < size) :
    gather (left ++ size :: right) left.length indices
        ((walk (left ++ size :: right)).map f).toArray =
      .ok ((walk left).flatMap fun p =>
        indices.flatMap fun i => (walk right).map fun q => f (p ++ i :: q)).toArray := by
  have hblock (o : Nat) (ho : o ∈ List.range (volume left)) (i : Nat) (hi : i ∈ indices) :
      readBlock ((walk (left ++ size :: right)).map f).toArray
          ((o * size + i) * volume right) (volume right) =
        .ok ((walk right).map fun q => f (locate left o ++ i :: q)) := by
    have ho := List.mem_range.mp ho
    have hwithin : Within (locate left o ++ [i]) (left ++ [size]) :=
      within_append (within_locate ho) (.cons (h i hi) .nil)
    have hlen := (within_locate ho).length_eq
    have hpos : position (locate left o ++ [i]) (strides (left ++ [size])) = o * size + i := by
      rw [position_append hlen, position_locate ho]
      simp [strides, position]
    have hlt := position_lt hwithin
    rw [hpos] at hlt
    have hread := readBlock_walk f right hlt
    rw [← hpos, locate_position hwithin, hpos] at hread
    simpa using hread
  have hrows : (List.range (volume left)).mapM (fun o => indices.mapM fun i =>
      readBlock ((walk (left ++ size :: right)).map f).toArray
        ((o * size + i) * volume right) (volume right)) =
      .ok ((List.range (volume left)).map fun o => indices.map fun i =>
        (walk right).map fun q => f (locate left o ++ i :: q)) :=
    mapM_eq_ok_map fun o ho => mapM_eq_ok_map fun i hi => hblock o ho i hi
  have htake : (left ++ size :: right).take left.length = left := List.take_left' rfl
  have hsize : (left ++ size :: right).getD left.length 0 = size := by simp
  have hdrop : (left ++ size :: right).drop (left.length + 1) = right := by simp
  simp only [gather, htake, hsize, hdrop, hrows, ok_bind, pure_eq_ok, walk_eq left,
    List.flatMap_def, List.map_map, List.flatten_flatten]
  rfl

/-- At each coordinate of the axes before, the parts follow each other. -/
theorem concat_walk {left first : List Nat} (hfirst : first.take left.length = left)
    (right : List Nat) (parts : List (Nat × (List Nat → α))) :
    concat left.length first (parts.map fun part =>
        (left ++ part.1 :: right, ((walk (left ++ part.1 :: right)).map part.2).toArray)) =
      .ok ((walk left).flatMap fun p => parts.flatMap fun part =>
        (walk (part.1 :: right)).map fun d => part.2 (p ++ d)).toArray := by
  have hrows : (List.range (volume left)).mapM (fun o =>
      (parts.map fun part =>
        (left ++ part.1 :: right, ((walk (left ++ part.1 :: right)).map part.2).toArray)).mapM
        fun part => readBlock part.2 (o * volume (part.1.drop left.length))
          (volume (part.1.drop left.length))) =
      .ok ((List.range (volume left)).map fun o => parts.map fun part =>
        (walk (part.1 :: right)).map fun d => part.2 (locate left o ++ d)) := by
    refine mapM_eq_ok_map fun o ho => mapM_eq_ok.mpr ?_
    rw [List.forall₂_map_left_iff, List.forall₂_map_right_iff, List.forall₂_same]
    intro part _
    rw [List.drop_left']
    · exact readBlock_walk _ _ (List.mem_range.mp ho)
    · rfl
  rw [concat, hfirst]
  refine (congrArg (· >>= fun rows => .ok rows.flatten.flatten.toArray) hrows).trans ?_
  simp only [ok_bind, walk_eq left, List.flatMap_def, List.map_map, List.flatten_flatten]
  rfl

/-- Between tensors of one shape, every element stays at its place. -/
theorem spread_self {shape : List Nat} {data : Array α} (h : data.size = volume shape) :
    spread shape shape data = .ok data.toList := by
  have hpositions : broadcastPositions shape shape = List.range data.size := by
    rw [h, ← map_position_walk]
    exact List.map_congr_left fun c hc => congrArg (position · _) (clamp_self (mem_walk.mp hc))
  rw [spread, readAll, hpositions, mapM_eq_ok, List.forall₂_iff_get]
  refine ⟨by simp, fun i hi hi' => ?_⟩
  have hlt : i < data.size := by simpa using hi'
  simp [read, Array.getElem?_eq_getElem hlt]

theorem zipBroadcast_self {β γ : Type} (f : α → β → γ) {shape : List Nat} {xs : Array α}
    {ys : Array β} (hx : xs.size = volume shape) (hy : ys.size = volume shape) :
    zipBroadcast f shape shape shape xs ys =
      .ok (List.zipWith f xs.toList ys.toList).toArray := by
  rw [zipBroadcast, spread_self hx, spread_self hy]
  rfl

end Kernel

namespace Tensor

variable {e : ElementType} {shape : List Nat} {f g : List Nat → e.Carrier}

/-- The tensor with the given element at each coordinate. -/
def tabulate (e : ElementType) (shape : List Nat) (f : List Nat → e.Carrier) : Tensor where
  elementType := e
  shape := shape
  data := ((walk shape).map f).toArray
  size_data := by simp

/-- The element at a coordinate. -/
def entry (t : Tensor) (coordinate : List Nat) : t.elementType.Carrier :=
  t.data[position coordinate (strides t.shape)]?.getD t.elementType.zero

@[simp] theorem elementType_tabulate : (tabulate e shape f).elementType = e := rfl

@[simp] theorem shape_tabulate : (tabulate e shape f).shape = shape := rfl

theorem tabulate_congr (h : ∀ c, Within c shape → f c = g c) :
    tabulate e shape f = tabulate e shape g := by
  have hmap : (walk shape).map f = (walk shape).map g :=
    List.map_congr_left fun c hc => h c (mem_walk.mp hc)
  simp only [tabulate, hmap]

theorem tabulate_entry (t : Tensor) : tabulate t.elementType t.shape t.entry = t := by
  obtain ⟨e, shape, data, hsize⟩ := t
  have hdata : (walk shape).map (entry ⟨e, shape, data, hsize⟩) = data.toList := by
    have hread := map_getD_walk (hsize : data.toList.length = volume shape) e.zero
    simp only [List.getD_eq_getElem?_getD, Array.getElem?_toList] at hread
    exact hread
  simp only [tabulate, hdata]

theorem entry_tabulate {c : List Nat} (h : Within c shape) :
    (tabulate e shape f).entry c = f c := by
  show ((walk shape).map f).toArray[position c (strides shape)]?.getD e.zero = f c
  rw [List.getElem?_toArray, List.getElem?_map, getElem?_walk (position_lt h), locate_position h]
  rfl

theorem ofData_walk : ofData e shape ((walk shape).map f).toArray = .ok (tabulate e shape f) :=
  ofData_eq_ok.mpr ⟨by simp, rfl⟩

@[simp] theorem dataAs_tabulate :
    (tabulate e shape f).dataAs e = .ok ((walk shape).map f).toArray := by
  simp [dataAs, dataAs?, tabulate]

/-! ## Elementwise operations -/

theorem arithmetic_tabulate {a : Arithmetic e.Carrier} (ha : e.arithmetic? = some a)
    (operation : {α : Type} → Arithmetic α → α → α → α) :
    arithmetic operation (tabulate e shape f) (tabulate e shape g) =
      .ok (tabulate e shape fun c => operation a (f c) (g c)) := by
  have hzip : Kernel.zipBroadcast (operation a) shape shape shape ((walk shape).map f).toArray
      ((walk shape).map g).toArray =
      .ok ((walk shape).map fun c => operation a (f c) (g c)).toArray := by
    rw [Kernel.zipBroadcast_self _ (by simp) (by simp)]
    simp [List.zipWith_map, List.zipWith_self]
  simp only [arithmetic, shape_tabulate, broadcast_self, ok_bind, elementType_tabulate, ha,
    dataAs_tabulate]
  exact (congrArg (· >>= ofData e shape) hzip).trans ofData_walk

/-! ## Slices -/

theorem exists_split {xs : List Nat} {i : Nat} (h : i < xs.length) :
    ∃ left x right, xs = left ++ x :: right ∧ left.length = i :=
  ⟨xs.take i, xs[i], xs.drop (i + 1), by simp, by simp; omega⟩

/-- On the axis, the coordinate of the data is the index that is named there. -/
theorem gather_tabulate {axis : Int} {a : Nat} {indices : Tensor} {values : List Int}
    {named : List Nat} (ha : resolveAxis axis shape.length = .ok a) (hv : indices.ints = .ok values)
    (hn : values.mapM (resolveIndex · (shape.getD a 0)) = .ok named) :
    gather axis (tabulate e shape f) indices =
      .ok (tabulate e (shape.take a ++ indices.shape ++ shape.drop (a + 1)) fun c =>
        f (c.take a ++ named.getD (position ((c.drop a).take indices.shape.length)
          (strides indices.shape)) 0 :: c.drop (a + indices.shape.length))) := by
  obtain ⟨left, size, right, rfl, rfl⟩ := exists_split (resolveAxis_lt ha)
  have hlt : ∀ i ∈ named, i < size := fun i hi => by
    obtain ⟨value, -, hvalue⟩ := exists_of_forall₂_right (mapM_eq_ok.mp hn) hi
    simpa using resolveIndex_lt hvalue
  have hlen : named.length = volume indices.shape := by
    rw [← (mapM_eq_ok.mp hn).length_eq, length_ints hv]
  have hnamed : named = (walk indices.shape).map
      fun j => named.getD (position j (strides indices.shape)) 0 := (map_getD_walk hlen 0).symm
  have hlist : ((walk left).flatMap fun p => named.flatMap fun i =>
        (walk right).map fun q => f (p ++ i :: q)) =
      (walk (left ++ indices.shape ++ right)).map fun c =>
        f (c.take left.length ++ named.getD (position ((c.drop left.length).take
          indices.shape.length) (strides indices.shape)) 0 ::
            c.drop (left.length + indices.shape.length)) := by
    rw [walk_append, walk_append, List.map_flatMap, List.flatMap_assoc]
    refine List.flatMap_congr fun p hp => ?_
    have hp := (mem_walk.mp hp).length_eq
    rw [hnamed, List.flatMap_map, List.flatMap_map]
    refine List.flatMap_congr fun j hj => ?_
    have hj := (mem_walk.mp hj).length_eq
    rw [List.map_map, ← hnamed, ← hp, ← hj]
    simp
  have htake : (left ++ size :: right).take left.length = left := List.take_left' rfl
  have hdrop : (left ++ size :: right).drop (left.length + 1) = right := by simp
  have hkernel := Kernel.gather_walk f left right hlt
  rw [hlist] at hkernel
  simp only [gather, rank, shape_tabulate, ha, hv, hn, ok_bind, htake, hdrop]
  exact (congrArg (· >>= ofData e _) hkernel).trans ofData_walk

section Concat

variable {axis : Int} {left : List Nat} (right : List Nat) {m n size : Nat}
  (ha : resolveAxis axis (left.length + (right.length + 1)) = .ok left.length)
include ha

/-- What is side by side along an axis has the elements `h` if those are the elements of the parts in
turn, at each coordinate of the axes before. -/
theorem concat_eq_tabulate (parts : List (Nat × (List Nat → e.Carrier)))
    {h : List Nat → e.Carrier} (hsize : m + (parts.map Prod.fst).sum = size)
    (hh : ∀ p, Within p left →
      (((m, f) :: parts).flatMap fun part => (walk (part.1 :: right)).map fun d => part.2 (p ++ d)) =
        (walk (size :: right)).map fun d => h (p ++ d)) :
    concat axis (tabulate e (left ++ m :: right) f)
        (parts.map fun part => tabulate e (left ++ part.1 :: right) part.2) =
      .ok (tabulate e (left ++ size :: right) h) := by
  have hlist : ((walk left).flatMap fun p => ((m, f) :: parts).flatMap fun part =>
        (walk (part.1 :: right)).map fun d => part.2 (p ++ d)) =
      (walk (left ++ size :: right)).map h := by
    rw [walk_append, List.map_flatMap]
    refine List.flatMap_congr fun p hp => (hh p (mem_walk.mp hp)).trans ?_
    rw [List.map_map]
    rfl
  have htake : (left ++ m :: right).take left.length = left := List.take_left' rfl
  have hkernel := Kernel.concat_walk htake right ((m, f) :: parts)
  rw [hlist] at hkernel
  have hmatch : ((parts.map fun part => tabulate e (left ++ part.1 :: right) part.2).forM
      fun other => matchShapes left.length (left ++ m :: right) other.shape) = .ok () := by
    simp [matchShapes, List.eraseIdx_append_of_length_le]
  have hlength : (((m, f) :: parts).map fun part => tabulate e (left ++ part.1 :: right) part.2).foldr
      (fun part length => part.shape.getD left.length 0 + length) 0 = size := by
    rw [← hsize]
    simp [List.foldr_map, List.sum]
  have hset : (left ++ m :: right).set left.length size = left ++ size :: right := by simp
  have hparts : ((((m, f) :: parts).map fun part =>
        tabulate e (left ++ part.1 :: right) part.2).mapM
      fun part => do return (part.shape, ← part.dataAs e)) = Except.ok
        (((m, f) :: parts).map fun part =>
          (left ++ part.1 :: right, ((walk (left ++ part.1 :: right)).map part.2).toArray)) := by
    rw [mapM_eq_ok, List.forall₂_map_left_iff, List.forall₂_map_right_iff, List.forall₂_same]
    intro part _
    simp
  rw [List.map_cons] at hlength hparts
  simp only [concat, rank, shape_tabulate, List.length_append, List.length_cons, ha, ok_bind,
    hmatch, hparts, elementType_tabulate, hlength, hset]
  exact (congrArg (· >>= ofData e _) hkernel).trans ofData_walk

/-- The second tensor starts on the axis where the first one ends. -/
theorem concat_tabulate : concat axis (tabulate e (left ++ m :: right) f)
      [tabulate e (left ++ n :: right) g] =
    .ok (tabulate e (left ++ (m + n) :: right) fun c =>
      if c.getD left.length 0 < m then f c
      else g (c.set left.length (c.getD left.length 0 - m))) := by
  refine concat_eq_tabulate right ha [(n, g)] rfl fun p hp => ?_
  have hp := hp.length_eq
  simp only [List.flatMap_cons, List.flatMap_nil, List.append_nil, walk_cons, List.range_add,
    List.flatMap_append, List.map_append, List.map_flatMap, List.flatMap_map, List.map_map]
  congr 1
  · refine List.flatMap_congr fun i hi => List.map_congr_left fun q _ => ?_
    simp [← hp, List.mem_range.mp hi]
  · refine List.flatMap_congr fun i _ => List.map_congr_left fun q _ => ?_
    have hge : ¬m + i < m := by omega
    simp [← hp, hge]

end Concat

/-! ## Axes of size 1 -/

/-- Axes of size 1 at the end add zeros to the coordinates. -/
theorem reshape_ones (n : Nat) :
    reshape (tabulate e shape f) (shape ++ List.replicate n 1) =
      .ok (tabulate e (shape ++ List.replicate n 1) fun c => f (c.take shape.length)) := by
  have hlist : (walk shape).map f =
      (walk (shape ++ List.replicate n 1)).map fun c => f (c.take shape.length) := by
    rw [walk_append_ones, List.map_map]
    refine List.map_congr_left fun c hc => ?_
    rw [Function.comp_apply, List.take_left' (mem_walk.mp hc).length_eq]
  rw [reshape, show (tabulate e shape f).data = ((walk shape).map f).toArray from rfl, hlist]
  exact ofData_walk

theorem unsqueeze_tabulate : unsqueeze [-1] (tabulate e shape f) =
    .ok (tabulate e (shape ++ [1]) fun c => f c.dropLast) := by
  simp only [unsqueeze, shape_tabulate, unsqueeze_neg_one, ok_bind]
  refine (reshape_ones 1).trans (congrArg Except.ok (tabulate_congr fun c hc => ?_))
  have hlen : c.length - 1 = shape.length := by simp [hc.length_eq]
  rw [List.dropLast_eq_take, hlen]

/-- The axes that were removed come back with a zero in the coordinate. -/
theorem squeeze_tabulate {axes : List Nat} (hne : axes ≠ [])
    (h : ∀ a ∈ axes, shape[a]? = some 1) :
    squeeze (axes.map Int.ofNat) (tabulate e shape f) =
      .ok (tabulate e (collapse 1 false axes shape) fun c =>
        f (insertOnes 0 axes (List.range shape.length) c)) := by
  have hone : ∀ i size, shape[i]? = some size → 0 + i ∈ axes → size = 1 := fun i size hi ha => by
    rw [Nat.zero_add] at ha
    exact Option.some.inj (hi.symm.trans (h i ha))
  have hlist : (walk shape).map f = (walk (collapse 1 false axes shape)).map fun c =>
      f (insertOnes 0 axes (List.range shape.length) c) := by
    rw [collapse_eq, walk_collapseFrom hone, List.map_map]
    refine List.map_congr_left fun p hp => ?_
    rw [Function.comp_apply, ← collapse_eq, insertOnes_collapse h (mem_walk.mp hp)]
  have hdims : Shape.squeeze (shape.map some) (axes.map Int.ofNat) =
      .ok (some ((collapse 1 false axes shape).map some)) := by
    have hdropped : false = true → none = some 1 := nofun
    have hcollapse : collapse none false axes (shape.map some) =
        (collapse 1 false axes shape).map some := collapse_map some hdropped axes shape
    rw [squeeze_ones hne (by simpa using h), hcollapse]
  simp only [squeeze, shape_tabulate, hdims, ok_bind, reshape, elementType_tabulate,
    Option.getD_some, List.filterMap_map]
  rw [show (tabulate e shape f).data = ((walk shape).map f).toArray from rfl, hlist]
  simp only [Function.comp_def, id, List.filterMap_some]
  exact ofData_walk

end Tensor

end TensorLowering
