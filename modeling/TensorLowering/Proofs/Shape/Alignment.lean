import TensorLowering.Proofs.Shape.Rules

/-!
# Shapes aligned at their last axes

Broadcasting numbers the axes from the back, and a shape has size 1 on every axis that it lacks
(`dimFromBack`). Read so, it works axis by axis (`broadcastPartial_eq_ok_iff`,
`exists_broadcastPartial`), and inherits the laws of single sizes: it does not depend on the order of
the shapes (`broadcastPartial_comm`) or on which two come first (`broadcastPartial_assoc`). For known
sizes this is the rule `IsBroadcast`, stated for any number of shapes (`broadcast_eq_ok_iff_aligned`,
`isBroadcast_triple_iff`).
-/

namespace TensorLowering.Shape

/-- The entry of the axis with number `i` from the back, and `one` where there is no such axis. -/
def dimFromBack {α : Type} (one : α) (dims : List α) (i : Nat) : α :=
  dims.reverse.getD i one

section FromBack

variable {α : Type} {one : α} {dims : List α} {i : Nat}

theorem dimFromBack_map {β : Type} (f : α → β) (one : α) (dims : List α) (i : Nat) :
    dimFromBack (f one) (dims.map f) i = f (dimFromBack one dims i) := by
  simp only [dimFromBack, List.getD_eq_getElem?_getD, ← List.map_reverse, List.getElem?_map,
    Option.getD_map]

theorem dimFromBack_of_length_le (h : dims.length ≤ i) : dimFromBack one dims i = one := by
  simp [dimFromBack, List.getD_eq_getElem?_getD, h]

theorem getElem?_eq_dimFromBack (one : α) (h : i < dims.length) :
    dims[i]? = some (dimFromBack one dims (dims.length - 1 - i)) := by
  have hlt : dims.length - 1 - i < dims.length := by omega
  have hi : dims.length - 1 - (dims.length - 1 - i) = i := by omega
  simp [dimFromBack, List.getD_eq_getElem?_getD, List.getElem?_reverse hlt, hi, h]

theorem dimFromBack_reverse_map (f : Nat → α) (n i : Nat) :
    dimFromBack one ((List.range n).map f).reverse i = if i < n then f i else one := by
  by_cases hi : i < n <;> simp [dimFromBack, List.getD_eq_getElem?_getD, hi]

theorem dimFromBack_alignRight {dims : List (Option Nat)} {rank : Nat} (i : Nat) :
    dimFromBack (some 1) (alignRight rank dims) i = dimFromBack (some 1) dims i := by
  simp only [dimFromBack, alignRight, List.reverse_append, List.reverse_replicate,
    List.getD_eq_getElem?_getD]
  by_cases hi : i < dims.length
  · rw [List.getElem?_append_left (by simpa using hi)]
  · have hnone : dims.reverse[i]? = none := by simpa using Nat.le_of_not_lt hi
    rw [List.getElem?_append_right (by simpa using Nat.le_of_not_lt hi), hnone,
      List.getElem?_replicate]
    split <;> rfl

end FromBack

variable {a b c ab left right dims : List (Option Nat)}

theorem getElem?_alignRight {rank i : Nat} (hle : dims.length ≤ rank) (hi : i < rank) :
    (alignRight rank dims)[i]? = some (dimFromBack (some 1) dims (rank - 1 - i)) := by
  have hlen := length_alignRight hle
  rw [getElem?_eq_dimFromBack (some 1) (hlen.symm ▸ hi), dimFromBack_alignRight, hlen]

/-- Aligned at the last axes, two shapes broadcast axis by axis. -/
theorem broadcastPartial_eq_ok_iff : broadcastPartial left right = .ok dims ↔
    dims.length = max left.length right.length ∧ ∀ i, broadcastSize (dimFromBack (some 1) left i)
      (dimFromBack (some 1) right i) = .ok (dimFromBack (some 1) dims i) := by
  have hpair {i : Nat} (hi : i < max left.length right.length) :
      (List.zip (alignRight (max left.length right.length) left)
        (alignRight (max left.length right.length) right))[max left.length right.length - 1 - i]? =
        some (dimFromBack (some 1) left i, dimFromBack (some 1) right i) := by
    have hlt : max left.length right.length - 1 - i < max left.length right.length := by omega
    have hback : max left.length right.length - 1 - (max left.length right.length - 1 - i) = i := by
      omega
    rw [List.getElem?_zip_eq_some, getElem?_alignRight (Nat.le_max_left ..) hlt,
      getElem?_alignRight (Nat.le_max_right ..) hlt, hback]
    exact ⟨rfl, rfl⟩
  constructor
  · intro h
    have hlen := length_broadcastPartial h
    refine ⟨hlen, fun i => ?_⟩
    by_cases hi : i < max left.length right.length
    · obtain ⟨dim, hdim, hok⟩ := getElem?_of_forall₂ (broadcastPartial_eq_ok.mp h) (hpair hi)
      have hlt : max left.length right.length - 1 - i < dims.length := by omega
      have hback : dims.length - 1 - (max left.length right.length - 1 - i) = i := by omega
      rw [getElem?_eq_dimFromBack (some 1) hlt, hback] at hdim
      rwa [← Option.some.inj hdim] at hok
    · rw [dimFromBack_of_length_le (by omega), dimFromBack_of_length_le (by omega),
        dimFromBack_of_length_le (by omega), broadcastSize_one]
  · rintro ⟨hlen, h⟩
    have hzip : (List.zip (alignRight (max left.length right.length) left)
        (alignRight (max left.length right.length) right)).length = dims.length := by
      rw [List.length_zip, length_alignRight (Nat.le_max_left ..),
        length_alignRight (Nat.le_max_right ..), Nat.min_self, hlen]
    rw [broadcastPartial_eq_ok, List.forall₂_iff_get]
    refine ⟨hzip, fun i hi hi' => ?_⟩
    have hlt : dims.length - 1 - i < max left.length right.length := by omega
    have hback : max left.length right.length - 1 - (dims.length - 1 - i) = i := by omega
    obtain ⟨_, hget⟩ := List.getElem?_eq_some_iff.mp (hback ▸ hpair hlt)
    obtain ⟨_, hget'⟩ := List.getElem?_eq_some_iff.mp (getElem?_eq_dimFromBack (some 1) hi')
    rw [List.get_eq_getElem, List.get_eq_getElem, hget, hget']
    exact h _

theorem exists_broadcastPartial : (∃ dims, broadcastPartial left right = .ok dims) ↔
    ∀ i, ∃ dim, broadcastSize (dimFromBack (some 1) left i) (dimFromBack (some 1) right i) =
      .ok dim := by
  constructor
  · rintro ⟨dims, h⟩ i
    exact ⟨_, (broadcastPartial_eq_ok_iff.mp h).2 i⟩
  · intro h
    choose dim hdim using h
    refine ⟨((List.range (max left.length right.length)).map dim).reverse,
      broadcastPartial_eq_ok_iff.mpr ⟨by simp, fun i => ?_⟩⟩
    rw [dimFromBack_reverse_map]
    split
    · exact hdim i
    · rw [dimFromBack_of_length_le (by omega), dimFromBack_of_length_le (by omega),
        broadcastSize_one]

/-! ## Laws -/

theorem broadcastSize_comm {x y dim : Option Nat} :
    broadcastSize x y = .ok dim ↔ broadcastSize y x = .ok dim := by
  unfold broadcastSize
  grind

/-- An open size lies between 1 and all other sizes, and two different ones of these fit nothing. -/
theorem exists_of_broadcastSize {x y z xy dim : Option Nat} (h : broadcastSize x y = .ok xy)
    (h' : broadcastSize xy z = .ok dim) :
    ∃ yz, broadcastSize y z = .ok yz ∧ broadcastSize x yz = .ok dim := by
  unfold broadcastSize at *
  grind

theorem broadcastPartial_eq_ok_comm :
    broadcastPartial left right = .ok dims ↔ broadcastPartial right left = .ok dims := by
  rw [broadcastPartial_eq_ok_iff, broadcastPartial_eq_ok_iff, Nat.max_comm]
  simp only [broadcastSize_comm]

theorem broadcastPartial_comm (left right : List (Option Nat)) :
    (broadcastPartial left right).toOption = (broadcastPartial right left).toOption := by
  refine Option.ext fun dims => ?_
  rw [toOption_eq_some, toOption_eq_some, broadcastPartial_eq_ok_comm]

theorem exists_of_broadcastPartial (h : broadcastPartial a b = .ok ab)
    (h' : broadcastPartial ab c = .ok dims) :
    ∃ bc, broadcastPartial b c = .ok bc ∧ broadcastPartial a bc = .ok dims := by
  obtain ⟨hlen, hsize⟩ := broadcastPartial_eq_ok_iff.mp h
  obtain ⟨hlen', hsize'⟩ := broadcastPartial_eq_ok_iff.mp h'
  obtain ⟨bc, hbc⟩ : ∃ bc, broadcastPartial b c = .ok bc :=
    exists_broadcastPartial.mpr fun i => (exists_of_broadcastSize (hsize i) (hsize' i)).imp
      fun _ h => h.1
  obtain ⟨hlenbc, hsizebc⟩ := broadcastPartial_eq_ok_iff.mp hbc
  refine ⟨bc, hbc, broadcastPartial_eq_ok_iff.mpr ⟨by omega, fun i => ?_⟩⟩
  obtain ⟨yz, hyz, hdim⟩ := exists_of_broadcastSize (hsize i) (hsize' i)
  rwa [Except.ok.inj ((hsizebc i).symm.trans hyz)]

theorem broadcastPartial_assoc (a b c : List (Option Nat)) :
    (broadcastPartial a b >>= (broadcastPartial · c)).toOption =
      (broadcastPartial b c >>= broadcastPartial a).toOption := by
  refine Option.ext fun dims => ?_
  rw [toOption_eq_some, toOption_eq_some, bind_eq_ok, bind_eq_ok]
  constructor
  · rintro ⟨ab, h, h'⟩
    exact exists_of_broadcastPartial h h'
  · rintro ⟨bc, h, h'⟩
    obtain ⟨ba, hba, hdims⟩ := exists_of_broadcastPartial (broadcastPartial_eq_ok_comm.mp h)
      (broadcastPartial_eq_ok_comm.mp h')
    exact ⟨ba, broadcastPartial_eq_ok_comm.mp hba, broadcastPartial_eq_ok_comm.mp hdims⟩

theorem broadcastPartial_nil_right (dims : List (Option Nat)) :
    broadcastPartial dims [] = .ok dims :=
  broadcastPartial_eq_ok_comm.mp (broadcastPartial_nil dims)

/-- The order in which two shapes are joined to a third one makes no difference. -/
theorem broadcastPartial_right_comm (a b c : List (Option Nat)) :
    (broadcastPartial a b >>= (broadcastPartial · c)).toOption =
      (broadcastPartial a c >>= (broadcastPartial · b)).toOption := by
  rw [broadcastPartial_assoc, broadcastPartial_assoc, toOption_bind, toOption_bind,
    broadcastPartial_comm b c]

/-! ## Known sizes -/

/-- The rule of broadcasting: aligned at their last axes, with size 1 on those they lack, the shapes
agree with the result on every axis on which they do not have size 1, and the result has no other
axes and no other sizes. -/
structure IsBroadcast (shapes : List (List Nat)) (result : List Nat) : Prop where
  rank : result.length = (shapes.map List.length).foldr max 0
  fits : ∀ shape ∈ shapes, ∀ i,
    dimFromBack 1 shape i = 1 ∨ dimFromBack 1 shape i = dimFromBack 1 result i
  attained : ∀ i, dimFromBack 1 result i = 1 ∨
    ∃ shape ∈ shapes, dimFromBack 1 shape i = dimFromBack 1 result i

section Known

variable {x y z xy result : List Nat}

theorem broadcastSize_eq_ok_some {m n r : Nat} : broadcastSize (some m) (some n) = .ok (some r) ↔
    (m = 1 ∨ m = r) ∧ (n = 1 ∨ n = r) ∧ (r = 1 ∨ m = r ∨ n = r) := by
  unfold broadcastSize
  grind

theorem isBroadcast_pair : IsBroadcast [x, y] result ↔ result.length = max x.length y.length ∧
    ∀ i, broadcastSize (some (dimFromBack 1 x i)) (some (dimFromBack 1 y i)) =
      .ok (some (dimFromBack 1 result i)) := by
  simp only [broadcastSize_eq_ok_some]
  constructor
  · rintro ⟨hrank, hfits, hattained⟩
    exact ⟨by simpa using hrank, fun i => ⟨hfits x (by simp) i, hfits y (by simp) i,
      by simpa using hattained i⟩⟩
  · rintro ⟨hrank, h⟩
    exact ⟨by simpa using hrank, by simpa using ⟨fun i => (h i).1, fun i => (h i).2.1⟩,
      fun i => by simpa using (h i).2.2⟩

theorem broadcast_eq_ok_iff_aligned : broadcast x y = .ok result ↔ IsBroadcast [x, y] result := by
  have hpartial : broadcast x y = .ok result ↔
      broadcastPartial (x.map some) (y.map some) = .ok (result.map some) :=
    ⟨broadcast_eq_ok, fun h => by simp [broadcast, h]⟩
  rw [hpartial, broadcastPartial_eq_ok_iff, isBroadcast_pair]
  simp only [List.length_map, dimFromBack_map]

theorem isBroadcast_triple : IsBroadcast [x, y, z] result ↔
    result.length = max x.length (max y.length z.length) ∧ ∀ i,
      (dimFromBack 1 x i = 1 ∨ dimFromBack 1 x i = dimFromBack 1 result i) ∧
      (dimFromBack 1 y i = 1 ∨ dimFromBack 1 y i = dimFromBack 1 result i) ∧
      (dimFromBack 1 z i = 1 ∨ dimFromBack 1 z i = dimFromBack 1 result i) ∧
      (dimFromBack 1 result i = 1 ∨ dimFromBack 1 x i = dimFromBack 1 result i ∨
        dimFromBack 1 y i = dimFromBack 1 result i ∨
        dimFromBack 1 z i = dimFromBack 1 result i) := by
  constructor
  · rintro ⟨hrank, hfits, hattained⟩
    exact ⟨by simpa using hrank, fun i => ⟨hfits x (by simp) i, hfits y (by simp) i,
      hfits z (by simp) i, by simpa using hattained i⟩⟩
  · rintro ⟨hrank, h⟩
    exact ⟨by simpa using hrank,
      by simpa using ⟨fun i => (h i).1, fun i => (h i).2.1, fun i => (h i).2.2.1⟩,
      fun i => by simpa using (h i).2.2.2⟩

theorem exists_isBroadcast (h : ∀ i, ∃ n, broadcastSize (some (dimFromBack 1 x i))
    (some (dimFromBack 1 y i)) = .ok (some n)) : ∃ xy, IsBroadcast [x, y] xy := by
  obtain ⟨dims, hdims⟩ : ∃ dims, broadcastPartial (x.map some) (y.map some) = .ok dims := by
    refine exists_broadcastPartial.mpr fun i => ?_
    rw [dimFromBack_map, dimFromBack_map]
    exact (h i).imp' some fun _ hn => hn
  exact ⟨_, broadcast_eq_ok_iff_aligned.mp (by rw [broadcast, hdims]; rfl)⟩

/-- Three shapes broadcast in two steps. -/
theorem isBroadcast_triple_iff : IsBroadcast [x, y, z] result ↔
    ∃ xy, IsBroadcast [x, y] xy ∧ IsBroadcast [xy, z] result := by
  constructor
  · intro h
    obtain ⟨hrank, h⟩ := isBroadcast_triple.mp h
    obtain ⟨xy, hxy⟩ : ∃ xy, IsBroadcast [x, y] xy := by
      refine exists_isBroadcast fun i =>
        ⟨if dimFromBack 1 x i = 1 then dimFromBack 1 y i else dimFromBack 1 x i, ?_⟩
      rw [broadcastSize_eq_ok_some]
      grind
    obtain ⟨hlen, hsize⟩ := isBroadcast_pair.mp hxy
    refine ⟨xy, hxy, isBroadcast_pair.mpr ⟨by omega, fun i => ?_⟩⟩
    obtain ⟨hx, hy, hxy⟩ := broadcastSize_eq_ok_some.mp (hsize i)
    rw [broadcastSize_eq_ok_some]
    grind
  · rintro ⟨xy, hxy, hresult⟩
    obtain ⟨hlen, hsize⟩ := isBroadcast_pair.mp hxy
    obtain ⟨hlen', hsize'⟩ := isBroadcast_pair.mp hresult
    refine isBroadcast_triple.mpr ⟨by omega, fun i => ?_⟩
    obtain ⟨hx, hy, hxy⟩ := broadcastSize_eq_ok_some.mp (hsize i)
    obtain ⟨hxy', hz, hresult⟩ := broadcastSize_eq_ok_some.mp (hsize' i)
    grind

end Known

end TensorLowering.Shape
