import TensorLowering.Proofs.Shape.Rules
import TensorLowering.Shape.Walk

/-!
# Positions stay inside

The flat positions that come from coordinates of a shape are below its volume:

* `position_lt` for a coordinate below the sizes, which all coordinates of a walk are
  (`within_of_mem_walk`);
* `broadcastPosition_lt` for a coordinate of a shape to which the source broadcasts (`Fits`);
* `block_le` for the block of elements that share their coordinates up to some axis.
-/

namespace TensorLowering.Shape

/-! ## Coordinates -/

/-- The coordinate has a place below the size on every axis. -/
abbrev Within (coordinate shape : List Nat) : Prop := List.Forall₂ (· < ·) coordinate shape

/-- Row-major positions in mixed radix stay below the product of the radices. -/
theorem position_lt {coordinate shape : List Nat} (h : Within coordinate shape) :
    position coordinate (strides shape) < volume shape := by
  induction h with
  | nil => exact Nat.one_pos
  | @cons c size coordinate shape hc _ ih =>
    calc c * volume shape + position coordinate (strides shape)
        < c * volume shape + volume shape := Nat.add_lt_add_left ih _
      _ = (c + 1) * volume shape := (Nat.succ_mul ..).symm
      _ ≤ size * volume shape := Nat.mul_le_mul_right _ hc

theorem within_advanceCarry {coordinate shape : List Nat} (h : Within coordinate shape) :
    Within (advanceCarry coordinate shape).1 shape := by
  induction h with
  | nil => exact .nil
  | cons hc _ ih =>
    unfold advanceCarry
    split
    · rename_i hrest
      rw [hrest] at ih
      split
      · exact .cons ‹_› ih
      · exact .cons (Nat.zero_lt_of_lt hc) ih
    · rename_i hrest
      rw [hrest] at ih
      exact .cons hc ih

theorem within_origin {shape : List Nat} (h : volume shape ≠ 0) : Within (origin shape) shape := by
  induction shape with
  | nil => exact .nil
  | cons size shape ih =>
    obtain ⟨hs, hv⟩ := Nat.mul_ne_zero_iff.mp h
    exact .cons (Nat.pos_of_ne_zero hs) (ih hv)

theorem within_of_mem_walkFrom {shape : List Nat} {count : Nat} {start c : List Nat}
    (h : Within start shape) (hc : c ∈ walkFrom shape count start) : Within c shape := by
  induction count generalizing start with
  | zero => cases hc
  | succ count ih =>
    rcases List.mem_cons.mp hc with rfl | hc
    · exact h
    · exact ih (within_advanceCarry h) hc

theorem within_of_mem_walk {shape c : List Nat} (hc : c ∈ walk shape) : Within c shape := by
  rw [walk_eq_walkFrom] at hc
  by_cases hv : volume shape = 0
  · rw [hv] at hc
    cases hc
  · exact within_of_mem_walkFrom (within_origin hv) hc

/-! ## Blocks -/

/-- The volume of a shape, split at an axis. -/
theorem volume_split {shape : List Nat} {axis : Nat} (h : axis < shape.length) : volume shape =
    volume (shape.take axis) * shape.getD axis 0 * volume (shape.drop (axis + 1)) := by
  conv => lhs; rw [← List.take_append_drop axis shape, volume_append,
    List.drop_eq_getElem_cons h, volume_cons, ← Nat.mul_assoc]
  rw [List.getD_eq_getElem?_getD, List.getElem?_eq_getElem h, Option.getD_some]

theorem volume_take_mul_drop (shape : List Nat) (axis : Nat) :
    volume (shape.take axis) * volume (shape.drop axis) = volume shape := by
  rw [← volume_append, List.take_append_drop]

theorem volume_of_getLast? {shape : List Nat} {last : Nat} (h : shape.getLast? = some last) :
    volume shape = volume shape.dropLast * last := by
  obtain ⟨init, rfl⟩ := List.getLast?_eq_some_iff.mp h
  rw [List.dropLast_concat, volume_append, volume_cons, volume_nil, Nat.mul_one]

/-- The block with number `i` of `count` blocks ends inside them. -/
theorem block_le {i count : Nat} (h : i < count) (length : Nat) :
    i * length + length ≤ count * length := by
  rw [← Nat.succ_mul]
  exact Nat.mul_le_mul_right length h

/-- The same for the blocks with number `i` of each of `outer` groups of `size` blocks. -/
theorem nested_block_le {o outer i size : Nat} (ho : o < outer) (hi : i < size) (length : Nat) :
    (o * size + i) * length + length ≤ outer * size * length :=
  block_le (Nat.lt_of_lt_of_le (Nat.add_lt_add_left hi _) (block_le ho size)) length

/-! ## Broadcasting -/

/-- The source broadcasts to the result: on its axes it has size 1 or that of the result. -/
def Fits (source result : List Nat) : Prop :=
  List.Forall₂ (fun size r => size = 1 ∨ size = r) source
    (result.drop (result.length - source.length))

theorem Fits.length_le {source result : List Nat} (h : Fits source result) :
    source.length ≤ result.length := by
  have := h.length_eq
  rw [List.length_drop] at this
  omega

theorem Fits.trans {source middle result : List Nat} (h : Fits source middle)
    (h' : Fits middle result) : Fits source result := by
  have hdrop := List.forall₂_drop (middle.length - source.length) h'
  have hle := h.length_le
  have hle' := h'.length_le
  rw [List.drop_drop, show result.length - middle.length + (middle.length - source.length) =
    result.length - source.length by omega] at hdrop
  refine forall₂_of_common h.flip hdrop fun m size r hs hr => ?_
  rcases hs with hs | rfl
  · exact .inl hs
  · exact hr

theorem broadcastSize_fits {x y r : Nat} (h : broadcastSize (some x) (some y) = .ok (some r)) :
    (x = 1 ∨ x = r) ∧ (y = 1 ∨ y = r) := by
  simp only [broadcastSize] at h
  split at h
  · simp_all
  · split at h
    · simp_all
    · split at h <;> simp_all

theorem forall₂_of_broadcastSize {xs ys rs : List Nat} (hlen : xs.length = ys.length)
    (h : List.Forall₂ (fun pair dim => broadcastSize pair.1 pair.2 = .ok dim)
      (List.zip (xs.map some) (ys.map some)) (rs.map some)) :
    List.Forall₂ (fun x r => x = 1 ∨ x = r) xs rs ∧
      List.Forall₂ (fun y r => y = 1 ∨ y = r) ys rs := by
  induction xs generalizing ys rs with
  | nil =>
    obtain rfl := List.length_eq_zero_iff.mp hlen.symm
    cases rs with
    | nil => exact ⟨.nil, .nil⟩
    | cons r rs => cases h
  | cons x xs ih =>
    cases ys with
    | nil => cases hlen
    | cons y ys =>
      cases rs with
      | nil => cases h
      | cons r rs =>
        obtain ⟨hr, h⟩ := List.forall₂_cons.mp h
        obtain ⟨hx, hy⟩ := broadcastSize_fits hr
        obtain ⟨hxs, hys⟩ := ih (Nat.succ.inj hlen) h
        exact ⟨.cons hx hxs, .cons hy hys⟩

/-- Both operands fit what they broadcast to. -/
theorem fits_of_broadcast {left right result : List Nat} (h : broadcast left right = .ok result) :
    Fits left result ∧ Fits right result := by
  have hpart := broadcast_eq_ok h
  have hlen := length_broadcastPartial hpart
  rw [broadcastPartial_eq_ok, alignRight_map_some, alignRight_map_some] at hpart
  simp only [List.length_map] at hlen hpart
  rw [← hlen] at hpart
  have hpad {source : List Nat} (hs : source.length ≤ result.length)
      (hf : List.Forall₂ (fun size r => size = 1 ∨ size = r)
        (List.replicate (result.length - source.length) 1 ++ source) result) :
      Fits source result := by
    have := List.forall₂_drop (result.length - source.length) hf
    rwa [List.drop_left' (List.length_replicate ..)] at this
  obtain ⟨hl, hr⟩ := forall₂_of_broadcastSize (by simp; omega) hpart
  exact ⟨hpad (by omega) hl, hpad (by omega) hr⟩

/-- The coordinate of the source that a coordinate of the result reads. -/
def clamp (source coordinate : List Nat) : List Nat :=
  List.zipWith (fun size c => if size = 1 then 0 else c) source
    (coordinate.drop (coordinate.length - source.length))

/-- What a coordinate of the result reads lies inside the source. -/
theorem within_clamp {source result coordinate : List Nat} (h : Fits source result)
    (hc : Within coordinate result) : Within (clamp source coordinate) source := by
  rw [clamp, hc.length_eq]
  have hown := List.forall₂_drop (result.length - source.length) hc
  unfold Fits at h
  generalize List.drop (result.length - source.length) coordinate = own at hown ⊢
  generalize List.drop (result.length - source.length) result = tail at h hown
  clear hc
  induction h generalizing own with
  | nil => exact .nil
  | @cons size r source tail hs _ ih =>
    obtain ⟨c, rest, hlt, hrest, rfl⟩ := List.forall₂_cons_right_iff.mp hown
    refine .cons ?_ (ih rest hrest)
    dsimp only
    split
    · omega
    · rcases hs with hs | rfl
      · contradiction
      · exact hlt

theorem broadcastPosition_lt {source result coordinate : List Nat} (h : Fits source result)
    (hc : Within coordinate result) :
    broadcastPosition source coordinate < volume source :=
  position_lt (within_clamp h hc)

/-- A coordinate of the shape reads itself. -/
theorem clamp_self {shape c : List Nat} (h : Within c shape) : clamp shape c = c := by
  rw [clamp, h.length_eq, Nat.sub_self, List.drop_zero]
  induction h with
  | nil => rfl
  | @cons c size coordinate sizes hc _ ih =>
    rw [List.zipWith_cons_cons, ih, List.cons.injEq]
    exact ⟨by split <;> omega, rfl⟩

/-! ## Reduced axes -/

/-- Removing the same axes of a coordinate and a shape keeps it below the sizes. -/
theorem within_collapse {keepDims : Bool} {coordinate shape : List Nat} (axes : List Nat)
    (h : Within coordinate shape) :
    Within (collapse 0 keepDims axes coordinate) (collapse 1 keepDims axes shape) := by
  refine List.rel_filterMap ?_ (forall₂_zipIdx h)
  rintro ⟨c, axis⟩ ⟨size, axis'⟩ ⟨hlt, rfl : axis = axis'⟩
  dsimp only
  split
  · split
    · exact .some Nat.one_pos
    · exact .none
  · exact .some hlt

/-! ## Indices -/

theorem resolveAxis_lt {axis : Int} {rank a : Nat} (h : resolveAxis axis rank = .ok a) :
    a < rank :=
  Int.ofNat_lt.mp (fromBack?_eq_some.mp (resolveAxis_eq_ok.mp h)).2

/-- Sizes of more than 63 bits count as negative, so no index is below them. -/
theorem resolveIndex_lt {index : Int} {size i : Nat} (h : resolveIndex index size = .ok i) :
    i < size :=
  have hlt := (fromBack?_eq_some.mp (resolveIndex_iff.mp h)).2
  Int.ofNat_lt.mp (Int.lt_of_lt_of_le hlt (signedSize_le size))

theorem signedSize_neg {size : Nat} (h : 9223372036854775808 ≤ size) (h' : size < UInt64.size) :
    signedSize size < 0 := by
  have hbmod : signedSize size = size - UInt64.size := by
    unfold signedSize Word.signed
    rw [Int.bmod_def]
    simp only [UInt64.size] at h' ⊢
    omega
  omega

/-- Where the size is a 64-bit word, the place that an index names is counted from either end. -/
theorem eq_of_resolveIndex {i : Int} {size k : Nat} (hsize : size < UInt64.size)
    (h : resolveIndex i size = .ok k) : (k : Int) = if i < 0 then i + size else i := by
  obtain ⟨hplace, hlt⟩ := fromBack?_eq_some.mp (resolveIndex_iff.mp h)
  have hword : size < 9223372036854775808 := Nat.lt_of_not_le fun hge => by
    have hneg := signedSize_neg hge hsize
    omega
  rwa [signedSize_of_lt hword] at hplace

end TensorLowering.Shape
