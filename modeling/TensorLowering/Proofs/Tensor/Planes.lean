import TensorLowering.Proofs.Op.Acceptance
import TensorLowering.Proofs.Tensor.Tabulate

/-!
# Planes of packed tensors

A packed tensor has two places on its last axis, and `plane` is the tensor of one of them: what
gathering takes from the last axis (`gather_plane`). Two tensors of one type are the planes of what
is packed of them (`exists_pack`).
-/

namespace TensorLowering

open Shape

namespace Shape

theorem resolveIndex_natCast {i size : Nat} (h : i < size) (hsize : size < 9223372036854775808) :
    resolveIndex i size = .ok i := by
  rw [resolveIndex_iff, signedSize_of_lt hsize]
  exact fromBack?_natCast (Int.ofNat_lt.mpr h)

end Shape

namespace Tensor

/-! ## Constants -/

theorem toInt_toInt64 {n : Int} (h : -9223372036854775808 ≤ n) (h' : n < 9223372036854775808) :
    n.toInt64.toInt = n := by
  rw [Int.toInt64, Int64.toInt_ofInt]
  apply Int.bmod_eq_of_le <;> simp only [Int64.size] <;> omega

theorem ints_ofInts {ns : List Nat} (h : ∀ n ∈ ns, n < 9223372036854775808) :
    (ofInts (ns.map Int.ofNat)).ints = .ok (ns.map Int.ofNat) := by
  have hmap : ((ns.map Int.ofNat).map Int.toInt64).map Int64.toInt = ns.map Int.ofNat := by
    rw [List.map_map, List.map_map]
    refine List.map_congr_left fun n hn => ?_
    have hn := h n hn
    exact toInt_toInt64 (n := (n : Int)) (by omega) (by omega)
  exact congrArg Except.ok hmap

theorem ints_ofInt {n : Nat} (h : n < 9223372036854775808) : (ofInt n).ints = .ok [(n : Int)] :=
  congrArg (fun i => Except.ok [i]) (toInt_toInt64 (by omega) (by omega))

/-- The elements of a tensor of integers are signed words. -/
theorem isSigned_ints {t : Tensor} {ns : List Int} (h : t.ints = .ok ns) :
    ∀ n ∈ ns, Word.IsSigned n := by
  obtain ⟨e, shape, data, hsize⟩ := t
  cases e with
  | i64 =>
    obtain rfl := Except.ok.inj h
    intro n hn
    obtain ⟨x, -, rfl⟩ := List.mem_map.mp hn
    exact ⟨x.le_toInt, x.toInt_lt⟩
  | i32 =>
    obtain rfl := Except.ok.inj h
    intro n hn
    obtain ⟨x, -, rfl⟩ := List.mem_map.mp hn
    have hle := x.le_toInt
    have hlt := x.toInt_lt
    exact ⟨by omega, by omega⟩
  | _ => cases h

/-! ## Planes -/

/-- The tensor of one place on the last axis. -/
def plane (k : Nat) (t : Tensor) : Tensor :=
  tabulate t.elementType t.shape.dropLast fun c => t.entry (c ++ [k])

@[simp] theorem elementType_plane (k : Nat) (t : Tensor) :
    (plane k t).elementType = t.elementType := rfl

@[simp] theorem shape_plane (k : Nat) (t : Tensor) : (plane k t).shape = t.shape.dropLast := rfl

theorem plane_tabulate {e : ElementType} {shape : List Nat} {f : List Nat → e.Carrier} {n k : Nat}
    (h : k < n) : plane k (tabulate e (shape ++ [n]) f) = tabulate e shape fun c => f (c ++ [k]) := by
  have hshape : (tabulate e (shape ++ [n]) f).shape.dropLast = shape := List.dropLast_concat
  rw [plane, hshape]
  exact tabulate_congr fun c hc => entry_tabulate (within_append hc (.cons h .nil))

/-- Gathering a single index from the last axis. -/
theorem gather_plane {t : Tensor} {axis : Int} {k n : Nat}
    (ha : resolveAxis axis t.shape.length = .ok (t.shape.length - 1))
    (hlast : t.shape.getLast? = some n) (hk : k < n) (hn : n < 9223372036854775808) :
    gather axis t (ofInt k) = .ok (plane k t) := by
  obtain ⟨shape, hshape⟩ := List.getLast?_eq_some_iff.mp hlast
  have hlen : t.shape.length - 1 = shape.length := by simp [hshape]
  have hsize : t.shape.getD shape.length 0 = n := by simp [hshape]
  rw [hlen] at ha
  have hnamed : [(k : Int)].mapM (resolveIndex · (t.shape.getD shape.length 0)) = .ok [k] := by
    rw [hsize, mapM_eq_ok]
    exact .cons (resolveIndex_natCast hk hn) .nil
  have hgather := gather_tabulate (f := t.entry) ha (ints_ofInt (by omega)) hnamed
  rw [tabulate_entry] at hgather
  have htake : t.shape.take shape.length ++ (ofInt (k : Int)).shape ++
      t.shape.drop (shape.length + 1) = t.shape.dropLast := by
    simp [hshape, ofInt, scalar]
  rw [hgather, htake]
  refine congrArg Except.ok (tabulate_congr fun c hc => ?_)
  have hc : c.length = shape.length := by simpa [hshape] using hc.length_eq
  simp [← hc, ofInt, scalar, position]

/-! ## Packing -/

theorem exists_tabulate {e : ElementType} {shape : List Nat} {t : Tensor}
    (h : t.type = ⟨e, .fixed shape⟩) : ∃ f, t = tabulate e shape f := by
  obtain rfl : t.elementType = e := congrArg TensorType.elementType h
  obtain rfl : t.shape = shape := PartialShape.fixed.inj (congrArg TensorType.shape h)
  exact ⟨t.entry, (tabulate_entry t).symm⟩

/-- What is packed of two tensors of one type has them as its planes. -/
theorem exists_pack {x y : Tensor} (h : x.type = y.type) :
    ∃ x' y' packed, unsqueeze [-1] x = .ok x' ∧ unsqueeze [-1] y = .ok y' ∧
      concat (-1) x' [y'] = .ok packed ∧ packed.type = ⟨x.elementType, .fixed (x.shape ++ [2])⟩ ∧
      plane 0 packed = x ∧ plane 1 packed = y := by
  obtain ⟨f, hx⟩ := exists_tabulate (t := x) rfl
  obtain ⟨g, hy⟩ := exists_tabulate h.symm
  generalize x.elementType = e, x.shape = shape at *
  subst hx hy
  have haxis : resolveAxis (-1) (shape.length + 1) = .ok shape.length :=
    resolveAxis_neg_one (Nat.succ_pos _)
  refine ⟨_, _, _, unsqueeze_tabulate, unsqueeze_tabulate,
    concat_tabulate [] haxis, rfl, ?_, ?_⟩
  · rw [plane_tabulate (by omega)]
    refine tabulate_congr fun c hc => ?_
    simp [← hc.length_eq]
  · rw [plane_tabulate (by omega)]
    refine tabulate_congr fun c hc => ?_
    simp [← hc.length_eq]

/-- Only tensors of one type can be packed. -/
theorem type_eq_of_pack {x y x' y' packed : Tensor} (hx : unsqueeze [-1] x = .ok x')
    (hy : unsqueeze [-1] y = .ok y') (h : concat (-1) x' [y'] = .ok packed) : x.type = y.type := by
  have hshape := shape_unsqueeze hx
  have hshape' := shape_unsqueeze hy
  obtain ⟨_, -, hx⟩ := type_unsqueeze hx
  obtain ⟨_, -, hy⟩ := type_unsqueeze hy
  have helement : y.elementType = x.elementType :=
    (congrArg TensorType.elementType hy).symm.trans <|
      (elementType_of_concat h y' List.mem_cons_self).trans (congrArg TensorType.elementType hx)
  obtain ⟨a, ha, hmatch, -⟩ := type_concat h
  obtain ⟨hlen, herase⟩ := hmatch y' List.mem_cons_self
  rw [hshape, List.length_append] at ha
  obtain rfl := Except.ok.inj ((resolveAxis_neg_one (Nat.succ_pos _)).symm.trans ha)
  have hrank : y.shape.length = x.shape.length := by simpa [hshape, hshape'] using hlen
  have hsizes : y.shape = x.shape := by
    rw [hshape, hshape'] at herase
    simpa [List.eraseIdx_append_of_length_le, hrank] using herase
  rw [type, type, helement, hsizes]

end Tensor

/-! ## Padding -/

namespace Kernel

/-- The coordinate of the data that a coordinate of the padded tensor reads, if it is not the fill
value. -/
def padCoordinate : List Nat → List Int → List Nat → Option (List Nat)
  | size :: sizes, before :: befores, c :: coordinate =>
    let i := (c : Int) - before
    if 0 ≤ i ∧ i < signedSize size then
      (padCoordinate sizes befores coordinate).map (i.toNat :: ·)
    else none
  | _, _, _ => some []

variable {sizes coordinate : List Nat} {before : List Int}

/-- Constant padding compares differences that have wrapped around, but those of places in the data do
not wrap around, and no other one gets there. -/
theorem padSource_constant (axis : Nat) (hb : before.length = sizes.length)
    (hc : coordinate.length = sizes.length) (hsigned : ∀ b ∈ before, Word.IsSigned b)
    (hsmall : ∀ c ∈ coordinate, c < 9223372036854775808) :
    padSource .constant axis sizes (strides sizes) before coordinate =
      .ok ((padCoordinate sizes before coordinate).map (position · (strides sizes))) := by
  induction sizes generalizing axis before coordinate with
  | nil => rfl
  | cons size sizes ih =>
    obtain ⟨b, before, rfl⟩ := List.exists_cons_of_length_eq_add_one hb
    obtain ⟨c, coordinate, rfl⟩ := List.exists_cons_of_length_eq_add_one hc
    obtain ⟨⟨hle, hlt⟩, hsigned⟩ := List.forall_mem_cons.mp hsigned
    obtain ⟨hc', hsmall⟩ := List.forall_mem_cons.mp hsmall
    have hrest := ih (axis + 1) (Nat.succ.inj hb) (Nat.succ.inj hc) hsigned hsmall
    have hbound : signedSize size < 9223372036854775808 := (Word.isSigned_signed size).2
    have hinside : 0 ≤ Word.signed (c - b) ∧ Word.signed (c - b) < signedSize size ↔
        0 ≤ (c : Int) - b ∧ (c : Int) - b < signedSize size :=
      Word.signed_lt_iff (by omega) (by omega) hbound
    by_cases hi : 0 ≤ (c : Int) - b ∧ (c : Int) - b < signedSize size
    · have hword : Word.signed (c - b) = c - b := Word.signed_eq ⟨by omega, by omega⟩
      simp only [strides, padSource, padAxis, padCoordinate, hword, if_pos hi, hrest, ok_bind,
        pure_eq_ok, Option.map_map]
      rfl
    · simp only [strides, padSource, padAxis, padCoordinate, if_neg (mt hinside.mp hi), if_neg hi,
        Option.map_none]

theorem within_padCoordinate {c : List Nat} (hb : before.length = sizes.length)
    (hc : coordinate.length = sizes.length) (h : padCoordinate sizes before coordinate = some c) :
    Within c sizes := by
  induction sizes generalizing before coordinate c with
  | nil =>
    obtain rfl := Option.some.inj h
    exact .nil
  | cons size sizes ih =>
    obtain ⟨b, before, rfl⟩ := List.exists_cons_of_length_eq_add_one hb
    obtain ⟨x, coordinate, rfl⟩ := List.exists_cons_of_length_eq_add_one hc
    simp only [padCoordinate] at h
    split at h
    · rename_i hi
      obtain ⟨rest, hrest, rfl⟩ := Option.map_eq_some_iff.mp h
      have hsize := signedSize_le size
      exact .cons (by omega) (ih (Nat.succ.inj hb) (Nat.succ.inj hc) hrest)
    · cases h

/-- An axis that is not padded keeps its coordinate. -/
theorem padCoordinate_concat {k n : Nat} (hb : before.length = sizes.length)
    (hc : coordinate.length = sizes.length) (hk : k < n) (hn : n < 9223372036854775808) :
    padCoordinate (sizes ++ [n]) (before ++ [0]) (coordinate ++ [k]) =
      (padCoordinate sizes before coordinate).map (· ++ [k]) := by
  induction sizes generalizing before coordinate with
  | nil =>
    obtain rfl := List.length_eq_zero_iff.mp hb
    obtain rfl := List.length_eq_zero_iff.mp hc
    have hi : 0 ≤ (k : Int) - 0 ∧ (k : Int) - 0 < signedSize n := by
      rw [signedSize_of_lt hn]
      omega
    simp [padCoordinate, signedSize_of_lt hn, hk]
  | cons size sizes ih =>
    obtain ⟨b, before, rfl⟩ := List.exists_cons_of_length_eq_add_one hb
    obtain ⟨x, coordinate, rfl⟩ := List.exists_cons_of_length_eq_add_one hc
    simp only [List.cons_append, padCoordinate, ih (Nat.succ.inj hb) (Nat.succ.inj hc)]
    split
    · rw [Option.map_map, Option.map_map]
      rfl
    · rfl

end Kernel

namespace Tensor

variable {e : ElementType} {shape result : List Nat} {f : List Nat → e.Carrier} {bs as : List Int}

theorem read_tabulate {c : List Nat} (h : Within c shape) :
    Kernel.read (tabulate e shape f).data (position c (strides shape)) = .ok (f c) := by
  show Kernel.read ((walk shape).map f).toArray _ = _
  rw [Kernel.read, List.getElem?_toArray, List.getElem?_map, getElem?_walk (position_lt h),
    locate_position h, Option.map_some]
  rfl

/-- A padded tensor has the elements at the coordinates that are read, and the fill value where none
is. -/
theorem pad_eq_tabulate {mode : PadMode} {before after : Tensor} (z : e.Carrier)
    {source : List Nat → Option (List Nat)} (hb : before.ints = .ok bs) (ha : after.ints = .ok as)
    (hlb : bs.length = shape.length) (hla : as.length = shape.length)
    (hs : paddedShape shape bs as = .ok result)
    (hsource : ∀ c, Within c result → Kernel.padSource mode 0 shape (strides shape) bs c =
      .ok ((source c).map (position · (strides shape))))
    (hwithin : ∀ c d, Within c result → source c = some d → Within d shape) :
    pad mode (tabulate e shape f) before after (some (scalar e z)) =
      .ok (tabulate e result fun c => ((source c).map f).getD z) := by
  have hplan : Kernel.padSources mode shape bs result = .ok ((walk result).map fun c =>
      (source c).map (position · (strides shape))) :=
    mapM_eq_ok_map fun c hc => hsource c (mem_walk.mp hc)
  have hlengths : ¬(bs.length ≠ (tabulate e shape f).rank ∨
      as.length ≠ (tabulate e shape f).rank) := by
    simp [rank, hlb, hla]
  have hfill : (scalar e z).dataAs e = .ok #[z] := by simp [dataAs, dataAs?, scalar]
  simp only [pad, hb, ha, ok_bind, if_neg hlengths, shape_tabulate, hs, hplan,
    elementType_tabulate, Option.getD_some, hfill]
  refine bind_eq_ok.mpr ⟨_, mapM_eq_ok.mpr ?_, ofData_walk⟩
  rw [List.forall₂_map_left_iff, List.forall₂_map_right_iff, List.forall₂_same]
  intro c hc
  have hread : Kernel.read #[z] 0 = .ok z := rfl
  rw [hread, ok_bind]
  cases hd : source c with
  | none => rfl
  | some d => exact read_tabulate (hwithin c d (mem_walk.mp hc) hd)

/-- A padded size is a signed word. -/
theorem lt_of_paddedShape {sizes : List Nat} (h : paddedShape sizes bs as = .ok result) :
    ∀ n ∈ result, n < 9223372036854775808 := by
  induction sizes, bs, as using paddedShape.induct generalizing result with
  | case1 size sizes b bs a as ih =>
    simp only [paddedShape, paddedSize, bind_eq_ok, pure_eq_ok, Except.ok.injEq] at h
    obtain ⟨padded, hpadded, rest, hrest, rfl⟩ := h
    split at hpadded
    · cases hpadded
    obtain rfl := Except.ok.inj hpadded
    have hlt := (Word.isSigned_signed (signedSize size + b + a)).2
    exact List.forall_mem_cons.mpr ⟨by omega, ih hrest⟩
  | case2 =>
    simp_all [paddedShape]

theorem pad_tabulate {before after : Tensor} (z : e.Carrier)
    (hb : before.ints = .ok bs) (ha : after.ints = .ok as) (hlb : bs.length = shape.length)
    (hla : as.length = shape.length) (hs : paddedShape shape bs as = .ok result) :
    pad .constant (tabulate e shape f) before after (some (scalar e z)) =
      .ok (tabulate e result fun c => ((Kernel.padCoordinate shape bs c).map f).getD z) := by
  have hlen := length_paddedShape hlb hla hs
  have hsmall {c : List Nat} (hc : Within c result) : ∀ i ∈ c, i < 9223372036854775808 := by
    intro i hi
    obtain ⟨n, hn, hlt⟩ := exists_of_forall₂_left hc hi
    exact Nat.lt_trans hlt (lt_of_paddedShape hs n hn)
  exact pad_eq_tabulate z hb ha hlb hla hs
    (fun c hc => Kernel.padSource_constant 0 hlb (hc.length_eq.trans hlen) (isSigned_ints hb)
      (hsmall hc))
    fun c d hc hd => Kernel.within_padCoordinate hlb (hc.length_eq.trans hlen) hd

/-- Whether there is a padded tensor depends on the shape and the counts only. -/
theorem exists_pad {t before after : Tensor} (z : t.elementType.Carrier)
    (hb : before.ints = .ok bs) (ha : after.ints = .ok as) (hlb : bs.length = t.shape.length)
    (hla : as.length = t.shape.length) (hs : paddedShape t.shape bs as = .ok result) :
    ∃ v, pad .constant t before after (some (scalar t.elementType z)) = .ok v := by
  obtain ⟨f, ht⟩ := exists_tabulate (t := t) rfl
  generalize t.elementType = e, t.shape = shape at *
  subst ht
  exact ⟨_, pad_tabulate z hb ha hlb hla hs⟩

/-- An axis that is not padded keeps its size. -/
theorem paddedShape_concat {sizes : List Nat} {n : Nat}
    (hb : bs.length = sizes.length) (ha : as.length = sizes.length)
    (hn : n < 9223372036854775808) :
    paddedShape (sizes ++ [n]) (bs ++ [0]) (as ++ [0]) =
      (paddedShape sizes bs as).map (· ++ [n]) := by
  induction sizes generalizing bs as with
  | nil =>
    obtain rfl := List.length_eq_zero_iff.mp hb
    obtain rfl := List.length_eq_zero_iff.mp ha
    simp only [List.nil_append, paddedShape, paddedSize_zero hn, ok_bind]
    rfl
  | cons size sizes ih =>
    obtain ⟨b, bs, rfl⟩ := List.exists_cons_of_length_eq_add_one hb
    obtain ⟨a, as, rfl⟩ := List.exists_cons_of_length_eq_add_one ha
    simp only [List.cons_append, paddedShape, ih (Nat.succ.inj hb) (Nat.succ.inj ha)]
    cases paddedSize size b a with
    | error => rfl
    | ok padded => cases paddedShape sizes bs as <;> rfl

theorem toOption_pad_eq_none {mode : PadMode} {t before after : Tensor} {fill : Option Tensor}
    (hb : before.ints = .ok bs) (ha : after.ints = .ok as)
    (h : ∀ result, bs.length = t.shape.length → as.length = t.shape.length →
      paddedShape t.shape bs as ≠ .ok result) : (pad mode t before after fill).toOption = none := by
  rw [Option.eq_none_iff_forall_ne_some]
  intro v hv
  obtain ⟨bs', as', result, hb', ha', hlb, hla, hs, -⟩ := type_pad (toOption_eq_some.mp hv)
  obtain rfl := Except.ok.inj (hb.symm.trans hb')
  obtain rfl := Except.ok.inj (ha.symm.trans ha')
  exact h result hlb hla hs

/-- Padding all axes but the last one pads each plane. -/
theorem pad_plane {t before after before' after' : Tensor} {z : t.elementType.Carrier} {n k : Nat}
    (hlast : t.shape.getLast? = some n) (hk : k < n) (hn : n < 9223372036854775808)
    (hb : before.ints = .ok bs) (ha : after.ints = .ok as)
    (hb' : before'.ints = .ok (bs ++ [0])) (ha' : after'.ints = .ok (as ++ [0])) :
    (pad .constant (plane k t) before after (some (scalar t.elementType z))).toOption =
      (pad .constant t before' after' (some (scalar t.elementType z))).toOption.map
        (plane k) := by
  obtain ⟨shape, hshape⟩ := List.getLast?_eq_some_iff.mp hlast
  obtain ⟨f, ht⟩ := exists_tabulate (t := t) rfl
  generalize t.elementType = e at *
  rw [hshape] at ht
  subst ht
  rw [plane_tabulate hk]
  by_cases hl : bs.length = shape.length ∧ as.length = shape.length
  · obtain ⟨hlb, hla⟩ := hl
    have hconcat := paddedShape_concat hlb hla hn
    cases hs : paddedShape shape bs as with
    | ok result =>
      have hlen := length_paddedShape hlb hla hs
      rw [hs] at hconcat
      rw [pad_tabulate z hb ha hlb hla hs,
        pad_tabulate z hb' ha' (by simp [hlb]) (by simp [hla]) hconcat]
      refine congrArg some (Eq.symm ((plane_tabulate hk).trans (tabulate_congr fun c hc => ?_)))
      rw [Kernel.padCoordinate_concat hlb (hc.length_eq.trans hlen) hk hn, Option.map_map]
      rfl
    | error =>
      rw [hs] at hconcat
      have hnone : ∀ result, paddedShape shape bs as ≠ .ok result := by simp [hs]
      have hnone' : ∀ result, paddedShape (shape ++ [n]) (bs ++ [0]) (as ++ [0]) ≠ .ok result := by
        simp [hconcat, Except.map]
      rw [toOption_pad_eq_none hb ha fun result _ _ => hnone result,
        toOption_pad_eq_none hb' ha' fun result _ _ => hnone' result]
      rfl
  · rw [toOption_pad_eq_none hb ha fun result hlb hla _ => hl ⟨hlb, hla⟩,
      toOption_pad_eq_none hb' ha' fun result hlb hla _ =>
        hl ⟨by simpa using hlb, by simpa using hla⟩]
    rfl

end Tensor

end TensorLowering
