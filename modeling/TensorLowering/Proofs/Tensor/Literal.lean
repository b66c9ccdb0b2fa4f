import Mathlib.Data.List.Basic
import TensorLowering.Proofs.Source.Literal
import TensorLowering.Tensor.Literal

/-!
# Literals and their tensors

`decode` reads elements of one type from bytes, and `encode` writes them; truth values apart, for
which any byte but zero is true, both directions are exact (`decode_encode`, `encode_decode`). A
literal has a tensor exactly if it has as many bytes as its type and sizes ask for, and the tensor
holds what its bytes decode to (`ofLiteral_eq_ok`). So literals built from elements give these
elements, floats bit for bit (`literal_roundTrips`).
-/

namespace TensorLowering

open Source (Literal littleEndian ofLittleEndian chunks)

/-! ## Elements -/

namespace ElementType

/-- The bit pattern of an element. -/
def toWord : (e : ElementType) → e.Carrier → Nat
  | f32, x => x.bits.toNat
  | f64, x => x.bits.toNat
  | i32, x => x.toUInt32.toNat
  | i64, x => x.toUInt64.toNat
  | bool, x => x.toNat

/-- The elements in little-endian byte order, one after the other. -/
def encode (e : ElementType) (elements : List e.Carrier) : List UInt8 :=
  elements.flatMap fun x => littleEndian e.byteWidth (e.toWord x)

/-- The elements that bytes spell; those of an incomplete last element are left out. -/
def decode (e : ElementType) (bytes : List UInt8) : List e.Carrier :=
  (chunks e.byteWidth bytes).map fun chunk => e.ofWord (ofLittleEndian chunk)

variable {e : ElementType} {bytes : List UInt8}

theorem byteWidth_pos (e : ElementType) : 0 < e.byteWidth := by
  cases e <;> decide

theorem toWord_lt (x : e.Carrier) : e.toWord x < 256 ^ e.byteWidth := by
  cases e with
  | f32 => exact UInt32.toNat_lt x.bits
  | f64 => exact UInt64.toNat_lt x.bits
  | i32 => exact UInt32.toNat_lt x.toUInt32
  | i64 => exact UInt64.toNat_lt x.toUInt64
  | bool => cases x <;> decide

/-- An element is what its pattern says. -/
theorem ofWord_toWord (x : e.Carrier) : e.ofWord (e.toWord x) = x := by
  cases e with
  | f32 => exact congrArg Binary32.mk UInt32.ofNat_toNat
  | f64 => exact congrArg Binary64.mk UInt64.ofNat_toNat
  | i32 => exact (congrArg UInt32.toInt32 UInt32.ofNat_toNat).trans (Int32.toInt32_toUInt32 x)
  | i64 => exact (congrArg UInt64.toInt64 UInt64.ofNat_toNat).trans (Int64.toInt64_toUInt64 x)
  | bool => cases x <;> rfl

/-- A number that has room in an element is its pattern; but all true truth values have the same. -/
theorem toWord_ofWord (he : e ≠ bool) {word : Nat} (h : word < 256 ^ e.byteWidth) :
    e.toWord (e.ofWord word) = word := by
  cases e with
  | f32 => exact UInt32.toNat_ofNat_of_lt' h
  | f64 => exact UInt64.toNat_ofNat_of_lt' h
  | i32 =>
    rw [toWord, ofWord, UInt32.toUInt32_toInt32]
    exact UInt32.toNat_ofNat_of_lt' h
  | i64 =>
    rw [toWord, ofWord, UInt64.toUInt64_toInt64]
    exact UInt64.toNat_ofNat_of_lt' h
  | bool => exact absurd rfl he

theorem decode_encode (elements : List e.Carrier) : e.decode (e.encode elements) = elements := by
  have hchunks := Source.chunks_flatMap e.byteWidth_pos
    (fun x => Source.length_littleEndian e.byteWidth (e.toWord x)) elements
  rw [decode, encode, hchunks, List.map_map]
  conv_rhs => rw [← List.map_id elements]
  refine List.map_congr_left fun x _ => ?_
  rw [Function.comp_apply, Source.ofLittleEndian_littleEndian (toWord_lt x), ofWord_toWord, id]

theorem encode_decode (he : e ≠ bool) (h : e.byteWidth ∣ bytes.length) :
    e.encode (e.decode bytes) = bytes := by
  have hchunk : ∀ chunk ∈ chunks e.byteWidth bytes,
      littleEndian e.byteWidth (e.toWord (e.ofWord (ofLittleEndian chunk))) = chunk := by
    intro chunk hmem
    have hlt := Source.ofLittleEndian_lt chunk
    have hbytes := Source.littleEndian_ofLittleEndian chunk
    rw [Source.length_of_mem_chunks hmem] at hlt hbytes
    rw [toWord_ofWord he hlt, hbytes]
  calc e.encode (e.decode bytes) = (chunks e.byteWidth bytes).flatMap id := by
        rw [encode, decode, List.flatMap_map]
        exact List.flatMap_congr hchunk
    _ = bytes := by rw [List.flatMap_id, Source.flatten_chunks e.byteWidth_pos h]

theorem length_decode {count : Nat} (h : bytes.length = count * e.byteWidth) :
    (e.decode bytes).length = count := by
  rw [decode, List.length_map, Source.length_chunks e.byteWidth_pos h]

theorem length_encode (elements : List e.Carrier) :
    (e.encode elements).length = elements.length * e.byteWidth := by
  induction elements with
  | nil => simp [encode]
  | cons x elements ih =>
    rw [encode, List.flatMap_cons, List.length_append, Source.length_littleEndian,
      List.length_cons, Nat.succ_mul, Nat.add_comm, ← encode, ih]

end ElementType

namespace Tensor

/-- The elements of the tensor in little-endian byte order. -/
def bytes (t : Tensor) : List UInt8 :=
  t.elementType.encode t.data.toList

variable {literal : Literal} {t : Tensor}

/-! ## Reading literals -/

/-- A complex element takes the bytes of its two parts. -/
theorem volume_literalShape (literal : Literal) :
    Shape.volume (literalShape literal) * literal.dtype.storageType.byteWidth =
      literal.elementCount * literal.dtype.size := by
  obtain ⟨d, dims, raw⟩ := literal
  have hpair (n : Nat) : Shape.volume (dims ++ [2]) * n = Shape.volume dims * (2 * n) := by
    simp [Shape.volume_append, Nat.mul_assoc]
  cases d with
  | complex64 => exact hpair 4
  | complex128 => exact hpair 8
  | f32 | f64 | i32 | i64 | bool => rfl

/-- The parts of a complex type, or else the elements, have the type that the tensor gets. -/
theorem elementType?_storageType (d : Source.DataType) :
    (d.part?.getD d).elementType? = some d.storageType := by
  cases d <;> rfl

/-- A literal of the right number of bytes gives the tensor of what they decode to, and any other
gives none. -/
theorem ofLiteral_eq_ok : ofLiteral literal = .ok t ↔
    literal.raw.length = literal.elementCount * literal.dtype.size ∧
      ofData literal.dtype.storageType (literalShape literal)
        (literal.dtype.storageType.decode literal.raw).toArray = .ok t := by
  unfold ofLiteral Literal.validate
  by_cases h : literal.raw.length = literal.elementCount * literal.dtype.size
  · simp [h, ElementType.decode, Function.comp_def]
  · simp [h]

/-- The literal gives the tensor of these elements. -/
def Decodes (literal : Literal) (e : ElementType) (shape : List Nat) (elements : List e.Carrier) :
    Prop :=
  ∃ h, ofLiteral literal = .ok ⟨e, shape, elements.toArray, h⟩

theorem decodes_raw (h : literal.raw.length = literal.elementCount * literal.dtype.size) :
    Decodes literal literal.dtype.storageType (literalShape literal)
      (literal.dtype.storageType.decode literal.raw) := by
  have hlength := ElementType.length_decode (h.trans (volume_literalShape literal).symm)
  have hsize : (literal.dtype.storageType.decode literal.raw).toArray.size =
      Shape.volume (literalShape literal) := by rw [List.size_toArray, hlength]
  exact ⟨hsize, ofLiteral_eq_ok.mpr ⟨h, dif_pos hsize⟩⟩

/-- What a literal of the right number of bytes decodes to can be written again. -/
theorem bytes_of_ofLiteral (h : ofLiteral literal = .ok t) (hbool : literal.dtype ≠ .bool) :
    t.bytes = literal.raw := by
  obtain ⟨hraw, -⟩ := ofLiteral_eq_ok.mp h
  obtain ⟨_, hdecodes⟩ := decodes_raw hraw
  obtain rfl := Except.ok.inj (h.symm.trans hdecodes)
  have he : literal.dtype.storageType ≠ .bool := by
    cases hd : literal.dtype with
    | bool => exact absurd hd hbool
    | f32 | f64 | i32 | i64 | complex64 | complex128 => exact nofun
  exact ElementType.encode_decode he ⟨_, hraw.trans ((volume_literalShape literal).symm.trans
    (Nat.mul_comm _ _))⟩

/-! ## Building literals -/

/-- Pairs of a real and an imaginary part, one part after the other. -/
def interleave {α : Type} (pairs : List (α × α)) : List α :=
  pairs.flatMap fun (real, imag) => [real, imag]

theorem length_interleave {α : Type} {dims : List Nat} {pairs : List (α × α)}
    (h : pairs.length = Shape.volume dims) :
    (interleave pairs).length = Shape.volume (dims ++ [2]) := by
  have hlength : (interleave pairs).length = pairs.length * 2 := by
    clear h
    induction pairs with
    | nil => rfl
    | cons pair pairs ih =>
      show (interleave pairs).length + 1 + 1 = (pairs.length + 1) * 2
      omega
  rw [hlength, h, Shape.volume_append]
  rfl

/-- A literal of as many elements, or parts, as there are places decodes to these elements. -/
theorem decodes_ofWords (d : Source.DataType) (dims : List Nat)
    (elements : List d.storageType.Carrier)
    (h : elements.length = Shape.volume (literalShape ⟨d, dims, []⟩)) :
    Decodes (.ofWords d d.storageType.byteWidth (elements.map d.storageType.toWord) dims)
      d.storageType (literalShape ⟨d, dims, []⟩) elements := by
  have hencode : Literal.ofWords d d.storageType.byteWidth (elements.map d.storageType.toWord) dims =
      ⟨d, dims, d.storageType.encode elements⟩ := congrArg (Literal.mk d dims) (List.flatMap_map ..)
  have hraw : (d.storageType.encode elements).length = Shape.volume dims * d.size := by
    rw [ElementType.length_encode, h]
    exact volume_literalShape ⟨d, dims, []⟩
  have hdecodes := @decodes_raw ⟨d, dims, d.storageType.encode elements⟩ hraw
  dsimp only at hdecodes
  rw [ElementType.decode_encode] at hdecodes
  exact hencode ▸ hdecodes

theorem ofComplex64_eq (pairs : List (Binary32 × Binary32)) (dims : List Nat) :
    Literal.ofComplex64 pairs dims =
      .ofWords .complex64 4 ((interleave pairs).map ElementType.f32.toWord) dims := by
  rw [interleave, List.map_flatMap]
  rfl

/-- A literal gives a tensor exactly if it has as many bytes as its type and sizes ask for. The tensor
has these sizes, with one more axis for the parts of complex numbers, the element type of the
elements or parts, and as many elements as its shape has places; written again these are the bytes
of the literal, unless they are truth values. A literal built from as many elements as there are
places gives these elements, the two parts of complex ones next to each other. -/
theorem literal_roundTrips :
    (∀ literal : Literal, (∃ t, ofLiteral literal = .ok t) ↔
      literal.raw.length = Shape.volume literal.dims * literal.dtype.size) ∧
    (∀ (literal : Literal) (t : Tensor), ofLiteral literal = .ok t →
      t.shape = (if literal.dtype.isComplex then literal.dims ++ [2] else literal.dims) ∧
      (literal.dtype.part?.getD literal.dtype).elementType? = some t.elementType ∧
      t.data.size = Shape.volume t.shape ∧
      (literal.dtype ≠ .bool → t.bytes = literal.raw)) ∧
    ∀ dims : List Nat,
      (∀ xs, xs.length = Shape.volume dims → Decodes (.ofF32 xs dims) .f32 dims xs) ∧
      (∀ xs, xs.length = Shape.volume dims → Decodes (.ofF64 xs dims) .f64 dims xs) ∧
      (∀ xs, xs.length = Shape.volume dims → Decodes (.ofI32 xs dims) .i32 dims xs) ∧
      (∀ xs, xs.length = Shape.volume dims → Decodes (.ofI64 xs dims) .i64 dims xs) ∧
      (∀ xs, xs.length = Shape.volume dims → Decodes (.ofBool xs dims) .bool dims xs) ∧
      (∀ pairs, pairs.length = Shape.volume dims →
        Decodes (.ofComplex64 pairs dims) .f32 (dims ++ [2]) (interleave pairs)) ∧
      ∀ pairs, pairs.length = Shape.volume dims →
        Decodes (.ofWords .complex128 8 ((interleave pairs).map ElementType.f64.toWord) dims) .f64
          (dims ++ [2]) (interleave pairs) := by
  refine ⟨fun literal => ⟨fun ⟨t, h⟩ => (ofLiteral_eq_ok.mp h).1, fun h => ?_⟩,
    fun literal t h => ?_, fun dims => ⟨decodes_ofWords .f32 dims, decodes_ofWords .f64 dims,
      decodes_ofWords .i32 dims, decodes_ofWords .i64 dims, decodes_ofWords .bool dims,
      fun pairs h => ?_, fun pairs h => ?_⟩⟩
  · obtain ⟨_, hdecodes⟩ := decodes_raw h
    exact ⟨_, hdecodes⟩
  · obtain ⟨hraw, -⟩ := ofLiteral_eq_ok.mp h
    obtain ⟨_, hdecodes⟩ := decodes_raw hraw
    have hbytes := bytes_of_ofLiteral h
    obtain rfl := Except.ok.inj (h.symm.trans hdecodes)
    exact ⟨rfl, elementType?_storageType _, size_data _, hbytes⟩
  · rw [ofComplex64_eq]
    exact decodes_ofWords .complex64 dims (interleave pairs) (length_interleave h)
  · exact decodes_ofWords .complex128 dims (interleave pairs) (length_interleave h)

/-- The numbers 1 + i and one with a payload that is not a number; the parts come out as they went
in, and can be written again. -/
def twoNumbers : List (Binary32 × Binary32) :=
  [(⟨0x3f800000⟩, ⟨0x3f800000⟩), (⟨0x80000000⟩, ⟨0x7f800001⟩)]

theorem twoNumbers_roundTrip : ∃ t, ofLiteral (.ofComplex64 twoNumbers [2]) = .ok t ∧
    t.shape = [2, 2] ∧ t.elementType = .f32 ∧
    t.bytes = [0, 0, 0x80, 0x3f, 0, 0, 0x80, 0x3f, 0, 0, 0, 0x80, 1, 0, 0x80, 0x7f] := by
  obtain ⟨-, hread, hbuild⟩ := literal_roundTrips
  obtain ⟨-, -, -, -, -, hcomplex, -⟩ := hbuild [2]
  obtain ⟨_, ht⟩ := hcomplex twoNumbers rfl
  obtain ⟨hshape, -, -, hbytes⟩ := hread _ _ ht
  exact ⟨_, ht, hshape, rfl, hbytes nofun⟩

end Tensor

end TensorLowering
