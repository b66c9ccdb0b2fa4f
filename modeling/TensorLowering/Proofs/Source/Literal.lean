import Mathlib.Algebra.Group.Nat.Defs
import TensorLowering.Source.Literal

/-!
# The bytes of literals

`littleEndian` and `ofLittleEndian` are inverse between the numbers that so many bytes can hold and
the sequences of so many bytes. `chunks` takes apart what a list of words of one width was put
together to (`chunks_flatMap`), and where the width divides the number of bytes nothing is left out
(`flatten_chunks`).
-/

namespace TensorLowering.Source

variable {width n : Nat} {bytes : List UInt8}

/-! ## Words -/

@[simp] theorem length_littleEndian (width n : Nat) : (littleEndian width n).length = width := by
  induction width generalizing n with
  | zero => rfl
  | succ width ih => rw [littleEndian, List.length_cons, ih]

theorem ofLittleEndian_lt (bytes : List UInt8) : ofLittleEndian bytes < 256 ^ bytes.length := by
  induction bytes with
  | nil => exact Nat.one_pos
  | cons byte bytes ih =>
    have hbyte : byte.toNat < 256 := byte.toNat_lt
    rw [ofLittleEndian, List.length_cons, Nat.pow_succ]
    omega

/-- A number that has room in the bytes is read back. -/
theorem ofLittleEndian_littleEndian (h : n < 256 ^ width) :
    ofLittleEndian (littleEndian width n) = n := by
  induction width generalizing n with
  | zero => exact (Nat.lt_one_iff.mp h).symm
  | succ width ih =>
    have hlt : n / 256 < 256 ^ width := Nat.div_lt_of_lt_mul (by rwa [Nat.pow_succ'] at h)
    have hbyte : (UInt8.ofNat n).toNat = n % 256 := UInt8.toNat_ofNat'
    rw [littleEndian, ofLittleEndian, ih hlt, hbyte]
    exact Nat.mod_add_div n 256

/-- The bytes that a number was read from are written again. -/
theorem littleEndian_ofLittleEndian (bytes : List UInt8) :
    littleEndian bytes.length (ofLittleEndian bytes) = bytes := by
  induction bytes with
  | nil => rfl
  | cons byte bytes ih =>
    have hbyte : byte.toNat < 256 := byte.toNat_lt
    have hfirst : UInt8.ofNat (byte.toNat + 256 * ofLittleEndian bytes) = byte := by
      rw [← UInt8.toNat_inj, UInt8.toNat_ofNat']
      omega
    have hrest : (byte.toNat + 256 * ofLittleEndian bytes) / 256 = ofLittleEndian bytes := by omega
    rw [ofLittleEndian, List.length_cons, littleEndian, hfirst, hrest, ih]

/-! ## Groups of bytes -/

theorem chunks_append {chunk : List UInt8} (hwidth : 0 < width) (hchunk : chunk.length = width)
    (bytes : List UInt8) : chunks width (chunk ++ bytes) = chunk :: chunks width bytes := by
  have hlong : ¬(width = 0 ∨ (chunk ++ bytes).length < width) := by
    rw [List.length_append]
    omega
  rw [chunks, if_neg hlong, List.take_left' hchunk, List.drop_left' hchunk]

theorem chunks_nil (hwidth : 0 < width) : chunks width [] = [] := by
  rw [chunks, if_pos (.inr hwidth)]

/-- Words of one width that were put in a row are taken apart again. -/
theorem chunks_flatMap {α : Type} {word : α → List UInt8} (hwidth : 0 < width)
    (hword : ∀ x, (word x).length = width) (xs : List α) :
    chunks width (xs.flatMap word) = xs.map word := by
  induction xs with
  | nil => exact chunks_nil hwidth
  | cons x xs ih => rw [List.flatMap_cons, chunks_append hwidth (hword x), ih, List.map_cons]

theorem length_of_mem_chunks {chunk : List UInt8} (h : chunk ∈ chunks width bytes) :
    chunk.length = width := by
  fun_induction chunks width bytes with
  | case1 bytes hshort => cases h
  | case2 bytes hlong ih =>
    rcases List.mem_cons.mp h with rfl | h
    · rw [List.length_take]
      omega
    · exact ih h

/-- The groups are all of the bytes if the last group is complete. -/
theorem flatten_chunks (hwidth : 0 < width) (h : width ∣ bytes.length) :
    (chunks width bytes).flatten = bytes := by
  fun_induction chunks width bytes with
  | case1 bytes hshort =>
    have hzero : bytes.length = 0 := Nat.eq_zero_of_dvd_of_lt h (by omega)
    rw [List.length_eq_zero_iff.mp hzero, List.flatten_nil]
  | case2 bytes hlong ih =>
    have hrest : width ∣ (bytes.drop width).length := by
      rw [List.length_drop]
      exact Nat.dvd_sub h (Nat.dvd_refl width)
    rw [List.flatten_cons, ih hrest, List.take_append_drop]

theorem length_chunks (hwidth : 0 < width) {count : Nat} (h : bytes.length = count * width) :
    (chunks width bytes).length = count := by
  induction count generalizing bytes with
  | zero =>
    rw [Nat.zero_mul, List.length_eq_zero_iff] at h
    rw [h, chunks_nil hwidth, List.length_nil]
  | succ count ih =>
    rw [Nat.succ_mul] at h
    have hfirst : (bytes.take width).length = width := by
      rw [List.length_take]
      omega
    have hrest : (bytes.drop width).length = count * width := by
      rw [List.length_drop]
      omega
    rw [← List.take_append_drop width bytes, chunks_append hwidth hfirst, List.length_cons, ih hrest]

end TensorLowering.Source
