/-!
# Machine words

Sizes are words of 64 bits, and indices and counts of padding are signed ones. Sums, differences and
products of them wrap around: `unsigned` and `signed` give the word that is left of the exact
number. Arithmetic that stops at an overflow agrees with this wherever it does not stop.
-/

namespace TensorLowering.Word

/-- The word that is left of a natural number. -/
def unsigned (n : Nat) : Nat :=
  n % UInt64.size

/-- The signed word that is left of an integer. -/
def signed (n : Int) : Int :=
  Int.bmod n UInt64.size

/-- The integers that are signed words. -/
def IsSigned (n : Int) : Prop :=
  -9223372036854775808 ≤ n ∧ n < 9223372036854775808

instance (n : Int) : Decidable (IsSigned n) :=
  inferInstanceAs (Decidable (_ ∧ _))

theorem unsigned_eq {n : Nat} (h : n < UInt64.size) : unsigned n = n :=
  Nat.mod_eq_of_lt h

theorem unsigned_unsigned_mul (m n : Nat) : unsigned (unsigned m * n) = unsigned (m * n) :=
  Nat.mod_mul_mod m n UInt64.size

theorem unsigned_unsigned (n : Nat) : unsigned (unsigned n) = unsigned n :=
  Nat.mod_mod n UInt64.size

theorem signed_eq {n : Int} (h : IsSigned n) : signed n = n := by
  obtain ⟨hle, hlt⟩ := h
  unfold signed
  apply Int.bmod_eq_of_le <;> simp only [UInt64.size] <;> omega

theorem isSigned_signed (n : Int) : IsSigned (signed n) := by
  have hle := @Int.le_bmod n UInt64.size (by decide)
  have hlt := @Int.bmod_lt n UInt64.size (by decide)
  simp only [UInt64.size] at hle hlt
  unfold signed IsSigned
  simp only [UInt64.size]
  omega

/-- Every word that is no larger than the largest signed one is read as itself. -/
theorem signed_natCast {n : Nat} (h : n < 9223372036854775808) : signed n = n :=
  signed_eq ⟨by omega, by omega⟩

/-- A comparison with a size may be made after wrapping around, as long as the number is not a whole
turn away. -/
theorem signed_lt_iff {n bound : Int} (hle : -9223372036854775809 ≤ n)
    (hlt : n < 18446744073709551616) (hbound : bound < 9223372036854775808) :
    0 ≤ signed n ∧ signed n < bound ↔ 0 ≤ n ∧ n < bound := by
  unfold signed
  rw [Int.bmod_def]
  simp only [UInt64.size]
  split <;> omega

end TensorLowering.Word
