import Mathlib.Logic.Basic
import TensorLowering.ElementType.Arithmetic

/-!
# Means and roots of element types

What a reduction makes of a sum: `Averages` says, in floats and exact integers, what the mean is, and
`root` which root is taken. The number of elements becomes a value of the element type before it
divides. In a type that holds it (`Counts`) that is the number itself. Any other number wraps around
to a different one, and where that is zero or the quotient is no value of the type, there is no mean.
-/

namespace TensorLowering

/-- The truncated quotient of two integers, which exists unless the divisor is zero. -/
def IsQuotient (x divisor q : Int) : Prop :=
  divisor ≠ 0 ∧ q = x.tdiv divisor

/-- The mean of `count` integers with the given sum, in a type that has `size` values. The number
wraps around to a value of the type, and the mean of no elements is zero. -/
def IsMean (size : Nat) (sum : Int) (count : Nat) (mean : Int) : Prop :=
  if count = 0 then mean = 0 else IsQuotient sum (Int.bmod count size) mean

/-- A number that the type holds divides as itself. -/
theorem isMean_iff {size count : Nat} {sum mean : Int} (h : 2 * count < size) :
    IsMean size sum count mean ↔ mean = sum.tdiv count := by
  unfold IsMean
  split
  · rename_i hnone
    rw [hnone, Int.natCast_zero, Int.tdiv_zero]
  · rename_i hsome
    have hword : Int.bmod count size = count := by apply Int.bmod_eq_of_le <;> omega
    rw [hword, IsQuotient, and_iff_right (Int.natCast_ne_zero.mpr hsome)]

/-- A word that holds the number is not -1, so it divides every sum. -/
theorem isMean_of_quotient {size count : Nat} {sum divisor quotient : Int} (h : 2 * count < size)
    (hdivisor : divisor = count) (hquotient : divisor ≠ -1 → quotient = sum.tdiv divisor) :
    IsMean size sum count quotient := by
  have hne : divisor ≠ -1 := by omega
  exact (isMean_iff h).mpr (hdivisor ▸ hquotient hne)

namespace Arithmetic

section

variable {α : Type} [DecidableEq α] [Div α] [Neg α] [OfNat α 0] [OfNat α 1] {least x y q : α}

/-- Division of words is that of the integers they stand for, as far as words have quotients. -/
theorem quotient?_eq_some {toInt : α → Int} (hinj : Function.Injective toInt) (hzero : toInt 0 = 0)
    (hover : ∀ z, toInt z ≠ (toInt least).tdiv (toInt (-1)))
    (hdiv : ¬(x = least ∧ y = -1) → toInt (x / y) = (toInt x).tdiv (toInt y)) :
    quotient? least x y = some q ↔ IsQuotient (toInt x) (toInt y) (toInt q) := by
  have hne : toInt y ≠ 0 ↔ y ≠ 0 := by rw [← hzero]; exact hinj.ne_iff
  unfold quotient? IsQuotient
  split
  · rename_i h
    refine iff_of_false (by simp) ?_
    rintro ⟨hy, hq⟩
    rcases h with rfl | ⟨rfl, rfl⟩
    · exact hy hzero
    · exact hover q hq
  · rename_i h
    obtain ⟨hy, hleast⟩ := not_or.mp h
    rw [Option.some.injEq, ← hinj.eq_iff, hdiv hleast, eq_comm]
    exact (and_iff_right (hne.mpr hy)).symm

end

theorem quotient?_int32 {x y q : Int32} : quotient? Int32.minValue x y = some q ↔
    IsQuotient x.toInt y.toInt q.toInt := by
  refine quotient?_eq_some (fun _ _ => Int32.toInt_inj.mp) rfl (fun z hz => ?_) fun h => ?_
  · exact absurd (hz ▸ z.toInt_lt) (by decide)
  · rcases not_and_or.mp h with hx | hy
    · exact Int32.toInt_div_of_ne_left x y hx
    · exact Int32.toInt_div_of_ne_right x y hy

theorem quotient?_int64 {x y q : Int64} : quotient? Int64.minValue x y = some q ↔
    IsQuotient x.toInt y.toInt q.toInt := by
  refine quotient?_eq_some (fun _ _ => Int64.toInt_inj.mp) rfl (fun z hz => ?_) fun h => ?_
  · exact absurd (hz ▸ z.toInt_lt) (by decide)
  · rcases not_and_or.mp h with hx | hy
    · exact Int64.toInt_div_of_ne_left x y hx
    · exact Int64.toInt_div_of_ne_right x y hy

end Arithmetic

namespace ElementType

variable {e : ElementType} {sum mean : e.Carrier} {count : Nat}

/-- The mean of `count` elements with the given sum. Floats divide by the float that is closest to
the number, integers by the number wrapped around. -/
def Averages : (e : ElementType) → e.Carrier → Nat → e.Carrier → Prop
  | f32, sum, count, mean => mean = sum.map (· / (UInt64.ofNat count).toFloat32)
  | f64, sum, count, mean => mean = sum.map (· / (UInt64.ofNat count).toFloat)
  | i32, sum, count, mean => IsMean Int32.size (Int32.toInt sum) count (Int32.toInt mean)
  | i64, sum, count, mean => IsMean Int64.size (Int64.toInt sum) count (Int64.toInt mean)
  | bool, _, _, _ => False

/-- The square root that a type has. Integers take the root of a float and round it toward zero. -/
def root : (e : ElementType) → e.Carrier → e.Carrier
  | f32, x => x.map Float32.sqrt
  | f64, x => x.map Float.sqrt
  | i32, x => (Int32.toFloat x).sqrt.toInt32
  | i64, x => (Int64.toFloat x).sqrt.toInt64
  | bool, x => x

/-- The type does not wrap the number around. -/
def Counts : ElementType → Nat → Prop
  | i32, n => n < 2147483648
  | i64, n => n < 9223372036854775808
  | _, _ => True

theorem divideByCount_eq_some {a : Arithmetic e.Carrier} (ha : e.arithmetic? = some a) :
    a.divideByCount sum count = some mean ↔ e.Averages sum count mean := by
  cases e with
  | bool => cases ha
  | f32 | f64 =>
    obtain rfl := Option.some.inj ha
    exact Option.some_inj.trans eq_comm
  | i32 =>
    obtain rfl := Option.some.inj ha
    unfold Averages IsMean
    dsimp only [Arithmetic.i32]
    split
    · rw [Option.some.injEq, eq_comm, ← Int32.toInt_inj, Int32.toInt_zero]
    · rw [Arithmetic.quotient?_int32, Int32.toInt_ofNat']
  | i64 =>
    obtain rfl := Option.some.inj ha
    unfold Averages IsMean
    dsimp only [Arithmetic.i64]
    split
    · rw [Option.some.injEq, eq_comm, ← Int64.toInt_inj, Int64.toInt_zero]
    · rw [Arithmetic.quotient?_int64, Int64.toInt_ofNat']

theorem sqrt_eq_root {a : Arithmetic e.Carrier} (ha : e.arithmetic? = some a) : a.sqrt = e.root := by
  cases e with
  | bool => cases ha
  | _ =>
    obtain rfl := Option.some.inj ha
    rfl

/-- There is a mean of every sum, by a number that the type holds. -/
theorem exists_averages {a : Arithmetic e.Carrier} (ha : e.arithmetic? = some a)
    (hcount : e.Counts count) : ∃ mean, e.Averages sum count mean := by
  cases e with
  | bool => cases ha
  | f32 | f64 => exact ⟨_, rfl⟩
  | i32 =>
    have hlt : count < 2 ^ 31 := hcount
    refine ⟨Int32.div sum (.ofNat count), isMean_of_quotient (by simp only [Int32.size]; omega)
      (Int32.toInt_ofNat_of_lt hlt) fun hne => ?_⟩
    exact Int32.toInt_div_of_ne_right sum _ (mt (congrArg Int32.toInt) hne)
  | i64 =>
    have hlt : count < 2 ^ 63 := hcount
    refine ⟨Int64.div sum (.ofNat count), isMean_of_quotient (by simp only [Int64.size]; omega)
      (Int64.toInt_ofNat_of_lt hlt) fun hne => ?_⟩
    exact Int64.toInt_div_of_ne_right sum _ (mt (congrArg Int64.toInt) hne)

/-- Only of very many elements there may be no mean. -/
theorem le_of_divideByCount_eq_none {a : Arithmetic e.Carrier} (ha : e.arithmetic? = some a)
    (h : a.divideByCount sum count = none) : 2147483648 ≤ count := by
  refine Nat.le_of_not_lt fun hlt => ?_
  have hcount : e.Counts count := by cases e <;> simp only [Counts] <;> omega
  obtain ⟨mean, hmean⟩ : ∃ mean, e.Averages sum count mean := exists_averages ha hcount
  rw [(divideByCount_eq_some ha).mpr hmean] at h
  cases h

end ElementType

end TensorLowering
