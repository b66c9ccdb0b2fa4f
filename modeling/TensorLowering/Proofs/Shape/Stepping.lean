import Mathlib.Data.List.Nodup
import Mathlib.Logic.Function.Iterate
import TensorLowering.Proofs.Shape.RowMajor

/-!
# Row-major stepping

A loop over a tensor starts at the origin and advances once per element. `stepped` is where it is
after a number of steps: at the coordinate whose position is that number (`stepped_eq`), until it is
back at the origin after as many steps as there are elements (`stepped_volume`). Positions order
coordinates like words in a dictionary (`lt_of_position_lt`), so a loop comes by every coordinate
once, in that order (`stepping_rowMajor`).
-/

namespace TensorLowering.Shape

variable {shape c d : List Nat} {n : Nat}

/-- The coordinate after `n` steps from the origin. -/
def stepped (shape : List Nat) (n : Nat) : List Nat :=
  (advance · shape)^[n] (origin shape)

theorem volume_ne_zero_iff : volume shape ≠ 0 ↔ 0 ∉ shape := by
  induction shape with
  | nil => simp
  | cons size sizes ih => rw [volume_cons, Nat.mul_ne_zero_iff, ih, List.mem_cons, not_or, ne_comm]

/-! ## Steps -/

/-- Each step adds one to the position, as long as there is a next element. -/
theorem stepped_eq (h : n < volume shape) : stepped shape n = locate shape n := by
  have hpos : 0 < volume shape := Nat.zero_lt_of_lt h
  induction n with
  | zero =>
    have horigin := locate_position (within_origin (Nat.ne_of_gt hpos))
    rw [position_origin] at horigin
    exact horigin.symm
  | succ n ih =>
    have hlt : n < volume shape := Nat.lt_of_succ_lt h
    have hwithin := within_locate hlt
    have hposition := position_locate hlt
    calc stepped shape (n + 1) = advance (stepped shape n) shape :=
          Function.iterate_succ_apply' _ _ _
      _ = advance (locate shape n) shape := by rw [ih hlt]
      _ = locate shape (n + 1) := by
        rw [← locate_position (within_advance hwithin),
          position_advance hwithin (by rwa [hposition]), hposition]

/-- The step from the last element carries out of the first axis and leaves zeros behind. -/
theorem advance_last (h : Within c shape) (hlast : position c (strides shape) + 1 = volume shape) :
    advance c shape = origin shape := by
  have hvolume : volume shape ≠ 0 := by omega
  have hzero : position (advance c shape) (strides shape) = 0 := by
    rcases advanceCarry_spec h with ⟨-, -, hzero⟩ | ⟨-, hnext⟩
    · exact hzero
    · have hlt : position (advance c shape) (strides shape) < volume shape :=
        position_lt (within_advance h)
      rw [advance, hnext] at hlt
      omega
  rw [← locate_position (within_advance h), hzero, ← position_origin shape,
    locate_position (within_origin hvolume)]

theorem stepped_volume (h : 0 ∉ shape) : stepped shape (volume shape) = origin shape := by
  obtain ⟨last, hlast⟩ := Nat.exists_eq_succ_of_ne_zero (volume_ne_zero_iff.mpr h)
  have hlt : last < volume shape := by omega
  rw [hlast, stepped, Function.iterate_succ_apply', ← stepped, stepped_eq hlt]
  exact advance_last (within_locate hlt) (by rw [position_locate hlt, hlast])

/-! ## Order -/

/-- Of two coordinates, the one with the smaller position comes first in the order of the axes. -/
theorem lt_of_position_lt (hc : Within c shape) (hd : Within d shape)
    (h : position c (strides shape) < position d (strides shape)) : c < d := by
  induction hc generalizing d with
  | nil =>
    cases hd
    exact absurd h (Nat.lt_irrefl _)
  | @cons i size c sizes _ hc ih =>
    obtain ⟨j, e, _, he, rfl⟩ := List.forall₂_cons_right_iff.mp hd
    have hlt := position_lt hc
    have hlt' := position_lt he
    simp only [strides, position] at h
    rcases Nat.lt_trichotomy i j with hij | rfl | hij
    · exact List.cons_lt_cons_iff.mpr (.inl hij)
    · exact List.cons_lt_cons_iff.mpr (.inr ⟨rfl, ih he (by omega)⟩)
    · -- The later axes cannot make up for a smaller coordinate on an earlier one.
      have hblock := Nat.mul_le_mul_right (volume sizes) (Nat.succ_le_of_lt hij)
      rw [Nat.succ_mul] at hblock
      omega

/-- In a shape without empty axes, `n` steps from the origin lead to the coordinate whose position
is `n`, for every `n` below the number of elements, and that many steps lead back to the origin. So
a loop that counts its steps comes by every coordinate of the shape once, in row-major order. -/
theorem stepping_rowMajor (h : 0 ∉ shape) :
    (∀ n < volume shape, Within (stepped shape n) shape ∧
      position (stepped shape n) (strides shape) = n) ∧
    stepped shape (volume shape) = origin shape ∧
    (walk shape).zipIdx = (List.range (volume shape)).map (fun n => (stepped shape n, n)) ∧
    (∀ c, Within c shape → (walk shape).count c = 1) ∧
    (∀ c ∈ walk shape, Within c shape) ∧
    (walk shape).Pairwise (· < ·) := by
  refine ⟨fun n hn => ?_, stepped_volume h, ?_, fun c hc => ?_, fun c => mem_walk.mp, ?_⟩
  · rw [stepped_eq hn]
    exact ⟨within_locate hn, position_locate hn⟩
  · refine List.ext_getElem? fun n => ?_
    by_cases hn : n < volume shape
    · simp [getElem?_walk hn, List.getElem?_range hn, stepped_eq hn]
    · rw [List.getElem?_eq_none (by simpa using hn), List.getElem?_eq_none (by simpa using hn)]
  · exact List.count_eq_one_of_mem (nodup_walk shape) (mem_walk.mpr hc)
  · refine (pairwise_walk shape).imp_of_mem fun hc hd hlt => ?_
    exact lt_of_position_lt (mem_walk.mp hc) (mem_walk.mp hd) hlt

/-- The fifth element of two rows of three, and back at the origin after the sixth. -/
theorem twoByThree_rowMajor : 0 ∉ [2, 3] ∧ stepped [2, 3] 4 = [1, 1] ∧
    position [1, 1] (strides [2, 3]) = 4 ∧ stepped [2, 3] 6 = [0, 0] := by
  obtain ⟨hbelow, hback, -⟩ := @stepping_rowMajor [2, 3] (by decide)
  have hfifth : stepped [2, 3] 4 = [1, 1] := rfl
  exact ⟨by decide, hfifth, hfifth ▸ (hbelow 4 (by decide)).2, hback⟩

end TensorLowering.Shape
