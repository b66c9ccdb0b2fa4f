import TensorLowering.Error
import TensorLowering.Word

/-!
# Axes, indices and sizes

Axes and indices may be negative and then count from the back. This module resolves them against a
rank or a size, and gives the shape rules of the operations that add, remove or resize axes:
padding, reduction, scattering, squeezing and unsqueezing. The rules hold for known sizes and for
partially known ones alike. Sizes are words; `signedSize` is a size as arithmetic with indices and
counts of padding sees it.
-/

namespace TensorLowering.Shape

/-- A number between `-bound` and `bound - 1` as one between `0` and `bound - 1`. -/
def fromBack? (i bound : Int) : Option Nat :=
  let j := if i < 0 then i + bound else i
  if j < 0 ∨ bound ≤ j then none else some j.toNat

/-- A size where it meets numbers that may be negative: its 64 bits are read as a signed number, so
that a size of more than 63 bits counts as negative. -/
def signedSize (size : Nat) : Int :=
  Word.signed size

theorem signedSize_of_lt {size : Nat} (h : size < 9223372036854775808) : signedSize size = size :=
  Word.signed_natCast h

theorem signedSize_le (size : Nat) : signedSize size ≤ size := by
  have h : (size : Int) % UInt64.size ≤ size := Int.ofNat_le.mpr (Nat.mod_le size _)
  unfold signedSize Word.signed
  rw [Int.bmod_def]
  split
  · exact h
  · exact Int.le_trans (Int.sub_le_self _ (Int.natCast_nonneg _)) h

/-- The axis that a possibly negative number names in a shape of the given rank. -/
def resolveAxis (axis : Int) (rank : Nat) : Except Error Nat :=
  match fromBack? axis rank with
  | some a => .ok a
  | none => .error (.shape (.axisRange axis rank))

/-- The axes that a list of numbers names, in ascending order and without repetition. -/
def resolveAxes (axes : List Int) (rank : Nat) : Except Error (List Nat) := do
  let named ← axes.mapM (resolveAxis · rank)
  return (List.range rank).filter named.contains

/-- The position that a possibly negative index names on an axis of the given size. -/
def resolveIndex (index : Int) (size : Nat) : Except Error Nat :=
  match fromBack? index (signedSize size) with
  | some i => .ok i
  | none => .error (.shape (.indexRange index size))

/-- A size read from an integer tensor. -/
def sizeOfInt (value : Int) : Except Error Nat :=
  if value < 0 then .error (.shape (.negativeSize value)) else .ok value.toNat

/-- The size of an axis with `before` and `after` elements added; negative numbers remove
elements. -/
def paddedSize (size : Nat) (before after : Int) : Except Error Nat :=
  let padded := Word.signed (signedSize size + before + after)
  if padded < 0 then .error (.shape (.padSize before after size)) else .ok padded.toNat

theorem paddedSize_zero {size : Nat} (h : size < 9223372036854775808) :
    paddedSize size 0 0 = .ok size := by
  rw [paddedSize, signedSize_of_lt h, Int.add_zero, Int.add_zero, Word.signed_natCast h]
  exact if_neg (Int.not_lt.mpr (Int.natCast_nonneg size))

/-- The shape of a reduction over `axes`: they are removed, or kept with size `one`. -/
def collapse {α : Type} (one : α) (keepDims : Bool) (axes : List Nat) (dims : List α) : List α :=
  dims.zipIdx.filterMap fun (dim, axis) =>
    if axes.contains axis then (if keepDims then some one else none) else some dim

/-- The shape of the updates of a scatter: the shape of the index rows without their last axis,
then the axes of the data that a row does not address. -/
def updatesShape (data indices : List Nat) : Except Error (List Nat) :=
  match indices.getLast? with
  | none => .error (.shape .scatterRank)
  | some depth =>
    if data.length < depth then .error (.shape (.scatterDepth depth data.length))
    else .ok (indices.dropLast ++ data.drop depth)

/-- The dims without the axes, which have to be of size 1 where their size is known. Without any
axes all axes of size 1 go; then a size that is not known leaves the result open. -/
def squeeze (dims : List (Option Nat)) (axes : List Int) :
    Except Error (Option (List (Option Nat))) := do
  if axes.isEmpty then
    return if dims.contains none then none else some (dims.filter (· != some 1))
  else
    let axes ← resolveAxes axes dims.length
    axes.forM fun axis =>
      match dims[axis]? with
      | some (some size) =>
        if size = 1 then .ok () else .error (.shape (.squeeze axis size))
      | _ => .ok ()
    return some (collapse none false axes dims)

/-- Put `one` at the listed axes and the given dims, in order, at the other positions. -/
def insertOnes {α : Type} (one : α) (axes : List Nat) : List Nat → List α → List α
  | [], _ => []
  | position :: positions, dims =>
    if axes.contains position then one :: insertOnes one axes positions dims
    else match dims with
      | [] => insertOnes one axes positions []
      | dim :: dims => dim :: insertOnes one axes positions dims

/-- The dims with an axis of size `one` at each of the given positions of the result, which have to
be different. -/
def unsqueeze {α : Type} (one : α) (dims : List α) (axes : List Int) :
    Except Error (List α) := do
  let rank := dims.length + axes.length
  let positions ← resolveAxes axes rank
  if positions.length = axes.length then
    return insertOnes one positions (List.range rank) dims
  else
    throw (.shape .repeatedAxes)

end TensorLowering.Shape
