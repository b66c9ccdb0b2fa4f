import TensorLowering.Shape.Axes

/-!
# Reshape targets

A target lists the new sizes. At most one entry may be -1: it takes whatever size makes the number
of elements agree. Where zeros copy, an entry 0 stands for the size that the data has on the same
axis. `reshape` works with partially known data and settles as much as it can. The numbers of
elements are words: it compares what is left of them after they wrap around.
-/

namespace TensorLowering.Shape

/-- One entry of a reshape target, read against the data. -/
inductive TargetEntry where
  /-- The size follows from the number of elements. -/
  | inferred
  /-- The size is given, or copied from an axis whose size may be unknown. -/
  | size (dim : Option Nat)
deriving DecidableEq, Repr

namespace TargetEntry

def isInferred : TargetEntry → Bool
  | inferred => true
  | size _ => false

/-- The size of the entry when an inferred one is `fill`. -/
def dim (fill : Option Nat) : TargetEntry → Option Nat
  | inferred => fill
  | size dim => dim

/-- The size of an entry that is not inferred. -/
def size? : TargetEntry → Option (Option Nat)
  | inferred => none
  | size dim => some dim

end TargetEntry

/-- The product of sizes that are all known, as it wraps around. -/
def knownProduct? (dims : List (Option Nat)) : Option Nat :=
  (dims.mapM id).map fun sizes => Word.unsigned (volume sizes)

/-- Read the target from `axis` on; `inferred` says that an earlier entry is -1 already. -/
def readTarget (data : Option (List (Option Nat))) (specialZero : Bool) :
    (axis : Nat) → (inferred : Bool) → List Int → Except Error (List TargetEntry)
  | _, _, [] => .ok []
  | axis, inferred, entry :: target =>
    if entry = -1 then
      if inferred then .error (.shape .inferredTwice)
      else do return .inferred :: (← readTarget data specialZero (axis + 1) true target)
    else if entry = 0 ∧ specialZero then
      match data with
      | none => do
        return .size none :: (← readTarget data specialZero (axis + 1) inferred target)
      | some dims =>
        match dims[axis]? with
        | none => .error (.shape (.copiedAxis axis))
        | some dim => do
          return .size dim :: (← readTarget data specialZero (axis + 1) inferred target)
    else do
      let size ← sizeOfInt entry
      return .size (some size) :: (← readTarget data specialZero (axis + 1) inferred target)

/-- The shape that a reshape of `data` to `target` has; `none` stands for data of unknown rank. -/
def reshape (data : Option (List (Option Nat))) (target : List Int) (specialZero : Bool) :
    Except Error (List (Option Nat)) := do
  let entries ← readTarget data specialZero 0 false target
  let elements := data.bind knownProduct?
  let known := knownProduct? (entries.filterMap TargetEntry.size?)
  match elements, known with
  | some elements, some known =>
    if entries.any TargetEntry.isInferred then
      if known = 0 ∨ elements % known ≠ 0 then
        throw (.shape (.inferredSize elements target))
      else
        return entries.map (TargetEntry.dim (some (elements / known)))
    else if known ≠ elements then
      throw (.shape (.elementCount elements target))
    else
      return entries.map (TargetEntry.dim none)
  | _, _ => return entries.map (TargetEntry.dim none)

end TensorLowering.Shape
