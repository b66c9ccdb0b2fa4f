import TensorLowering.Shape.Volume
import TensorLowering.Text

/-!
# Partially known shapes

A shape is fixed, or of known rank with some sizes left open until run time, or of unknown rank.
`dims?` is the view of all three by axis. A shape with all sizes known can be written in two ways,
as `fixed` and as `ranked`; `ofDims?` always chooses `fixed`.
-/

namespace TensorLowering

/-- What is known about a shape before run time. -/
inductive PartialShape where
  /-- Every size is known. -/
  | fixed (dims : List Nat)
  /-- The rank is known; `none` is a size that is only known at run time. -/
  | ranked (dims : List (Option Nat))
  /-- Not even the rank is known. -/
  | unranked
deriving DecidableEq, Repr

namespace PartialShape

def scalar : PartialShape :=
  fixed []

/-- The sizes of a fixed shape. -/
def fixed? : PartialShape → Option (List Nat)
  | fixed dims => some dims
  | ranked _ | unranked => none

def isFixed (shape : PartialShape) : Bool :=
  shape.fixed?.isSome

/-- The shape axis by axis, unless its rank is unknown. -/
def dims? : PartialShape → Option (List (Option Nat))
  | fixed dims => some (dims.map some)
  | ranked dims => some dims
  | unranked => none

def rank? : PartialShape → Option Nat
  | fixed dims => some dims.length
  | ranked dims => some dims.length
  | unranked => none

/-- The shape with the given sizes, fixed when all of them are known. -/
def ofSizes (dims : List (Option Nat)) : PartialShape :=
  match dims.mapM id with
  | some sizes => fixed sizes
  | none => ranked dims

/-- The inverse of `dims?` up to the choice between `fixed` and `ranked`. -/
def ofDims? : Option (List (Option Nat)) → PartialShape
  | some dims => ofSizes dims
  | none => unranked

/-- The size of the first axis, if there is one and it is known. -/
def firstSize? (shape : PartialShape) : Option Nat :=
  shape.dims?.bind fun dims => dims.head?.join

/-- The size of the last axis, if there is one and it is known. -/
def lastSize? (shape : PartialShape) : Option Nat :=
  shape.dims?.bind fun dims => dims.getLast?.join

/-- The number of elements of a fixed shape. -/
def elementCount? (shape : PartialShape) : Option Nat :=
  shape.fixed?.map Shape.volume

/-- The shape as messages write it. -/
def text : PartialShape → String
  | fixed dims => "Static(" ++ Text.naturals dims ++ ")"
  | ranked dims =>
    let entries := dims.map fun
      | some n => s!"Fixed({n})"
      | none => "Any"
    "Dynamic(" ++ Text.list entries ++ ")"
  | unranked => "Unknown"

/-- Whether `sizes` is one of the shapes that the partial shape stands for: the ranks agree where
the rank is known, and so does every known size. -/
def admits (shape : PartialShape) (sizes : List Nat) : Bool :=
  match shape.dims? with
  | none => true
  | some dims =>
    dims.length == sizes.length &&
      (List.zip dims sizes).all fun (dim, size) => dim.all (· == size)

end PartialShape

end TensorLowering
