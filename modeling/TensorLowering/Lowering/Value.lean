import TensorLowering.Dataflow.Graph

/-!
# Lowered values

What a tensor of the source graph becomes: a plain value, or a complex value, which is a packed
tensor behind a complex mark. A lowered value carries that distinction, which can also be read off
the graph (`Lowered.classify`).
-/

namespace TensorLowering.Lowering

open Dataflow (ValueId Graph)

/-- A packed tensor behind a complex mark. -/
structure ComplexValue where
  /-- The value of the mark. -/
  marker : ValueId
  /-- The tensor whose last axis holds the real and the imaginary part. -/
  packed : ValueId
  /-- The element type of the parts. -/
  partType : ElementType
deriving DecidableEq, Repr

inductive Lowered where
  | plain (value : ValueId)
  | complex (value : ComplexValue)
deriving DecidableEq, Repr

namespace Lowered

/-- The value that stands for the tensor: the mark of a complex one. -/
def value : Lowered → ValueId
  | plain value => value
  | complex value => value.marker

/-- The value that holds the elements: the packed tensor of a complex one. -/
def elements : Lowered → ValueId
  | plain value => value
  | complex value => value.packed

def complex? : Lowered → Option ComplexValue
  | plain _ => none
  | complex value => some value

def isComplex (lowered : Lowered) : Bool :=
  lowered.complex?.isSome

/-- What a value of a graph is, by its node. -/
def classify (g : Graph) (id : ValueId) : Except TensorLowering.Error Lowered := do
  let node ← g.producer id
  match node.op, node.inputs with
  | .complexMark partType, packed :: _ => return complex ⟨id, packed, partType⟩
  | _, _ => return plain id

end Lowered

end TensorLowering.Lowering
