import TensorLowering.Source.DataType
import TensorLowering.Text

/-!
# Errors of source graphs

What can be wrong with a source graph, with one of its attributes or with a literal, and the one
function that words it.
-/

namespace TensorLowering.Source

inductive Error where
  /-- A node or input without a name. -/
  | emptyName
  /-- A name that two nodes or inputs share. -/
  | duplicateName (name : String)
  /-- A literal whose byte count differs from what its type and sizes ask for. -/
  | literalSize (dtype : DataType) (dims : List Nat) (expected actual : Nat)
  /-- An input reference of a node that names no tensor. -/
  | missingInput (reference node : String)
  /-- A graph output that names no tensor. -/
  | missingOutput (reference : String)
  | missingAttribute (name : String)
  /-- An attribute that holds another kind of value than asked for. -/
  | attributeKind (name expected actual : String)
  /-- The named node lies on a cycle. -/
  | cycle (node : String)
deriving DecidableEq, Repr

namespace Error

def message : Error → String
  | emptyName => "Invalid graph structure: Nodes and inputs must have non-empty names"
  | duplicateName name => s!"Invalid graph structure: Duplicate node or input name: {name}"
  | literalSize dtype dims expected actual =>
    "Invalid graph structure: Tensor literal of type " ++ dtype.name ++ " and dims "
      ++ Text.naturals dims ++ s!" needs {expected} bytes, got {actual}"
  | missingInput reference node =>
    s!"Missing tensor: {reference} (referenced by node '{node}')"
  | missingOutput reference => s!"Missing tensor: {reference} (graph output)"
  | missingAttribute name => s!"Missing attribute: {name}"
  | attributeKind name expected actual =>
    s!"Type mismatch for attribute '{name}': expected {expected}, got {actual}"
  | cycle node => s!"Graph contains a cycle through node '{node}'"

end Error

end TensorLowering.Source
