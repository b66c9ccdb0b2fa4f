import TensorLowering.Error

/-!
# Errors of lowering

An error is either about one node, which it names together with what the node violates, or about
the source graph as a whole.
-/

namespace TensorLowering.Lowering

/-- Why complex inputs cannot be lowered. -/
inductive ComplexFault where
  /-- The input of the given number is complex and no input may be. -/
  | input (index : Nat)
  | someOf (complex inputs : Nat)
  | mixedParts (first other : ElementType)
  | condition
  | axes
  /-- Only the updates of a scatter may be complex. -/
  | notUpdates
  /-- The named operand of a padding has to be plain. -/
  | operand (role : String)
deriving DecidableEq, Repr

/-- Why the value of an attribute, or of a type that an attribute would name, is rejected. -/
inductive AttributeFault where
  | kind (expected actual : String)
  | elementType (actual : ElementType)
  | text (actual : String)
deriving DecidableEq, Repr

/-- What a node violates. -/
inductive Violation where
  | opType (expected : List String)
  | arity (expected actual : Nat)
  | complexInput (fault : ComplexFault)
  | missingAttribute (name : String)
  | attributeValue (name : String) (fault : AttributeFault)
  /-- The target graph rejects what the node would become. -/
  | target (cause : TensorLowering.Error)
deriving DecidableEq, Repr

inductive Error where
  | node (name opType : String) (violation : Violation)
  | graph (cause : Source.Error)
deriving DecidableEq, Repr

def ComplexFault.message : ComplexFault → String
  | input index => s!"input {index} is complex"
  | someOf complex inputs => s!"{complex} of {inputs} inputs are complex; all or none must be"
  | mixedParts first other =>
    "complex inputs mix " ++ first.name ++ " and " ++ other.name ++ " parts"
  | condition => "condition cannot be complex"
  | axes => "reduction axes cannot be complex"
  | notUpdates => "only updates may be complex"
  | operand role => s!"{role} cannot be complex"

def AttributeFault.message : AttributeFault → String
  | kind expected actual => s!"expected {expected}, got {actual}"
  | elementType actual => actual.name
  | text actual => actual

def Violation.message : Violation → String
  | opType expected =>
    "unsupported op type, expected one of [" ++ ", ".intercalate expected ++ "]"
  | arity expected actual => s!"expected at least {expected} inputs, got {actual}"
  | complexInput fault => "unsupported complex input: " ++ fault.message
  | missingAttribute name => s!"missing attribute '{name}'"
  | attributeValue name fault =>
    s!"unsupported value for attribute '{name}': " ++ fault.message
  | target cause => cause.message

namespace Error

def message : Error → String
  | node name opType violation => s!"{name} ({opType}): " ++ violation.message
  | graph cause => "Invalid graph: " ++ cause.message

/-- The node that the error is about, if it is about one. -/
def node? : Error → Option String
  | node name _ _ => some name
  | graph _ => none

end Error

end TensorLowering.Lowering
