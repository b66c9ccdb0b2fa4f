import TensorLowering.Lowering.Error
import TensorLowering.Lowering.Value
import TensorLowering.Source.Graph

/-!
# Nodes as the rules see them

A `ResolvedNode` is a source node with its tensor inputs already lowered. Besides access to inputs
and attributes it has the checks that rules make before they emit anything: `check` for the op type,
the number of inputs and complex inputs, `commonMarking` and `pairMarking` for inputs that have to
be all plain or all complex.
-/

namespace TensorLowering.Lowering

open Dataflow (ValueId)

structure ResolvedNode where
  source : Source.Node
  /-- The tensor inputs, in the order of the node's references. -/
  inputs : List Lowered

/-- How a list of inputs is marked. -/
inductive Marking where
  | plain (values : List ValueId)
  /-- All inputs are complex, with parts of one type. -/
  | complex (partType : ElementType) (values : List ComplexValue)
deriving DecidableEq, Repr

/-- How two inputs are marked. -/
inductive PairMarking where
  | plain (x y : ValueId)
  | complex (partType : ElementType) (x y : ComplexValue)
deriving DecidableEq, Repr

namespace ResolvedNode

def name (node : ResolvedNode) : String :=
  node.source.name

def opType (node : ResolvedNode) : String :=
  node.source.opType

/-- The error that the node violates something. -/
def error (node : ResolvedNode) (violation : Violation) : Error :=
  .node node.name node.opType violation

/-- The error that complex inputs cannot be lowered. -/
def complexError (node : ResolvedNode) (fault : ComplexFault) : Error :=
  node.error (.complexInput fault)

/-- The input of the given number. -/
def input (node : ResolvedNode) (index : Nat) : Except Error Lowered :=
  match node.inputs[index]? with
  | some value => .ok value
  | none => .error (node.error (.arity (index + 1) node.inputs.length))

/-- The input of the given number, which has to be plain. -/
def plainInput (node : ResolvedNode) (index : Nat) (fault : ComplexFault) :
    Except Error ValueId := do
  match ← node.input index with
  | .plain value => return value
  | .complex _ => throw (node.complexError fault)

/-- A required attribute. -/
def attr {α : Type} (node : ResolvedNode) (reader : Source.Attribute.Reader α) (name : String) :
    Except Error α :=
  match node.source.findAttribute? name with
  | none => .error (node.error (.missingAttribute name))
  | some value =>
    match reader.read? value with
    | some x => .ok x
    | none => .error (node.error (.attributeValue name (.kind reader.typeName value.kind)))

/-- An optional attribute. -/
def attrD {α : Type} (node : ResolvedNode) (reader : Source.Attribute.Reader α) (name : String)
    (default : α) : Except Error α :=
  if node.source.hasAttribute name then node.attr reader name else .ok default

/-- Checks that the op type is one of `opTypes`, then that there are at least `minInputs` inputs,
then, unless complex inputs are allowed, that no input is complex. -/
def check (node : ResolvedNode) (minInputs : Nat) (opTypes : List String) (allowComplex : Bool) :
    Except Error Unit :=
  if !opTypes.contains node.opType then .error (node.error (.opType opTypes))
  else if node.inputs.length < minInputs then
    .error (node.error (.arity minInputs node.inputs.length))
  else if allowComplex then .ok ()
  else
    match node.inputs.findIdx? Lowered.isComplex with
    | some index => .error (node.complexError (.input index))
    | none => .ok ()

/-- How inputs are marked; they have to be all plain, or all complex with parts of one type. -/
def commonMarking (node : ResolvedNode) (inputs : List Lowered) : Except Error Marking :=
  match inputs.filterMap Lowered.complex? with
  | [] => .ok (.plain (inputs.map Lowered.value))
  | first :: others =>
    if others.length + 1 ≠ inputs.length then
      .error (node.complexError (.someOf (others.length + 1) inputs.length))
    else
      match others.find? (·.partType != first.partType) with
      | some other => .error (node.complexError (.mixedParts first.partType other.partType))
      | none => .ok (.complex first.partType (first :: others))

/-- How two inputs are marked; they have to be both plain, or both complex with parts of one
type. -/
def pairMarking (node : ResolvedNode) (x y : Lowered) : Except Error PairMarking :=
  match x, y with
  | .plain x, .plain y => .ok (.plain x y)
  | .complex x, .complex y =>
    if y.partType = x.partType then .ok (.complex x.partType x y)
    else .error (node.complexError (.mixedParts x.partType y.partType))
  | _, _ => .error (node.complexError (.someOf 1 2))

end ResolvedNode

end TensorLowering.Lowering
