import TensorLowering.Dataflow.Evaluate
import TensorLowering.Lowering.Registry

/-!
# Lowering of whole graphs

`lowerGraph` adds the inputs of a source graph as parameters, lowers its nodes in topological order
with the rules of a registry, and looks up its outputs. The result is a `Model`. A node sees the
tensors lowered before it under their names. If a node fails, either everything fails, or the node
is recorded and left out; nodes that use its tensors then fail in turn.
-/

namespace TensorLowering.Lowering

open Dataflow (Graph Folding)

/-- What happens when a node cannot be lowered. -/
inductive OnFailure where
  /-- Lowering fails with the error of the node. -/
  | abort
  /-- The node is recorded as a failure and left out. -/
  | skip
deriving DecidableEq, Repr

structure Options where
  policy : OnFailure := .abort
  fold : Folding := {}
deriving DecidableEq, Repr

/-- A node that was left out, and why. -/
structure Failure where
  node : String
  opType : String
  error : Error
deriving DecidableEq, Repr

/-- The tensors lowered so far by name, the latest first. -/
abbrev Scope := List (String × Lowered)

/-- A lowered source graph. -/
structure Model where
  graph : Graph
  /-- The outputs under the references by which the source graph asks for them. -/
  outputs : List (String × Lowered)
  failures : List Failure
deriving DecidableEq

namespace Model

/-- The output that a reference names, however it is written. -/
def output? (model : Model) (reference : String) : Option Lowered :=
  let key := (Source.Reference.parse reference).tensorName
  (model.outputs.find? fun (name, _) => (Source.Reference.parse name).tensorName == key).map (·.2)

/-- Whether no node was left out. -/
def isComplete (model : Model) : Bool :=
  model.failures.isEmpty

end Model

/-! ## Inputs -/

/-- Add a real input as a parameter. -/
def addReal (g : Graph) (input : Source.Input) :
    Except TensorLowering.Error (Lowered × Graph) := do
  let e ← input.dtype.toElementType
  let (id, g) ← g.addParameter input.name e input.shape.toPartial
  return (.plain id, g)

/-- Add a complex input as a packed parameter behind a mark. -/
def addComplex (g : Graph) (input : Source.Input) (part : Source.DataType) :
    Except TensorLowering.Error (Lowered × Graph) := do
  let e ← part.toElementType
  let packedShape := PartialShape.ofDims? (input.shape.toPartial.dims?.map (· ++ [some 2]))
  let (packed, g) ← g.addParameter input.name e packedShape
  let (marker, g) ← g.add (input.name ++ "/complex") (.complexMark e) [packed]
  return (← Lowered.classify g marker, g)

/-- Add an input of the source graph. -/
def addInput (g : Graph) (input : Source.Input) : Except Error (Lowered × Graph) :=
  let added := match input.dtype.part? with
    | none => addReal g input
    | some part => addComplex g input part
  added.mapError fun cause => .node input.name "Placeholder" (.target cause)

/-- Add all inputs and bring their tensors into scope. -/
def addInputs (g : Graph) (inputs : List Source.Input) : Except Error (Scope × Graph) :=
  inputs.foldlM (fun (scope, g) input => do
    let (lowered, g) ← addInput g input
    return ((input.name, lowered) :: scope, g)) ([], g)

/-! ## Nodes -/

/-- The tensors that the inputs of a node refer to. -/
def resolveInputs (scope : Scope) (node : Source.Node) : Except Error (List Lowered) :=
  node.dataInputs.mapM fun ref =>
    match scope.lookup ref.tensorName with
    | some lowered => .ok lowered
    | none => .error (.graph (.missingInput ref.tensorName node.name))

/-- Give the values that came about since `start` the names of the outputs that they are. A value
that is passed on keeps the name it has. -/
def nameOutputs (start : Nat) (node : Source.Node) (outputs : List Lowered) (g : Graph) :
    Except Error Graph :=
  outputs.zipIdx.foldlM (fun g (output, index) =>
    if start ≤ output.value then
      (g.rename output.value (node.outputName index)).mapError fun cause =>
        .node node.name node.opType (.target cause)
    else .ok g) g

/-- Lower one node with its rule. Whatever was added is in the graph that is returned, also if the
node fails. -/
def lowerNode (registry : Registry) (scope : Scope) (g : Graph) (node : Source.Node) :
    Except Error (List Lowered) × Graph :=
  match resolveInputs scope node with
  | .error e => (.error e, g)
  | .ok inputs =>
    match registry.find? node.opType with
    | none => (.error (.node node.name node.opType (.opType registry.opTypes)), g)
    | some rule =>
      match (rule.lower ⟨node, inputs⟩).exec ⟨g, node.name, node.opType, 0⟩ with
      | (.error e, builder) => (.error e, builder.graph)
      | (.ok outputs, builder) =>
        match nameOutputs g.nodes.size node outputs builder.graph with
        | .error e => (.error e, builder.graph)
        | .ok named => (.ok outputs, named)

/-- A source graph of which some nodes are lowered. -/
structure Progress where
  graph : Graph
  scope : Scope
  failures : List Failure := []

/-- Bring the outputs of a node into scope. -/
def Progress.record (progress : Progress) (node : Source.Node) (outputs : List Lowered)
    (g : Graph) : Progress :=
  { progress with
    graph := g
    scope := outputs.zipIdx.foldl (fun scope (output, index) =>
      (node.outputName index, output) :: scope) progress.scope }

/-- Lower the next node. -/
def Progress.step (registry : Registry) (policy : OnFailure) (progress : Progress)
    (node : Source.Node) : Except Error Progress :=
  match lowerNode registry progress.scope progress.graph node with
  | (.ok outputs, g) => .ok (progress.record node outputs g)
  | (.error e, g) =>
    match policy with
    | .abort => .error e
    | .skip => .ok { progress with
        graph := g
        failures := progress.failures ++ [⟨node.name, node.opType, e⟩] }

/-! ## Outputs -/

/-- Mark the outputs of the source graph as outputs of the target graph. One that was not produced
is an error, or left out where failures are skipped. -/
def collectOutputs (policy : OnFailure) (scope : Scope) :
    List String → Graph → Except Error (List (String × Lowered) × Graph)
  | [], g => .ok ([], g)
  | reference :: references, g =>
    match scope.lookup (Source.Reference.parse reference).tensorName with
    | some lowered => do
      let g ← (g.addOutput lowered.value).mapError fun cause =>
        .node reference "Output" (.target cause)
      let (outputs, g) ← collectOutputs policy scope references g
      return ((reference, lowered) :: outputs, g)
    | none =>
      match policy with
      | .skip => collectOutputs policy scope references g
      | .abort => .error (.graph (.missingOutput reference))

/-- Lower a source graph into a new target graph. -/
def lowerGraph (registry : Registry) (options : Options) (source : Source.Graph) :
    Except Error Model := do
  source.validate.mapError .graph
  let order ← source.topologicalOrder.mapError .graph
  let (scope, g) ← addInputs { fold := options.fold } source.inputs
  let nodes := order.filterMap (source.nodes[·]?)
  let progress ← nodes.foldlM (Progress.step registry options.policy) ⟨g, scope, []⟩
  let (outputs, g) ← collectOutputs options.policy progress.scope source.outputs progress.graph
  return ⟨g, outputs, progress.failures⟩

end TensorLowering.Lowering
