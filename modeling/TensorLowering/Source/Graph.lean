import TensorLowering.Digraph.DepthFirst
import TensorLowering.Shape.Partial
import TensorLowering.Source.Attribute
import TensorLowering.Source.Reference

/-!
# Source graphs

A source graph lists declared inputs, nodes in any order, and references to the tensors that are its
outputs. `Graph.validate` checks that names are unique and that references have a target;
`Graph.topologicalOrder` puts producers before consumers.
-/

namespace TensorLowering.Source

/-- One size of a shape: known, or a symbol that stands for a size. -/
inductive Dimension where
  | size (n : Nat)
  | symbol (name : String)
deriving DecidableEq, Repr

/-- The size if it is known. -/
def Dimension.size? : Dimension → Option Nat
  | size n => some n
  | symbol _ => none

/-- The declared shape of an input. -/
inductive Shape where
  | fixed (dims : List Nat)
  | symbolic (dims : List Dimension)
  | unknown
deriving DecidableEq, Repr

namespace Shape

/-- The sizes of a shape declared as fixed. -/
def fixed? : Shape → Option (List Nat)
  | fixed dims => some dims
  | symbolic _ | unknown => none

def rank? : Shape → Option Nat
  | fixed dims => some dims.length
  | symbolic dims => some dims.length
  | unknown => none

/-- The shape without the symbols. Equal symbols are not known to stand for equal sizes. -/
def toPartial : Shape → PartialShape
  | fixed dims => .fixed dims
  | symbolic dims => .ofSizes (dims.map Dimension.size?)
  | unknown => .unranked

end Shape

/-- A declared graph input. -/
structure Input where
  name : String
  dtype : DataType
  shape : Shape
deriving DecidableEq, Repr

structure Node where
  name : String
  opType : String
  /-- References to tensors and to control dependencies. -/
  inputs : List String := []
  /-- Values by attribute name; each name occurs once. -/
  attributes : List (String × Attribute) := []
deriving DecidableEq, Repr

namespace Node

/-- The references to tensors, without the control dependencies. -/
def dataInputs (node : Node) : List Reference :=
  (node.inputs.map Reference.parse).filter fun ref => !ref.isControl

def findAttribute? (node : Node) (name : String) : Option Attribute :=
  node.attributes.lookup name

def hasAttribute (node : Node) (name : String) : Bool :=
  (node.findAttribute? name).isSome

/-- The value of an attribute of the kind that the reader reads. -/
def readAttribute {α : Type} (node : Node) (reader : Attribute.Reader α) (name : String) :
    Except Error α :=
  match node.findAttribute? name with
  | none => .error (.missingAttribute name)
  | some value =>
    match reader.read? value with
    | some x => .ok x
    | none => .error (.attributeKind name reader.typeName value.kind)

/-- The name under which output `index` is known. -/
def outputName (node : Node) (index : Nat) : String :=
  Source.outputName node.name index

end Node

structure Graph where
  inputs : List Input := []
  nodes : List Node := []
  /-- References to the tensors that the graph computes. -/
  outputs : List String := []
deriving DecidableEq, Repr

namespace Graph

def nodeByName? (g : Graph) (name : String) : Option Node :=
  g.nodes.find? (·.name == name)

def inputByName? (g : Graph) (name : String) : Option Input :=
  g.inputs.find? (·.name == name)

/-- The names of the inputs, then those of the nodes. -/
def names (g : Graph) : List String :=
  g.inputs.map (·.name) ++ g.nodes.map (·.name)

/-! ## Validation -/

/-- Checks that names are not empty and differ from each other and from those seen before. -/
def checkNames : (seen : List String) → List String → Except Error Unit
  | _, [] => .ok ()
  | seen, name :: names =>
    if name = "" then .error .emptyName
    else if seen.contains name then .error (.duplicateName name)
    else checkNames (name :: seen) names

/-- Checks that an input reference of a node has a target. -/
def checkInput (names : List String) (node : Node) (reference : String) : Except Error Unit :=
  if names.contains (Reference.parse reference).node then .ok ()
  else .error (.missingInput reference node.name)

/-- Checks that a graph output is a tensor and has a target. -/
def checkOutput (names : List String) (reference : String) : Except Error Unit :=
  let ref := Reference.parse reference
  if !ref.isControl && names.contains ref.node then .ok ()
  else .error (.missingOutput reference)

/-- Checks names first, then the inputs of the nodes in order, then the outputs. -/
def validate (g : Graph) : Except Error Unit := do
  checkNames [] g.names
  g.nodes.forM fun node => node.inputs.forM (checkInput g.names node)
  g.outputs.forM (checkOutput g.names)

/-! ## Order -/

/-- The number of the last node of the given name. -/
def lastNamed? (g : Graph) (name : String) : Option Nat :=
  (g.nodes.zipIdx.reverse.find? fun (node, _) => node.name == name).map (·.2)

/-- The edges that the references of a node contribute, control dependencies included. A reference
to an input of the graph contributes none. -/
def edgesInto (g : Graph) (node : Node) (consumer : Nat) : List (Nat × Nat) :=
  node.inputs.filterMap fun reference =>
    (g.lastNamed? (Reference.parse reference).node).map fun producer => (producer, consumer)

def digraph (g : Graph) : Digraph where
  size := g.nodes.length
  edges := g.nodes.zipIdx.flatMap fun (node, consumer) => g.edgesInto node consumer

/-- The numbers of the nodes in an order in which every producer precedes its consumers. -/
def topologicalOrder (g : Graph) : Except Error (List Nat) :=
  match g.digraph.depthFirstOrder with
  | .ok order => .ok order
  | .error v => .error (.cycle ((g.nodes[v]?.map (·.name)).getD ""))

end Graph

end TensorLowering.Source
