import TensorLowering.Digraph.Ready
import TensorLowering.Op.Compute
import TensorLowering.Op.Typing

/-!
# Dataflow graphs

A dataflow graph is a list of nodes to which nodes are only ever added. A node is an operation on
the values of earlier nodes and has one value itself, so a value is named by the number of its node.
Adding a node types it and, where its contents can be known already, folds it:

* an operation on values with known contents is computed, unless the result is larger than the
  folding options allow;
* the shape of a value of fixed shape is known without its contents.

A folded node stays in the graph with its operation and inputs, and its shape becomes fixed.
-/

namespace TensorLowering.Dataflow

/-- The number of a node, and of the value that the node has. -/
abbrev ValueId := Nat

/-- Whether and how far contents are folded while nodes are added. -/
structure Folding where
  enabled : Bool := true
  /-- The largest number of elements of a folded result. -/
  maxElements : Nat := 4096
deriving DecidableEq, Repr

/-- An operation on earlier values, and what is known about its own value. -/
structure Node where
  name : String
  op : Op
  inputs : List ValueId
  type : TensorType
  /-- The contents of the value where they are known before run time. -/
  contents : Option Tensor
deriving DecidableEq

namespace Node

/-- The value of the node as an operand. -/
def operand (node : Node) : Operand :=
  { node.type with contents := node.contents }

end Node

structure Graph where
  nodes : Array Node := #[]
  /-- For each value the nodes that use it, oldest first, one entry per use. -/
  consumers : Array (List ValueId) := #[]
  /-- The parameters in the order in which they were added. -/
  parameters : List ValueId := []
  /-- The values that the graph is evaluated for. -/
  outputs : List ValueId := []
  fold : Folding := {}
deriving DecidableEq

namespace Graph

/-! ## Looking up -/

/-- The node that has a value. -/
def producer (g : Graph) (id : ValueId) : Except Error Node :=
  match g.nodes[id]? with
  | some node => .ok node
  | none => .error (.graph (.unknownValue id))

/-- The node at an index; indices have 32 bits. -/
def node (g : Graph) (index : UInt32) : Except Error Node :=
  match g.nodes[index.toNat]? with
  | some node => .ok node
  | none => .error (.graph (.unknownNode index.toNat))

def elementType (g : Graph) (id : ValueId) : Except Error ElementType := do
  return (← g.producer id).type.elementType

def shape (g : Graph) (id : ValueId) : Except Error PartialShape := do
  return (← g.producer id).type.shape

/-- The contents of a value, if it exists and they are known. -/
def contents? (g : Graph) (id : ValueId) : Option Tensor :=
  g.nodes[id]?.bind (·.contents)

/-- The nodes that use a value. -/
def consumersOf (g : Graph) (id : ValueId) : List ValueId :=
  g.consumers[id]?.getD []

/-- The first node of the given name. -/
def findByName (g : Graph) (name : String) : Except Error ValueId :=
  match g.nodes.findIdx? (·.name == name) with
  | some id => .ok id
  | none => .error (.graph (.unknownName name))

/-- The number of nodes whose operation has the given name. -/
def countOps (g : Graph) (name : String) : Nat :=
  g.nodes.countP (·.op.name == name)

/-! ## Building -/

/-- The contents that a new node of the given inferred shape gets by folding. -/
def fold? (options : Folding) (op : Op) (operands : List Operand) (shape : PartialShape) :
    Except Error (Option Tensor) :=
  if options.enabled ∧ shape.elementCount?.any (· ≤ options.maxElements) then
    match op, operands with
    | .shapeOf outputType, ⟨⟨_, .fixed dims⟩, _⟩ :: _ => .ok (some (.ofShape outputType dims))
    | _, _ =>
      match operands.mapM (·.contents) with
      | some inputs => do return some (← op.compute inputs)
      | none => .ok none
  else .ok none

/-- The contents of a new node before run time. -/
def knownContents (options : Folding) (op : Op) (operands : List Operand)
    (shape : PartialShape) : Except Error (Option Tensor) :=
  match op with
  | .constant value => .ok (some value)
  | .parameter .. => .ok none
  | _ => fold? options op operands shape

/-- Fails if the operation marks a value that is marked already. -/
def checkMark (name : String) (op : Op) (producers : List Node) : Except Error Unit :=
  if op.isComplexMark ∧ producers.head?.any (·.op.isComplexMark) then
    .error (.graph (.markedTwice name))
  else .ok ()

/-- The graph with one more node, which has no consumers yet and is a consumer of its inputs. -/
def push (g : Graph) (node : Node) : Graph :=
  let id := g.nodes.size
  { g with
    nodes := g.nodes.push node
    consumers := (node.inputs.foldl (fun table input => table.modify input (· ++ [id]))
      g.consumers).push [] }

/-- Add a node and return its value. -/
def add (g : Graph) (name : String) (op : Op) (inputs : List ValueId) :
    Except Error (ValueId × Graph) := do
  let producers ← inputs.mapM g.producer
  checkMark name op producers
  let operands := producers.map Node.operand
  let type ← op.infer operands
  let contents ← knownContents g.fold op operands type.shape
  let shape := contents.elim type.shape fun value => .fixed value.shape
  return (g.nodes.size, g.push ⟨name, op, inputs, ⟨type.elementType, shape⟩, contents⟩)

/-- Add a tensor that is fed at run time. -/
def addParameter (g : Graph) (name : String) (elementType : ElementType) (shape : PartialShape) :
    Except Error (ValueId × Graph) := do
  let (id, g) ← g.add name (.parameter name elementType shape) []
  return (id, { g with parameters := g.parameters ++ [id] })

def addConstant (g : Graph) (name : String) (value : Tensor) : Except Error (ValueId × Graph) :=
  g.add name (.constant value) []

/-- Give the node of a value a new name. -/
def rename (g : Graph) (id : ValueId) (name : String) : Except Error Graph := do
  let _ ← g.producer id
  return { g with nodes := g.nodes.modify id ({ · with name := name }) }

/-- Ask for a value when the graph is evaluated. -/
def addOutput (g : Graph) (id : ValueId) : Except Error Graph := do
  let _ ← g.producer id
  return { g with outputs := g.outputs ++ [id] }

/-! ## Order -/

/-- The uses of values by nodes as edges, in the order in which they came about. -/
def digraph (g : Graph) : Digraph where
  size := g.nodes.size
  edges := g.nodes.toList.zipIdx.flatMap fun (node, id) => node.inputs.map fun input => (input, id)

/-- The nodes in an order in which every node comes after its inputs. -/
def topologicalOrder (g : Graph) : List ValueId :=
  g.digraph.readyOrder

end Graph

end TensorLowering.Dataflow
