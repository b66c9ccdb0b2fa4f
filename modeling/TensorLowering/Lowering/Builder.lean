import TensorLowering.Lowering.Error
import TensorLowering.Lowering.Value

/-!
# Emitting operations

`Build` programs add operations to a dataflow graph on behalf of one source node. Operations are
named after that node, their own name and a running number; an operation that the graph rejects
uses up a number too. A failing program keeps what it has added so far, so what is left behind is
part of the result.
-/

namespace TensorLowering.Lowering

open Dataflow (ValueId Graph)

/-- A graph under construction and the source node on whose behalf it is extended. -/
structure Builder where
  graph : Graph
  node : String
  opType : String
  /-- The number of operations emitted so far, rejected ones included. -/
  counter : Nat := 0

/-- Programs that extend a graph; an error keeps the graph as it is then. -/
abbrev Build := ExceptT Error (StateM Builder)

namespace Builder

/-- The error that the target graph rejects something. -/
def error (builder : Builder) (cause : TensorLowering.Error) : Error :=
  .node builder.node builder.opType (.target cause)

/-- The name of the next operation. -/
def nextName (builder : Builder) (op : Op) : String :=
  let name := op.name
  let number := builder.counter
  builder.node ++ s!"/{name}_{number}"

end Builder

namespace Build

/-- The result of a program and the builder it leaves. -/
def exec {α : Type} (program : Build α) (builder : Builder) : Except Error α × Builder :=
  (program.run).run builder

/-- Add an operation and return its value. -/
def emit (op : Op) (inputs : List ValueId) : Build ValueId :=
  ExceptT.mk fun builder =>
    let counted := { builder with counter := builder.counter + 1 }
    match builder.graph.add (builder.nextName op) op inputs with
    | .ok (id, graph) => (.ok id, { counted with graph := graph })
    | .error cause => (.error (builder.error cause), counted)

/-- Something read from the graph. -/
def query {α : Type} (read : Graph → Except TensorLowering.Error α) : Build α :=
  ExceptT.mk fun builder =>
    match read builder.graph with
    | .ok x => (.ok x, builder)
    | .error cause => (.error (builder.error cause), builder)

def constant (value : Tensor) : Build ValueId :=
  emit (.constant value) []

/-- A constant vector of integers. -/
def ints (values : List Int) : Build ValueId :=
  constant (.ofInts values)

/-- A constant integer scalar. -/
def int (value : Int) : Build ValueId :=
  constant (.ofInt value)

/-- The scalar zero of the element type of a value. -/
def zeroLike (id : ValueId) : Build ValueId := do
  constant (.zero (← query (·.elementType id)))

/-- The shape of a value, as a vector. -/
def shapeOf (id : ValueId) : Build ValueId :=
  emit (.shapeOf .i64) [id]

/-- The rank of a value, as a vector of one element. -/
def rankOf (id : ValueId) : Build ValueId := do
  shapeOf (← shapeOf id)

end Build

end TensorLowering.Lowering
