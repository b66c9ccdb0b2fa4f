import TensorLowering.Dataflow.Graph

/-!
# Evaluating dataflow graphs

`Graph.evaluate` computes the values it is asked for from tensors fed for the parameters. It runs
only the nodes that these values depend on, in the graph's order; a value whose contents are known
is taken as it is, so what it was folded from is not needed.
-/

namespace TensorLowering.Dataflow

/-- The tensors fed for parameters, by name. -/
abbrev Feeds := List (String × Tensor)

/-- The values computed so far. -/
abbrev Values := List (ValueId × Tensor)

/-- A value that was computed before. -/
def Values.read (values : Values) (id : ValueId) : Except Error Tensor :=
  match values.lookup id with
  | some value => .ok value
  | none => .error (.evaluation (.usedTooEarly id))

namespace Graph

/-- Close a set of values under the inputs of its members below `bound`, from the last node to the
first; a member with known contents asks for nothing. Inputs are earlier than the node that uses
them, so one pass is enough. -/
def closeInputs (g : Graph) : (bound : Nat) → (needed : List ValueId) → List ValueId
  | 0, needed => needed
  | id + 1, needed =>
    match g.nodes[id]? with
    | some ⟨_, _, inputs, _, none⟩ =>
      g.closeInputs id (if needed.contains id then inputs ++ needed else needed)
    | _ => g.closeInputs id needed

/-- The values that `outputs` depend on, themselves included. Of several outputs that do not exist
the last one is reported. -/
def dependencies (g : Graph) (outputs : List ValueId) : Except Error (List ValueId) :=
  match outputs.reverse.find? (g.nodes.size ≤ ·) with
  | some id => .error (.graph (.unknownValue id))
  | none => .ok (g.closeInputs g.nodes.size outputs)

/-- Checks that a fed tensor is one that the parameter stands for. -/
def acceptFeed (name : String) (elementType : ElementType) (shape : PartialShape) (fed : Tensor) :
    Except Error Unit :=
  if fed.elementType ≠ elementType then
    .error (.evaluation (.feedType name fed.elementType elementType))
  else if shape.admits fed.shape then .ok ()
  else .error (.evaluation (.feedShape name fed.shape shape))

/-- The value of one node. -/
def evaluateNode (feeds : Feeds) (values : Values) (node : Node) : Except Error Tensor :=
  match node.contents, node.op with
  | some contents, _ => .ok contents
  | none, .parameter name elementType shape =>
    match feeds.lookup name with
    | none => .error (.evaluation (.missingFeed name))
    | some fed => do
      acceptFeed name elementType shape fed
      return fed
  | none, op => do op.compute (← node.inputs.mapM (Values.read values))

/-- Add the value of a node that is needed. -/
def evaluateStep (g : Graph) (feeds : Feeds) (needed : List ValueId) (values : Values)
    (id : ValueId) : Except Error Values := do
  if needed.contains id then
    let value ← evaluateNode feeds values (← g.producer id)
    return (id, value) :: values
  else return values

/-- The values of `outputs`, in the order asked for. -/
def evaluate (g : Graph) (feeds : Feeds) (outputs : List ValueId) :
    Except Error (List Tensor) := do
  let needed ← g.dependencies outputs
  let values ← g.topologicalOrder.foldlM (g.evaluateStep feeds needed) []
  outputs.mapM fun id =>
    match values.lookup id with
    | some value => .ok value
    | none => .error (.evaluation (.notComputed id))

end Graph

end TensorLowering.Dataflow
