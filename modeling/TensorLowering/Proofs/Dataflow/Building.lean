import TensorLowering.Dataflow.Graph
import TensorLowering.Proofs.Outcome

/-!
# Graphs that can be built

A graph is built by steps from an empty one (`Reachable`). What is proved along all building steps:

* `add_eq_ok`: what adding a node checks and what it leaves behind; every other fact about building
  is derived from it;
* `apply_parameter_eq_ok` and so on: what each step comes down to, and `nodes_of_apply`: what it does
  to the nodes;
* `Reachable.wellFormed`: each node has inputs that are earlier, its type is the one inferred from
  them, and its contents are those that folding gives (`Justifies`).
-/

namespace TensorLowering.Dataflow

/-- One call that builds a graph. -/
inductive BuildStep where
  | parameter (name : String) (elementType : ElementType) (shape : PartialShape)
  | constant (name : String) (value : Tensor)
  | op (name : String) (op : Op) (inputs : List ValueId)
  | rename (id : ValueId) (name : String)
  | output (id : ValueId)
deriving DecidableEq

namespace Graph

/-- The graph after a step, and the value that the step added if it added one. -/
def apply (g : Graph) : BuildStep → Except Error (Option ValueId × Graph)
  | .parameter name elementType shape => do
    let (id, g) ← g.addParameter name elementType shape
    return (some id, g)
  | .constant name value => do
    let (id, g) ← g.addConstant name value
    return (some id, g)
  | .op name op inputs => do
    let (id, g) ← g.add name op inputs
    return (some id, g)
  | .rename id name => do return (none, ← g.rename id name)
  | .output id => do return (none, ← g.addOutput id)

/-- The graph after a step that may fail; then it stays as it is. -/
def attempt (g : Graph) (step : BuildStep) : Graph :=
  match g.apply step with
  | .ok (_, after) => after
  | .error _ => g

/-- The graphs that building steps lead to from an empty graph, with any options for folding. -/
inductive Reachable : Graph → Prop where
  | empty (fold : Folding) : Reachable { fold := fold }
  | attempt {g : Graph} (step : BuildStep) : Reachable g → Reachable (g.attempt step)

/-- The graph that a list of steps builds. -/
def build (fold : Folding) (steps : List BuildStep) : Graph :=
  steps.foldl attempt { fold := fold }

theorem reachable_build (fold : Folding) (steps : List BuildStep) : Reachable (build fold steps) :=
  List.foldlRecOn steps attempt (.empty fold) fun _ hg step _ => hg.attempt step

theorem Reachable.apply {g g' : Graph} {step : BuildStep} {id : Option ValueId} (hg : Reachable g)
    (h : g.apply step = .ok (id, g')) : Reachable g' := by
  have := hg.attempt step
  rwa [Graph.attempt, h] at this

/-- What is known about a value as an operand. -/
def operand? (g : Graph) (id : ValueId) : Option Operand :=
  g.nodes[id]?.map Node.operand

theorem operand?_of_node {g : Graph} {id : ValueId} {node : Node} (h : g.nodes[id]? = some node) :
    g.operand? id = some node.operand := by
  rw [operand?, h, Option.map_some]

theorem producer_eq_ok {g : Graph} {id : ValueId} {node : Node} :
    g.producer id = .ok node ↔ g.nodes[id]? = some node := by
  unfold producer
  split <;> simp_all

theorem elementType_of_node {g : Graph} {id : ValueId} {node : Node}
    (h : g.nodes[id]? = some node) : g.elementType id = .ok node.type.elementType := by
  rw [elementType, producer_eq_ok.mpr h]
  rfl

theorem shape_of_node {g : Graph} {id : ValueId} {node : Node} (h : g.nodes[id]? = some node) :
    g.shape id = .ok node.type.shape := by
  rw [shape, producer_eq_ok.mpr h]
  rfl

theorem contents?_of_node {g : Graph} {id : ValueId} {node : Node} (h : g.nodes[id]? = some node) :
    g.contents? id = node.contents := by
  rw [contents?, h, Option.bind_some]

/-! ## Adding a node -/

/-- The type of a value whose contents may be known: these fix its shape. -/
def settle (type : TensorType) (contents : Option Tensor) : TensorType :=
  ⟨type.elementType, contents.elim type.shape fun value => .fixed value.shape⟩

/-- What adding a node checks, in order, and the graph that it leaves. -/
theorem add_eq_ok {g g' : Graph} {name : String} {op : Op} {inputs : List ValueId} {id : ValueId} :
    g.add name op inputs = .ok (id, g') ↔
      ∃ producers type contents,
        List.Forall₂ (fun input node => g.nodes[input]? = some node) inputs producers ∧
        checkMark name op producers = .ok () ∧
        op.infer (producers.map Node.operand) = .ok type ∧
        knownContents g.fold op (producers.map Node.operand) type.shape = .ok contents ∧
        id = g.nodes.size ∧ g' = g.push ⟨name, op, inputs, settle type contents, contents⟩ := by
  unfold add
  simp only [bind_eq_ok, mapM_eq_ok, producer_eq_ok, pure_eq_ok, Except.ok.injEq, Prod.mk.injEq]
  constructor
  · rintro ⟨producers, hp, ⟨⟩, hm, type, ht, contents, hc, rfl, rfl⟩
    exact ⟨producers, type, contents, hp, hm, ht, hc, rfl, rfl⟩
  · rintro ⟨producers, type, contents, hp, hm, ht, hc, rfl, rfl⟩
    exact ⟨producers, hp, (), hm, type, ht, contents, hc, rfl, rfl⟩

@[simp] theorem push_nodes (g : Graph) (node : Node) :
    (g.push node).nodes = g.nodes.push node := rfl

@[simp] theorem push_fold (g : Graph) (node : Node) : (g.push node).fold = g.fold := rfl

theorem fold_of_add {g : Graph} {name : String} {op : Op} {inputs : List ValueId}
    {id : ValueId} {g' : Graph} (h : g.add name op inputs = .ok (id, g')) :
    g'.fold = g.fold := by
  obtain ⟨_, _, _, -, -, -, -, -, rfl⟩ := add_eq_ok.mp h
  exact push_fold ..

/-! ## Steps -/

section Steps

variable {g g' : Graph} {id : Option ValueId}

theorem apply_parameter_eq_ok {name : String} {elementType : ElementType} {shape : PartialShape} :
    g.apply (.parameter name elementType shape) = .ok (id, g') ↔ ∃ value after,
      g.add name (.parameter name elementType shape) [] = .ok (value, after) ∧ id = some value ∧
        g' = { after with parameters := after.parameters ++ [value] } := by
  simp only [apply, addParameter, bind_eq_ok, pure_eq_ok, Except.ok.injEq, Prod.mk.injEq,
    Prod.exists]
  constructor
  · rintro ⟨_, _, ⟨value, after, h, rfl, rfl⟩, rfl, rfl⟩; exact ⟨value, after, h, rfl, rfl⟩
  · rintro ⟨value, after, h, rfl, rfl⟩; exact ⟨_, _, ⟨value, after, h, rfl, rfl⟩, rfl, rfl⟩

theorem apply_constant_eq_ok {name : String} {tensor : Tensor} :
    g.apply (.constant name tensor) = .ok (id, g') ↔
      ∃ value, g.add name (.constant tensor) [] = .ok (value, g') ∧ id = some value := by
  simp only [apply, addConstant, bind_eq_ok, pure_eq_ok, Except.ok.injEq, Prod.mk.injEq,
    Prod.exists]
  constructor
  · rintro ⟨value, _, h, rfl, rfl⟩; exact ⟨value, h, rfl⟩
  · rintro ⟨value, h, rfl⟩; exact ⟨value, _, h, rfl, rfl⟩

theorem apply_op_eq_ok {name : String} {op : Op} {inputs : List ValueId} :
    g.apply (.op name op inputs) = .ok (id, g') ↔
      ∃ value, g.add name op inputs = .ok (value, g') ∧ id = some value := by
  simp only [apply, bind_eq_ok, pure_eq_ok, Except.ok.injEq, Prod.mk.injEq, Prod.exists]
  constructor
  · rintro ⟨value, _, h, rfl, rfl⟩; exact ⟨value, h, rfl⟩
  · rintro ⟨value, h, rfl⟩; exact ⟨value, _, h, rfl, rfl⟩

theorem apply_rename_eq_ok {value : ValueId} {name : String} :
    g.apply (.rename value name) = .ok (id, g') ↔ g.rename value name = .ok g' ∧ id = none := by
  simp only [apply, bind_eq_ok, pure_eq_ok, Except.ok.injEq, Prod.mk.injEq]
  constructor
  · rintro ⟨_, h, rfl, rfl⟩; exact ⟨h, rfl⟩
  · rintro ⟨h, rfl⟩; exact ⟨_, h, rfl, rfl⟩

theorem apply_output_eq_ok {value : ValueId} :
    g.apply (.output value) = .ok (id, g') ↔ g.addOutput value = .ok g' ∧ id = none := by
  simp only [apply, bind_eq_ok, pure_eq_ok, Except.ok.injEq, Prod.mk.injEq]
  constructor
  · rintro ⟨_, h, rfl, rfl⟩; exact ⟨h, rfl⟩
  · rintro ⟨h, rfl⟩; exact ⟨_, h, rfl, rfl⟩

/-- What a successful step does to the nodes: it adds one that is checked, gives one a new name, or
leaves them alone. -/
theorem nodes_of_apply {step : BuildStep} (h : g.apply step = .ok (id, g')) : g'.fold = g.fold ∧
    ((∃ name op inputs value after,
        g.add name op inputs = .ok (value, after) ∧ g'.nodes = after.nodes) ∨
      (∃ value name, g'.nodes = g.nodes.modify value ({ · with name := name })) ∨
      g'.nodes = g.nodes) := by
  cases step with
  | parameter name elementType shape =>
    obtain ⟨value, after, hadd, -, rfl⟩ := apply_parameter_eq_ok.mp h
    exact ⟨(fold_of_add hadd :), .inl ⟨_, _, _, _, _, hadd, rfl⟩⟩
  | constant name tensor =>
    obtain ⟨value, hadd, -⟩ := apply_constant_eq_ok.mp h
    exact ⟨fold_of_add hadd, .inl ⟨_, _, _, _, _, hadd, rfl⟩⟩
  | op name op inputs =>
    obtain ⟨value, hadd, -⟩ := apply_op_eq_ok.mp h
    exact ⟨fold_of_add hadd, .inl ⟨_, _, _, _, _, hadd, rfl⟩⟩
  | rename value name =>
    obtain ⟨node, -, hg⟩ := bind_eq_ok.mp (apply_rename_eq_ok.mp h).1
    rw [← Except.ok.inj hg]
    exact ⟨rfl, .inr (.inl ⟨value, name, rfl⟩)⟩
  | output value =>
    obtain ⟨node, -, hg⟩ := bind_eq_ok.mp (apply_output_eq_ok.mp h).1
    rw [← Except.ok.inj hg]
    exact ⟨rfl, .inr (.inr rfl)⟩

end Steps

/-! ## What every node of a built graph satisfies -/

/-- The node is one that adding it as the value `id` accepts. -/
def Justifies (g : Graph) (id : ValueId) (node : Node) : Prop :=
  ∃ operands type,
    List.Forall₂ (fun input operand => input < id ∧ g.operand? input = some operand)
      node.inputs operands ∧
    node.op.infer operands = .ok type ∧
    knownContents g.fold node.op operands type.shape = .ok node.contents ∧
    node.type = settle type node.contents

/-- Every node is one that adding it accepts. -/
def WellFormed (g : Graph) : Prop :=
  ∀ id node, g.nodes[id]? = some node → g.Justifies id node

/-- A node stays justified in a graph with the same operands. -/
theorem Justifies.of_operands {g g' : Graph} {id : ValueId} {node : Node} (h : g.Justifies id node)
    (hf : g'.fold = g.fold)
    (ho : ∀ input < id, ∀ operand, g.operand? input = some operand →
      g'.operand? input = some operand) : g'.Justifies id node := by
  obtain ⟨operands, type, hi, ht, hc, hs⟩ := h
  refine ⟨operands, type, hi.imp fun input operand h => ⟨h.1, ho _ h.1 _ h.2⟩, ht, ?_, hs⟩
  rwa [hf]

theorem operand?_push {g : Graph} {node : Node} {input : ValueId} {operand : Operand}
    (h : g.operand? input = some operand) : (g.push node).operand? input = some operand := by
  unfold operand? at h ⊢
  obtain ⟨n, hn, rfl⟩ := Option.map_eq_some_iff.mp h
  have hlt : input < g.nodes.size := (Array.getElem?_eq_some_iff.mp hn).1
  rw [push_nodes, Array.getElem?_push_lt hlt, ← Array.getElem?_eq_getElem hlt, hn, Option.map_some]

theorem WellFormed.add {g g' : Graph} {name : String} {op : Op} {inputs : List ValueId}
    {id : ValueId} (hg : g.WellFormed) (h : g.add name op inputs = .ok (id, g')) :
    g'.WellFormed := by
  obtain ⟨producers, type, contents, hp, -, ht, hc, -, rfl⟩ := add_eq_ok.mp h
  intro v node hv
  rw [push_nodes, Array.getElem?_push] at hv
  split at hv
  · rename_i hv'
    obtain rfl := Option.some.inj hv
    refine ⟨producers.map Node.operand, type, ?_, ht, hc, rfl⟩
    rw [List.forall₂_map_right_iff]
    refine hp.imp fun input producer hi => ⟨?_, operand?_push (operand?_of_node hi)⟩
    rw [hv']
    exact (Array.getElem?_eq_some_iff.mp hi).1
  · exact (hg v node hv).of_operands rfl fun _ _ _ => operand?_push

theorem WellFormed.congr {g g' : Graph} (hg : g.WellFormed) (hf : g'.fold = g.fold)
    (hn : g'.nodes = g.nodes) : g'.WellFormed := fun v node hv =>
  (hg v node (hn ▸ hv)).of_operands hf fun input _ operand h => by
    unfold operand? at h ⊢
    rwa [hn]

/-- A new name changes no operand. -/
theorem WellFormed.modify_name {g g' : Graph} {value : ValueId} {name : String} (hg : g.WellFormed)
    (hf : g'.fold = g.fold) (hn : g'.nodes = g.nodes.modify value ({ · with name := name })) :
    g'.WellFormed := by
  have ho : ∀ input operand, g.operand? input = some operand →
      g'.operand? input = some operand := by
    intro input operand h
    unfold operand? at h ⊢
    rw [hn, Array.getElem?_modify]
    obtain ⟨n, hn, rfl⟩ := Option.map_eq_some_iff.mp h
    split <;> rw [hn] <;> rfl
  intro v node hv
  rw [hn, Array.getElem?_modify] at hv
  split at hv
  · obtain ⟨n, hn, rfl⟩ := Option.map_eq_some_iff.mp hv
    exact (hg v n hn).of_operands hf fun input _ => ho input
  · exact (hg v node hv).of_operands hf fun input _ => ho input

theorem Reachable.wellFormed {g : Graph} (h : Reachable g) : g.WellFormed := by
  induction h with
  | empty fold => intro v node hv; simp at hv
  | @attempt g step _ ih =>
    unfold Graph.attempt
    split
    · rename_i id after ha
      obtain ⟨hf, ⟨_, _, _, _, _, hadd, hn⟩ | ⟨_, _, hn⟩ | hn⟩ := nodes_of_apply ha
      · exact (ih.add hadd).congr (hf.trans (fold_of_add hadd).symm) hn
      · exact ih.modify_name hf hn
      · exact ih.congr hf hn
    · exact ih

end Graph

end TensorLowering.Dataflow
