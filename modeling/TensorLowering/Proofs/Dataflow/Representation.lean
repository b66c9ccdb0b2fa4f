import TensorLowering.Proofs.Dataflow.Appending
import TensorLowering.Proofs.Dataflow.Typing
import TensorLowering.Proofs.Digraph.Cycles

/-!
# The tables of a graph agree

A graph keeps its nodes, the users of every value and the contents that are known apart from each
other, and no step of building checks one against another. They agree nevertheless, after any
number of steps that succeed or fail (`reachable_coherent`):

* `Tables.add`, `Tables.rename`: the table of consumers lists the users of each value, and no mark is
  put on a mark. This is kept step by step (`Tables.apply`), the rest follows from what every node
  satisfies (`WellFormed`);
* `Digraph.sorted_readyOrder`: the order by readiness is sorted where edges lead forward, so the
  topological order of a graph is.
-/

namespace TensorLowering

/-! ## The order by readiness -/

namespace Digraph

variable {g : Digraph}

theorem Emitted.nodup : ∀ {emitted : List Nat}, g.Emitted emitted → emitted.Nodup
  | [], _ => List.nodup_nil
  | _ :: _, ⟨_, hnew, _, hearlier⟩ => List.nodup_cons.mpr ⟨hnew, hearlier.nodup⟩

/-- Read from its end, what was emitted has every vertex after its predecessors. -/
theorem Emitted.idxOf_lt {emitted : List Nat} (h : g.Emitted emitted) {p v : Nat}
    (hv : v ∈ emitted) (hp : p ∈ g.predecessors v) :
    emitted.reverse.idxOf p < emitted.reverse.idxOf v := by
  induction emitted with
  | nil => cases hv
  | cons w earlier ih =>
    obtain ⟨-, hnew, hready, hearlier⟩ := h
    have hnew : w ∉ earlier.reverse := by simpa using hnew
    rw [List.reverse_cons]
    by_cases hw : v = w
    · subst hw
      have hp : p ∈ earlier.reverse := by simpa using hready p hp
      rw [List.idxOf_append_of_mem hp, List.idxOf_append_of_notMem hnew]
      exact Nat.lt_of_lt_of_le (List.idxOf_lt_length_of_mem hp) (Nat.le_add_right _ _)
    · have hv : v ∈ earlier := (List.mem_cons.mp hv).resolve_left hw
      have hlt := ih hearlier hv
      have hv : v ∈ earlier.reverse := by simpa using hv
      have hp : p ∈ earlier.reverse :=
        List.idxOf_lt_length_iff.mp (Nat.lt_trans hlt (List.idxOf_lt_length_of_mem hv))
      rwa [List.idxOf_append_of_mem hp, List.idxOf_append_of_mem hv]

/-- Where all edges lead forward, the order by readiness lists every vertex once and after its
predecessors. -/
theorem sorted_readyOrder (hg : g.Forward) : g.Sorted g.readyOrder := by
  obtain ⟨emitted, horder, hemitted, hmem⟩ := exists_emitted hg
  rw [horder]
  constructor
  · refine (List.perm_ext_iff_of_nodup ?_ List.nodup_range).mpr fun v => ?_
    · exact (List.reverse_perm emitted).nodup_iff.mpr hemitted.nodup
    · rw [List.mem_reverse, List.mem_range, hmem]
  · intro v w hvw
    have hw : w ∈ emitted := (hmem w).mpr (hg v w hvw).2
    exact hemitted.idxOf_lt hw (mem_predecessors.mpr hvw)

end Digraph

namespace Dataflow.Graph

/-! ## The users of a value -/

/-- The nodes that use a value as an input, oldest first, each as often as it does. -/
def users (g : Graph) (v : ValueId) : List ValueId :=
  g.nodes.toList.zipIdx.flatMap fun (node, id) => List.replicate (node.inputs.count v) id

variable {g g' : Graph} {v : ValueId}

theorem users_congr (h : g'.nodes.toList.map Node.inputs = g.nodes.toList.map Node.inputs) :
    g'.users v = g.users v := by
  have hinputs (g : Graph) : g.users v = (g.nodes.toList.map Node.inputs).zipIdx.flatMap
      fun (inputs, id) => List.replicate (inputs.count v) id := by
    rw [List.zipIdx_map, List.flatMap_map]
    rfl
  rw [hinputs, hinputs, h]

theorem users_push (g : Graph) (node : Node) (v : ValueId) :
    (g.push node).users v =
      g.users v ++ List.replicate (node.inputs.count v) g.nodes.size := by
  simp [users, List.zipIdx_append]

/-! ## Steps -/

/-- What the steps keep besides well-formedness. -/
structure Tables (g : Graph) : Prop where
  size : g.consumers.size = g.nodes.size
  users : ∀ v, g.consumersOf v = g.users v
  unmarked : ∀ {id packed : ValueId} {node : Node}, g.nodes[id]? = some node →
    node.op.isComplexMark = true → packed ∈ node.inputs →
    ∃ source, g.nodes[packed]? = some source ∧ source.op.isComplexMark = false

theorem Tables.empty (fold : Folding) : Tables { fold := fold } where
  size := rfl
  users _ := rfl
  unmarked h := by simp at h

theorem Tables.congr (h : g.Tables) (hn : g'.nodes = g.nodes) (hc : g'.consumers = g.consumers) :
    g'.Tables where
  size := by rw [hn, hc]; exact h.size
  users v := by
    have hinputs : g'.nodes.toList.map Node.inputs = g.nodes.toList.map Node.inputs := by rw [hn]
    rw [users_congr hinputs, ← h.users v, consumersOf, consumersOf, hc]
  unmarked hnode := by
    rw [hn] at hnode ⊢
    exact h.unmarked hnode

/-- A mark has one input, and adding it checks that this is no mark. -/
theorem unmarked_of_checkMark {name : String} {op : Op} {producers : List Node} {type : TensorType}
    (ht : op.infer (producers.map Node.operand) = .ok type)
    (hm : checkMark name op producers = .ok ()) (hop : op.isComplexMark = true) :
    ∀ source ∈ producers, source.op.isComplexMark = false := by
  intro source hs
  cases op with
  | complexMark partType =>
    obtain ⟨x, hx, -⟩ := Op.unary_eq_ok.mp ht
    obtain ⟨producer, rfl, -⟩ := List.map_eq_singleton_iff.mp hx
    obtain rfl := List.mem_singleton.mp hs
    simpa [checkMark, hop] using hm
  | _ => cases hop

theorem Tables.add {name : String} {op : Op} {inputs : List ValueId} {id : ValueId}
    (h : g.Tables) (hadd : g.add name op inputs = .ok (id, g')) : g'.Tables := by
  obtain ⟨producers, type, contents, hp, hm, ht, -, -, rfl⟩ := add_eq_ok.mp hadd
  have hlt : ∀ input ∈ inputs, input < g.nodes.size := fun input hi => by
    obtain ⟨producer, -, hproducer⟩ := exists_of_forall₂_left hp hi
    exact (Array.getElem?_eq_some_iff.mp hproducer).1
  constructor
  case size =>
    rw [push_nodes, Array.size_push, ← h.size]
    exact (Array.size_push ..).trans (congrArg (· + 1) (size_foldl_modify ..))
  case users =>
    intro v
    rw [consumersOf_push, users_push, h.users, h.size]
    split
    · rfl
    · rename_i hv
      have hcount : inputs.count v = 0 := List.count_eq_zero_of_not_mem fun hi => hv (hlt v hi)
      rw [hcount]
  case unmarked =>
    intro id' packed node hnode hop hpacked
    have hkept : ∀ source, g.nodes[packed]? = some source →
        (g.push ⟨name, op, inputs, settle type contents, contents⟩).nodes[packed]? =
          some source := fun source hs => by
      have hsize := (Array.getElem?_eq_some_iff.mp hs).1
      rw [push_nodes, Array.getElem?_push_lt hsize, ← Array.getElem?_eq_getElem hsize, hs]
    rw [push_nodes, Array.getElem?_push] at hnode
    split at hnode
    · obtain rfl := Option.some.inj hnode
      obtain ⟨source, hmem, hs⟩ := exists_of_forall₂_left hp hpacked
      exact ⟨source, hkept source hs, unmarked_of_checkMark ht hm hop source hmem⟩
    · obtain ⟨source, hs, hsource⟩ := h.unmarked hnode hop hpacked
      exact ⟨source, hkept source hs, hsource⟩

/-- A new name changes neither an operation nor its inputs. -/
theorem Tables.rename {id : ValueId} {name : String} (h : g.Tables)
    (hr : g.rename id name = .ok g') : g'.Tables := by
  obtain ⟨_, -, hr⟩ := bind_eq_ok.mp hr
  obtain rfl := Except.ok.inj hr
  have hinputs : (g.nodes.modify id ({ · with name := name })).toList.map Node.inputs =
      g.nodes.toList.map Node.inputs := by
    refine List.ext_getElem? fun i => ?_
    simp only [List.getElem?_map, Array.getElem?_toList, Array.getElem?_modify]
    split
    · cases g.nodes[i]? <;> rfl
    · rfl
  have hop : ∀ {i : ValueId} {node : Node},
      (g.nodes.modify id ({ · with name := name }))[i]? = some node →
        ∃ old, g.nodes[i]? = some old ∧ old.op = node.op ∧ old.inputs = node.inputs := by
    intro i node hnode
    rw [Array.getElem?_modify] at hnode
    split at hnode
    · obtain ⟨old, hold, rfl⟩ := Option.map_eq_some_iff.mp hnode
      exact ⟨old, hold, rfl, rfl⟩
    · exact ⟨node, hnode, rfl, rfl⟩
  constructor
  case size => exact h.size.trans Array.size_modify.symm
  case users => exact fun v => (h.users v).trans (users_congr hinputs).symm
  case unmarked =>
    intro i packed node hnode hmark hpacked
    obtain ⟨old, hold, hop', hin⟩ := hop hnode
    obtain ⟨source, hs, hsource⟩ := h.unmarked hold (hop' ▸ hmark) (hin ▸ hpacked)
    rw [Array.getElem?_modify, hs]
    split
    · exact ⟨_, rfl, hsource⟩
    · exact ⟨source, rfl, hsource⟩

theorem Tables.apply {step : BuildStep} {id : Option ValueId} (h : g.Tables)
    (hs : g.apply step = .ok (id, g')) : g'.Tables := by
  cases step with
  | parameter name elementType shape =>
    obtain ⟨value, after, hadd, -, rfl⟩ := apply_parameter_eq_ok.mp hs
    exact (h.add hadd).congr rfl rfl
  | constant name tensor =>
    obtain ⟨value, hadd, -⟩ := apply_constant_eq_ok.mp hs
    exact h.add hadd
  | op name op inputs =>
    obtain ⟨value, hadd, -⟩ := apply_op_eq_ok.mp hs
    exact h.add hadd
  | rename value name => exact h.rename (apply_rename_eq_ok.mp hs).1
  | output value =>
    obtain ⟨_, -, hg⟩ := bind_eq_ok.mp (apply_output_eq_ok.mp hs).1
    rw [← Except.ok.inj hg]
    exact h.congr rfl rfl

theorem Reachable.tables (h : Reachable g) : g.Tables := by
  induction h with
  | empty fold => exact .empty fold
  | attempt step _ ih =>
    unfold Graph.attempt
    split
    · exact ih.apply ‹_›
    · exact ih

/-! ## Marks -/

/-- A mark has one input, whose element type is the part type, a float type. -/
theorem WellFormed.marked (hg : g.WellFormed) {id : ValueId} {node : Node} {partType : ElementType}
    (h : g.nodes[id]? = some node) (hop : node.op = .complexMark partType) :
    ∃ packed, node.inputs = [packed] ∧ g.elementType packed = .ok partType ∧
      partType.isFloat = true := by
  obtain ⟨operands, type, hi, ht, -, -⟩ := hg id node h
  rw [hop] at ht
  obtain ⟨x, rfl, ht⟩ := Op.unary_eq_ok.mp ht
  obtain ⟨he, hfloat, -, -⟩ := Op.inferComplexMark_eq_ok.mp ht
  obtain ⟨packed, _, ⟨-, hx⟩, hnil, hinputs⟩ := List.forall₂_cons_right_iff.mp hi
  obtain rfl := List.forall₂_nil_right_iff.mp hnil
  obtain ⟨producer, hproducer, rfl⟩ := Option.map_eq_some_iff.mp hx
  refine ⟨packed, hinputs, ?_, he ▸ hfloat⟩
  rw [elementType_of_node hproducer]
  exact congrArg Except.ok he

/-! ## All tables -/

/-- The tables of a graph agree with its nodes and with each other. -/
structure Coherent (g : Graph) : Prop where
  /-- A value is the value of the node of its number. Nodes and values are kept in one array here: a
  node is only ever added together with its one value, and none is removed, so that an arena of nodes
  and a table of values beside it would have the same numbers. -/
  producer : ∀ (index : UInt32) (node : Node),
    g.producer index.toNat = .ok node ↔ g.node index = .ok node
  inputs : ∀ (id : ValueId) (node : Node), g.nodes[id]? = some node →
    ∀ input ∈ node.inputs, input < id
  consumers : ∀ v, g.consumersOf v = g.users v
  /-- What is marked is no mark, and has the part type, a float type, as its element type. -/
  marks : ∀ (id : ValueId) (node : Node) (partType : ElementType), g.nodes[id]? = some node →
    node.op = .complexMark partType → partType.isFloat = true ∧ ∃ packed source,
      node.inputs = [packed] ∧ g.nodes[packed]? = some source ∧
      source.op.isComplexMark = false ∧ source.type.elementType = partType
  /-- Known contents have the recorded type, with all sizes, and as many elements as it says. -/
  contents : ∀ (id : ValueId) (node : Node) (c : Tensor), g.nodes[id]? = some node →
    node.contents = some c →
      node.type = ⟨c.elementType, .fixed c.shape⟩ ∧ c.data.size = c.shape.prod
  /-- The topological order lists every node once, -/
  perm_order : g.topologicalOrder.Perm (List.range g.nodes.size)
  /-- and the producers of a node before it. -/
  order : ∀ (id : ValueId) (node : Node), g.nodes[id]? = some node → ∀ input ∈ node.inputs,
    g.topologicalOrder.idxOf input < g.topologicalOrder.idxOf id

theorem Reachable.coherent (hg : Reachable g) : g.Coherent := by
  have hw := hg.wellFormed
  have hsorted := Digraph.sorted_readyOrder hw.forward
  constructor
  case producer =>
    intro index node
    rw [producer_eq_ok, Graph.node]
    cases g.nodes[index.toNat]? <;> simp
  case inputs => exact fun id node hnode input hi => hw.input_lt hnode hi
  case consumers => exact hg.tables.users
  case marks =>
    intro id node partType hnode hop
    obtain ⟨packed, hinputs, he, hfloat⟩ := hw.marked hnode hop
    have hmark : node.op.isComplexMark = true := by rw [hop]; rfl
    have hmem : packed ∈ node.inputs := by rw [hinputs]; exact List.mem_singleton_self packed
    obtain ⟨source, hs, hsource⟩ := hg.tables.unmarked hnode hmark hmem
    rw [Graph.elementType, producer_eq_ok.mpr hs, ok_bind] at he
    exact ⟨hfloat, packed, source, hinputs, hs, hsource, Except.ok.inj he⟩
  case contents =>
    intro id node c hnode hc
    have htype := hw.settled (operand?_of_node hnode) c hc
    exact ⟨htype, by rw [c.size_data, volume_eq_prod]⟩
  case perm_order => exact hsorted.1
  case order =>
    intro id node hnode input hi
    have hedge := mem_predecessors_digraph.mpr ⟨node, hnode, hi⟩
    exact hsorted.2 input id (Digraph.mem_predecessors.mp hedge)

/-- The node that is added is the last one. -/
theorem last_of_add {name : String} {op : Op} {inputs : List ValueId} {value : ValueId}
    (h : g.add name op inputs = .ok (value, g')) :
    value = g.nodes.size ∧ g'.nodes.size = value + 1 := by
  obtain ⟨_, _, _, -, -, -, -, hvalue, -⟩ := add_eq_ok.mp h
  exact ⟨hvalue, hvalue ▸ size_of_add h⟩

/-- The tables of a graph agree after any sequence of steps that succeed or fail, and a step that
adds a value adds the node of the same number. -/
theorem reachable_coherent (hg : Reachable g) : g.Coherent ∧
    ∀ step id g', g.apply step = .ok (some id, g') →
      id = g.nodes.size ∧ g'.nodes.size = id + 1 ∧ g'.Coherent := by
  refine ⟨hg.coherent, fun step id g' hs => ?_⟩
  refine (and_assoc.mp ⟨?_, (hg.apply hs).coherent⟩)
  cases step with
  | parameter name elementType shape =>
    obtain ⟨value, after, hadd, hid, rfl⟩ := apply_parameter_eq_ok.mp hs
    obtain rfl := Option.some.inj hid
    exact (last_of_add hadd :)
  | constant name tensor =>
    obtain ⟨value, hadd, hid⟩ := apply_constant_eq_ok.mp hs
    obtain rfl := Option.some.inj hid
    exact last_of_add hadd
  | op name op inputs =>
    obtain ⟨value, hadd, hid⟩ := apply_op_eq_ok.mp hs
    obtain rfl := Option.some.inj hid
    exact last_of_add hadd
  | rename value name => cases (apply_rename_eq_ok.mp hs).2
  | output value => cases (apply_output_eq_ok.mp hs).2

/-- A packed parameter that is added to itself, marked and renamed; the second mark fails. -/
def doubled : Graph := build {} [
  .parameter "z" .f32 (.ranked [none, some 2]),
  .op "sum" .add [0, 0],
  .op "mark" (.complexMark .f32) [1],
  .op "again" (.complexMark .f32) [2],
  .constant "k" (.ofInt 1),
  .rename 1 "twice",
  .op "plane" (.gather (-1)) [1, 3]]

theorem doubled_coherent : Reachable doubled ∧ doubled.nodes.size = 5 ∧
    doubled.consumersOf 0 = [1, 1] ∧ doubled.users 1 = [2, 4] ∧ doubled.Coherent :=
  ⟨reachable_build {} _, by decide +kernel, by decide +kernel, by decide +kernel,
    (reachable_coherent (reachable_build {} _)).1⟩

end Dataflow.Graph

end TensorLowering
