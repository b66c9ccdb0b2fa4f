import TensorLowering.Proofs.Dataflow.Extension

/-!
# Values that come about in the same way

The numbers of values depend on the order in which a graph was built. `Same` relates values of two
graphs that are the results of the same operation on values so related, with the same type and the
same known contents. It is kept when the graphs are extended (`Same.mono`), goes back to the graphs
before that as far as these have the values (`Same.restrict`), and adding an operation on such
values gives such values (`Same.add`). Values that come about in the same way mean the same
(`Same.meaning`).
-/

namespace TensorLowering.Dataflow.Graph

/-- The values come about in the same way. -/
inductive Same (g g' : Graph) : ValueId → ValueId → Prop where
  | node {id id' : ValueId} {node node' : Node} (hnode : g.nodes[id]? = some node)
      (hnode' : g'.nodes[id']? = some node') (op : node.op = node'.op)
      (type : node.type = node'.type) (contents : node.contents = node'.contents)
      (length : node.inputs.length = node'.inputs.length)
      (inputs : ∀ (i : Nat) (input input' : ValueId), node.inputs[i]? = some input →
        node'.inputs[i]? = some input' → Same g g' input input') : Same g g' id id'

variable {g g' h h' : Graph} {id id' : ValueId}

/-- The nodes of two values that come about in the same way. -/
theorem Same.exists_node (hs : Same g g' id id') : ∃ node node', g.nodes[id]? = some node ∧
    g'.nodes[id']? = some node' ∧ node.op = node'.op ∧ node.type = node'.type ∧
      node.contents = node'.contents ∧ List.Forall₂ (Same g g') node.inputs node'.inputs := by
  obtain ⟨hnode, hnode', hop, htype, hcontents, hlen, hinputs⟩ := hs
  refine ⟨_, _, hnode, hnode', hop, htype, hcontents,
    List.forall₂_iff_get.mpr ⟨hlen, fun i hi hi' => ?_⟩⟩
  exact hinputs i _ _ (List.getElem?_eq_getElem hi) (List.getElem?_eq_getElem hi')

theorem Same.lt_left (hs : Same g g' id id') : id < g.nodes.size := by
  obtain ⟨_, _, hnode, -⟩ := hs.exists_node
  exact (Array.getElem?_eq_some_iff.mp hnode).1

theorem Same.lt_right (hs : Same g g' id id') : id' < g'.nodes.size := by
  obtain ⟨_, _, -, hnode', -⟩ := hs.exists_node
  exact (Array.getElem?_eq_some_iff.mp hnode').1

theorem Same.elementType (hs : Same g g' id id') : g.elementType id = g'.elementType id' := by
  obtain ⟨_, _, hnode, hnode', -, htype, -⟩ := hs.exists_node
  rw [elementType_of_node hnode, elementType_of_node hnode', htype]

theorem Same.shape (hs : Same g g' id id') : g.shape id = g'.shape id' := by
  obtain ⟨_, _, hnode, hnode', -, htype, -⟩ := hs.exists_node
  rw [shape_of_node hnode, shape_of_node hnode', htype]

theorem Same.contents (hs : Same g g' id id') : g.contents? id = g'.contents? id' := by
  obtain ⟨_, _, hnode, hnode', -, -, hcontents, -⟩ := hs.exists_node
  rw [contents?_of_node hnode, contents?_of_node hnode', hcontents]

theorem Same.mono (hs : Same g g' id id') (he : g.Extends h) (he' : g'.Extends h') :
    Same h h' id id' := by
  induction hs with
  | node hnode hnode' hop htype hcontents hlen _ ih =>
    obtain ⟨_, hnode⟩ := he.node hnode
    obtain ⟨_, hnode'⟩ := he'.node hnode'
    exact .node hnode hnode' hop htype hcontents hlen ih

/-- Inputs are earlier, so that a value is in a graph with all that it came of. -/
theorem Same.restrict (hs : Same h g' id id') (he : g.Extends h) (hg : g.WellFormed)
    (hid : id < g.nodes.size) : Same g g' id id' := by
  induction hs with
  | @node id id' node node' hnode hnode' hop htype hcontents hlen _ ih =>
    have hearlier := Array.getElem?_eq_getElem hid
    obtain ⟨_, hlater⟩ := he.node hearlier
    rw [hnode] at hlater
    obtain rfl := Option.some.inj hlater
    refine .node hearlier hnode' hop htype hcontents hlen fun i input input' hi hi' => ?_
    have hlt := hg.input_lt hearlier (List.mem_of_getElem? hi)
    exact ih i input input' hi hi' (Nat.lt_trans hlt hid)

theorem Same.refl (hg : g.WellFormed) {id : Nat} (hid : id < g.nodes.size) : Same g g id id := by
  induction id using Nat.strongRecOn with
  | ind id ih =>
    have hnode := Array.getElem?_eq_getElem hid
    refine .node hnode hnode rfl rfl rfl rfl fun i input input' hi hi' => ?_
    obtain rfl := Option.some.inj (hi.symm.trans hi')
    have hlt := hg.input_lt hnode (List.mem_of_getElem? hi)
    exact ih input hlt (Nat.lt_trans hlt hid)

theorem Same.meaning (hs : Same g g' id id') (hg : g.WellFormed) (hg' : g'.WellFormed)
    (feeds : Feeds) : g.meaning feeds id = g'.meaning feeds id' := by
  induction hs with
  | @node id id' node node' hnode hnode' hop _ hcontents hlen _ ih =>
    rw [meaning_eq hg hnode, meaning_eq hg' hnode']
    have hmap : node.inputs.mapM (g.meaning feeds) = node'.inputs.mapM (g'.meaning feeds) := by
      refine mapM_congr₂ (List.forall₂_iff_get.mpr ⟨hlen, fun i hi hi' => ?_⟩)
      exact ih i _ _ (List.getElem?_eq_getElem hi) (List.getElem?_eq_getElem hi')
    simp only [Node.value, hop, hcontents, hmap]

theorem checkMark_eq_ok (name : String) {op : Op} {producers : List Node} :
    checkMark name op producers = .ok () ↔
      ¬(op.isComplexMark ∧ (producers.map Node.op).head?.any Op.isComplexMark) := by
  rw [List.head?_map, Option.any_map]
  unfold checkMark
  split
  · rename_i h
    simpa using h
  · rename_i h
    exact iff_of_true rfl h

/-- What adding a node reads of the nodes of its inputs. -/
theorem Same.producers {inputs inputs' : List ValueId} {producers : List Node}
    (hin : List.Forall₂ (Same g g') inputs inputs')
    (hp : List.Forall₂ (fun input node => g.nodes[input]? = some node) inputs producers) :
    ∃ producers', List.Forall₂ (fun input node => g'.nodes[input]? = some node) inputs' producers' ∧
      producers'.map Node.operand = producers.map Node.operand ∧
      producers'.map Node.op = producers.map Node.op := by
  induction hin generalizing producers with
  | nil =>
    obtain rfl := List.forall₂_nil_left_iff.mp hp
    exact ⟨[], .nil, rfl, rfl⟩
  | cons hs _ ih =>
    obtain ⟨node, rest, hnode, hrest, rfl⟩ := List.forall₂_cons_left_iff.mp hp
    obtain ⟨n, node', hn, hnode', hop, htype, hcontents, -⟩ := hs.exists_node
    obtain rfl := Option.some.inj (hn.symm.trans hnode)
    obtain ⟨rest', hrest', hoperands, hops⟩ := ih hrest
    refine ⟨node' :: rest', .cons hnode' hrest', ?_, ?_⟩
    · rw [List.map_cons, List.map_cons, hoperands, Node.operand, Node.operand, htype, hcontents]
    · rw [List.map_cons, List.map_cons, hops, hop]

/-- Adding an operation on values that come about in the same way. -/
theorem Same.add {name : String} (name' : String) {op : Op} {inputs inputs' : List ValueId}
    (hin : List.Forall₂ (Same g g') inputs inputs') (hf : g.fold = g'.fold)
    (hadd : g.add name op inputs = .ok (id, h)) :
    ∃ id' h', g'.add name' op inputs' = .ok (id', h') ∧ Same h h' id id' := by
  obtain ⟨producers, type, contents, hp, hm, ht, hc, rfl, rfl⟩ := add_eq_ok.mp hadd
  obtain ⟨producers', hp', hoperands, hops⟩ := Same.producers hin hp
  have hadd' : g'.add name' op inputs' = .ok (g'.nodes.size,
      g'.push ⟨name', op, inputs', settle type contents, contents⟩) := by
    refine add_eq_ok.mpr ⟨producers', type, contents, hp', ?_, ?_, ?_, rfl, rfl⟩
    · rw [checkMark_eq_ok, hops, ← checkMark_eq_ok name]
      exact hm
    · rw [hoperands, ht]
    · rw [hoperands, ← hf, hc]
  have hnode : (g.push ⟨name, op, inputs, settle type contents, contents⟩).nodes[g.nodes.size]? =
      some ⟨name, op, inputs, settle type contents, contents⟩ := by
    rw [push_nodes, Array.getElem?_push_size]
  have hnode' :
      (g'.push ⟨name', op, inputs', settle type contents, contents⟩).nodes[g'.nodes.size]? =
        some ⟨name', op, inputs', settle type contents, contents⟩ := by
    rw [push_nodes, Array.getElem?_push_size]
  refine ⟨_, _, hadd', .node hnode hnode' rfl rfl rfl hin.length_eq fun i input input' hi hi' => ?_⟩
  obtain ⟨_, hi'', hs⟩ := getElem?_of_forall₂ hin hi
  rw [Option.some.inj (hi'.symm.trans hi'')]
  exact hs.mono (.add hadd) (.add hadd')

end TensorLowering.Dataflow.Graph
