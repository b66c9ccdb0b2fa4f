import TensorLowering.Proofs.Digraph.Cycles
import TensorLowering.Proofs.Source.Graph

/-!
# The order of source nodes

A node uses the nodes that its references name, control dependencies included (`Uses`); where
several nodes share a name, the last of them is meant. `topologicalOrder_sorts`: the order puts
every node after those that it uses, if there is such an order, and otherwise the error names a node that
uses itself, perhaps through others. Importers may list the nodes of one graph in different orders
and with different control dependencies; `Rearranges` relates such graphs.
-/

namespace TensorLowering.Source

/-- The nodes differ at most in their control dependencies. -/
structure Node.Agrees (node node' : Node) : Prop where
  name : node.name = node'.name
  opType : node.opType = node'.opType
  attributes : node.attributes = node'.attributes
  dataInputs : node.dataInputs = node'.dataInputs

theorem Node.Agrees.refl (node : Node) : node.Agrees node := ⟨rfl, rfl, rfl, rfl⟩

theorem Node.Agrees.symm {node node' : Node} (h : node.Agrees node') : node'.Agrees node :=
  ⟨h.name.symm, h.opType.symm, h.attributes.symm, h.dataInputs.symm⟩

namespace Graph

open Relation (TransGen)

variable {g : Graph}

/-- The node of the given number is the last one of the given name. -/
def LastNamed (g : Graph) (name : String) (number : Nat) : Prop :=
  g.nodes[number]?.map (·.name) = some name ∧
    ∀ later, number < later → g.nodes[later]?.map (·.name) ≠ some name

/-- An input reference of the node `consumer` names the node `producer`. -/
def Uses (g : Graph) (producer consumer : Nat) : Prop :=
  ∃ node, g.nodes[consumer]? = some node ∧
    ∃ reference ∈ node.inputs, g.LastNamed (Reference.parse reference).node producer

theorem LastNamed.unique {name : String} {i j : Nat} (hi : g.LastNamed name i)
    (hj : g.LastNamed name j) : i = j := by
  rcases Nat.lt_trichotomy i j with h | h | h
  · exact absurd hj.1 (hi.2 j h)
  · exact h
  · exact absurd hi.1 (hj.2 i h)

/-- The search from the end finds the last node of a name. -/
theorem lastNamed?_eq_some {name : String} {number : Nat} :
    g.lastNamed? name = some number ↔ g.LastNamed name number := by
  have hfound : ∀ i, g.lastNamed? name = some i → g.LastNamed name i := by
    intro i h
    obtain ⟨⟨node, j⟩, hfind, rfl⟩ := Option.map_eq_some_iff.mp h
    obtain ⟨hname, after, before, hsplit, hafter⟩ := List.find?_eq_some_iff_append.mp hfind
    have hmem : (node, j) ∈ g.nodes.zipIdx :=
      List.mem_reverse.mp (hsplit ▸ List.mem_append_right _ List.mem_cons_self)
    have hnode : g.nodes[j]? = some node := List.mem_zipIdx_iff_getElem?.mp hmem
    refine ⟨by simpa [hnode] using hname, fun later hlater hn => ?_⟩
    obtain ⟨other, hother, hon⟩ := Option.map_eq_some_iff.mp hn
    -- A later node stands before this one in the reversed list, among those of other names.
    have hsplit' : g.nodes.zipIdx = before.reverse ++ (node, j) :: after.reverse := by
      rw [← List.reverse_reverse g.nodes.zipIdx, hsplit]
      simp
    have hj : before.length = j := by
      have hat : g.nodes.zipIdx[before.length]? = some (node, j) := by simp [hsplit']
      rw [List.getElem?_zipIdx, Option.map_eq_some_iff] at hat
      obtain ⟨_, -, hat⟩ := hat
      simpa using congrArg Prod.snd hat
    have hmem' : (other, later) ∈ after.reverse := by
      have hat : g.nodes.zipIdx[later]? = some (other, later) := by simp [hother]
      rw [hsplit', List.getElem?_append_right (by simp; omega), List.getElem?_cons,
        if_neg (by simp; omega)] at hat
      exact List.mem_of_getElem? hat
    have := hafter _ (List.mem_reverse.mp hmem')
    simp [hon] at this
  refine ⟨hfound number, fun h => ?_⟩
  cases hl : g.lastNamed? name with
  | some i => rw [(hfound i hl).unique h]
  | none =>
    obtain ⟨node, hnode, hname⟩ := Option.map_eq_some_iff.mp h.1
    have hnone := List.find?_eq_none.mp (Option.map_eq_none_iff.mp hl) (node, number)
      (List.mem_reverse.mpr (List.mem_zipIdx_iff_getElem?.mpr hnode))
    simp [hname] at hnone

/-- The edges of the digraph are the uses. -/
theorem edge_digraph {producer consumer : Nat} :
    g.digraph.Edge producer consumer ↔ g.Uses producer consumer := by
  simp only [Digraph.Edge, digraph, edgesInto, List.mem_flatMap, List.mem_filterMap,
    Option.map_eq_some_iff, Prod.mk.injEq, lastNamed?_eq_some]
  constructor
  · rintro ⟨⟨node, number⟩, hn, reference, hr, producer', hl, rfl, rfl⟩
    exact ⟨node, List.mem_zipIdx_iff_getElem?.mp hn, reference, hr, hl⟩
  · rintro ⟨node, hn, reference, hr, hl⟩
    exact ⟨(node, consumer), List.mem_zipIdx_iff_getElem?.mpr hn, reference, hr, producer, hl, rfl,
      rfl⟩

theorem LastNamed.lt_length {name : String} {number : Nat} (h : g.LastNamed name number) :
    number < g.nodes.length := by
  obtain ⟨node, hn, -⟩ := Option.map_eq_some_iff.mp h.1
  exact (List.getElem?_eq_some_iff.mp hn).1

theorem bounded_digraph : g.digraph.Bounded := fun producer consumer h => by
  obtain ⟨node, hn, reference, -, hl⟩ := edge_digraph.mp h
  exact ⟨hl.lt_length, (List.getElem?_eq_some_iff.mp hn).1⟩

theorem cyclic_digraph {number : Nat} :
    g.digraph.Cyclic number ↔ TransGen g.Uses number number := by
  have : g.digraph.Edge = g.Uses := funext fun _ => funext fun _ => propext edge_digraph
  rw [Digraph.Cyclic, this]

/-- An order lists every node once and after all that it uses. -/
theorem sorted_of_topologicalOrder {order : List Nat} (h : g.topologicalOrder = .ok order) :
    order.Perm (List.range g.nodes.length) ∧ ∀ producer consumer, g.Uses producer consumer →
      order.idxOf producer < order.idxOf consumer := by
  unfold topologicalOrder at h
  split at h
  · rename_i order' hd
    obtain rfl := Except.ok.inj h
    have hsorted := Digraph.sorted_of_depthFirstOrder bounded_digraph hd
    exact ⟨hsorted.1, fun producer consumer hu => hsorted.2 _ _ (edge_digraph.mpr hu)⟩
  · cases h

/-- There is an order if the nodes can be ranked so that every node is ranked above those that it
uses. -/
theorem exists_topologicalOrder_of_rank (rank : Nat → Nat)
    (h : ∀ producer consumer, g.Uses producer consumer → rank producer < rank consumer) :
    ∃ order, g.topologicalOrder = .ok order := by
  unfold topologicalOrder
  cases hd : g.digraph.depthFirstOrder with
  | ok order => exact ⟨order, rfl⟩
  | error v =>
    have hcycle := cyclic_digraph.mp (Digraph.cyclic_of_depthFirstOrder bounded_digraph hd).2
    have hlt : ∀ w, TransGen g.Uses v w → rank v < rank w := fun w hw => by
      induction hw with
      | single hu => exact h _ _ hu
      | tail _ hu ih => exact Nat.lt_trans ih (h _ _ hu)
    exact absurd (hlt v hcycle) (Nat.lt_irrefl _)

/-- There is an order exactly if no node uses itself, not even through others. The order lists every
node once and after all that it uses. Without an order the error names a node that uses itself. -/
theorem topologicalOrder_sorts (g : Graph) :
    ((∃ order, g.topologicalOrder = .ok order) ↔ ∀ number, ¬TransGen g.Uses number number) ∧
    (∀ order, g.topologicalOrder = .ok order → order.Perm (List.range g.nodes.length) ∧
      ∀ producer consumer, g.Uses producer consumer →
        order.idxOf producer < order.idxOf consumer) ∧
    ∀ e, g.topologicalOrder = .error e → ∃ number node, g.nodes[number]? = some node ∧
      TransGen g.Uses number number ∧ e = .cycle node.name := by
  refine ⟨?_, fun order => sorted_of_topologicalOrder, ?_⟩
  · unfold topologicalOrder
    cases h : g.digraph.depthFirstOrder with
    | ok order =>
      have hsorted := Digraph.sorted_of_depthFirstOrder bounded_digraph h
      refine iff_of_true ⟨order, rfl⟩ fun number hc => ?_
      exact hsorted.not_cyclic number (cyclic_digraph.mpr hc)
    | error v =>
      obtain ⟨-, hc⟩ := Digraph.cyclic_of_depthFirstOrder bounded_digraph h
      exact iff_of_false (by simp) fun hno => hno v (cyclic_digraph.mp hc)
  · intro e he
    unfold topologicalOrder at he
    split at he
    · cases he
    · rename_i v hd
      obtain rfl := Except.error.inj he
      obtain ⟨hlt, hc⟩ := Digraph.cyclic_of_depthFirstOrder bounded_digraph hd
      have hnode : g.nodes[v]? = some g.nodes[v] := List.getElem?_eq_getElem hlt
      refine ⟨v, g.nodes[v], hnode, cyclic_digraph.mp hc, ?_⟩
      rw [hnode, Option.map_some, Option.getD_some]

/-- The node `c` depends on a cycle without being on it; one of the others is reported. -/
example : topologicalOrder { nodes := [⟨"c", "", ["a"], []⟩, ⟨"a", "", ["^b"], []⟩,
    ⟨"b", "", ["a:1"], []⟩] } = .error (.cycle "b") := by
  decide

/-! ## Nodes in order -/

theorem mem_ordered {order : List Nat} (h : g.topologicalOrder = .ok order) {node : Node} :
    node ∈ g.ordered order ↔ node ∈ g.nodes := by
  refine ⟨mem_nodes_of_mem_ordered, fun hm => ?_⟩
  obtain ⟨i, hi⟩ := List.mem_iff_getElem?.mp hm
  have hlt : i ∈ List.range g.nodes.length :=
    List.mem_range.mpr (List.getElem?_eq_some_iff.mp hi).1
  exact List.mem_filterMap.mpr ⟨i, (sorted_of_topologicalOrder h).1.mem_iff.mpr hlt, hi⟩

/-- Where names differ, a node that a reference names is the last one of its name. -/
theorem lastNamed_of_nodup (hn : (g.nodes.map (·.name)).Nodup) {i : Nat} {node : Node}
    (hi : g.nodes[i]? = some node) : g.LastNamed node.name i := by
  refine ⟨by rw [hi, Option.map_some], fun later hlater hl => ?_⟩
  have hname : (g.nodes.map (·.name))[i]? = some node.name := by rw [List.getElem?_map, hi]; rfl
  have hlname : (g.nodes.map (·.name))[later]? = some node.name := by rw [List.getElem?_map, hl]
  have hlt := (List.getElem?_eq_some_iff.mp hname).1
  exact Nat.ne_of_lt hlater ((List.getElem?_inj hlt hn).mp (hname.trans hlname.symm))

/-- A node that is used comes before the node that uses it. -/
theorem mem_before_of_used (hn : (g.nodes.map (·.name)).Nodup) {order : List Nat}
    (ho : g.topologicalOrder = .ok order) {before after : List Node} {node used : Node}
    (hs : g.ordered order = before ++ node :: after) {reference : String}
    (hr : reference ∈ node.inputs) (hu : used ∈ g.nodes)
    (hname : (Reference.parse reference).node = used.name) : used ∈ before := by
  obtain ⟨earlier, rest, horder, hbefore, hrest⟩ := List.filterMap_eq_append_iff.mp hs
  obtain ⟨skipped, consumer, later, hsplit, hskipped, hconsumer, -⟩ :=
    List.filterMap_eq_cons_iff.mp hrest
  obtain ⟨producer, hproducer⟩ := List.mem_iff_getElem?.mp hu
  obtain ⟨-, hsorted⟩ := sorted_of_topologicalOrder ho
  have huse : g.Uses producer consumer :=
    ⟨node, hconsumer, reference, hr, hname ▸ lastNamed_of_nodup hn hproducer⟩
  have hlt := hsorted producer consumer huse
  have hmem : producer ∈ earlier ++ skipped := by
    by_contra hno
    rw [horder, hsplit, ← List.append_assoc, List.idxOf_append_of_notMem hno, List.idxOf_append,
      List.idxOf_cons_self] at hlt
    split at hlt
    · have := List.idxOf_lt_length_of_mem ‹consumer ∈ earlier ++ skipped›
      omega
    · omega
  rcases List.mem_append.mp hmem with he | hk
  · exact hbefore ▸ List.mem_filterMap.mpr ⟨producer, he, hproducer⟩
  · rw [hskipped producer hk] at hproducer
    cases hproducer

/-- The names of a graph are those of its inputs and of its nodes in topological order. -/
theorem mem_names_ordered {order : List Nat} (ho : g.topologicalOrder = .ok order) {name : String} :
    name ∈ g.names ↔ name ∈ g.inputs.map (·.name) ++ (g.ordered order).map (·.name) := by
  simp only [names, List.mem_append, List.mem_map, mem_ordered ho]

theorem mem_names_of_dataInputs (hv : g.validate = .ok ()) {node : Node} (hn : node ∈ g.nodes)
    {ref : Reference} (hr : ref ∈ node.dataInputs) : ref.node ∈ g.names := by
  obtain ⟨reference, hreference, rfl⟩ := List.mem_map.mp (List.mem_filter.mp hr).1
  exact (validate_eq_ok.mp hv).2.1 node hn reference hreference

/-- What a node of a valid graph refers to is an input or an earlier node. -/
theorem mem_names_before (hv : g.validate = .ok ()) {order : List Nat}
    (ho : g.topologicalOrder = .ok order) {before after : List Node} {node : Node}
    (hs : g.ordered order = before ++ node :: after) {ref : Reference}
    (hr : ref ∈ node.dataInputs) :
    ref.node ∈ g.inputs.map (·.name) ++ before.map (·.name) := by
  have hnode : node ∈ g.nodes := (mem_ordered ho).mp (hs ▸ by simp)
  rcases List.mem_append.mp (mem_names_of_dataInputs hv hnode hr) with hin | hin
  · exact List.mem_append_left _ hin
  · obtain ⟨used, hused, hname⟩ := List.mem_map.mp hin
    obtain ⟨reference, hreference, rfl⟩ := List.mem_map.mp (List.mem_filter.mp hr).1
    have hnodup := (List.nodup_append.mp (validate_eq_ok.mp hv).1.1).2.1
    have hbefore := mem_before_of_used hnodup ho hs hreference hused hname.symm
    exact List.mem_append_right _ (List.mem_map.mpr ⟨used, hbefore, hname⟩)

/-! ## Rearranged graphs -/

/-- The second graph lists the nodes of the first one in an order of its own, and may have other
control dependencies. -/
structure Rearranges (g g' : Graph) : Prop where
  inputs : g.inputs = g'.inputs
  outputs : g.outputs = g'.outputs
  nodes : ∃ nodes, List.Forall₂ Node.Agrees g.nodes nodes ∧ nodes.Perm g'.nodes

variable {g' : Graph}

theorem Rearranges.symm (h : g.Rearranges g') : g'.Rearranges g := by
  obtain ⟨nodes, hagrees, hperm⟩ := h.nodes
  have hflip := hagrees.flip.imp fun _ _ ha => Node.Agrees.symm ha
  obtain ⟨nodes', hagrees', hperm'⟩ := List.perm_comp_forall₂ hperm.symm hflip
  exact ⟨h.inputs.symm, h.outputs.symm, nodes', hagrees', hperm'⟩

theorem Rearranges.exists_agrees (h : g.Rearranges g') {node' : Node} (hn : node' ∈ g'.nodes) :
    ∃ node ∈ g.nodes, node.Agrees node' := by
  obtain ⟨nodes, hagrees, hperm⟩ := h.nodes
  exact exists_of_forall₂_right hagrees (hperm.mem_iff.mpr hn)

theorem Rearranges.names_perm (h : g.Rearranges g') : g.names.Perm g'.names := by
  obtain ⟨nodes, hagrees, hperm⟩ := h.nodes
  have hnames : g.nodes.map (·.name) = nodes.map (·.name) := by
    rw [← List.forall₂_eq_eq_eq, List.forall₂_map_left_iff, List.forall₂_map_right_iff]
    exact hagrees.imp fun _ _ ha => ha.name
  rw [names, names, h.inputs, hnames]
  exact (hperm.map _).append_left _

end Graph

end TensorLowering.Source
