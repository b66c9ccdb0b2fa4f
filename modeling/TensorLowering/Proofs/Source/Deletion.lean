import TensorLowering.Proofs.Source.Order

/-!
# Deleting nodes

`Graph.without` deletes nodes of a source graph by their names, with all control dependencies on
them, and keeps some of the outputs. If no node that is left has a data reference to a deleted one
and no output that is kept names one, the result of deleting is valid where the graph is
(`validate_without`). It has an order where the graph has one (`exists_topologicalOrder_without`),
and its nodes agree with those they were (`Node.agrees_without`).
-/

namespace TensorLowering.Source

variable {deleted kept : List String}

/-- The node without its control dependencies on deleted nodes. -/
def Node.without (deleted : List String) (node : Node) : Node :=
  { node with
    inputs := node.inputs.filter fun reference =>
      let ref := Reference.parse reference
      !(ref.isControl && deleted.contains ref.node) }

theorem Node.agrees_without (node : Node) (deleted : List String) :
    node.Agrees (node.without deleted) := by
  refine ⟨rfl, rfl, rfl, ?_⟩
  rw [dataInputs, dataInputs, without, List.filter_map, List.filter_map, List.filter_filter]
  refine congrArg _ (List.filter_congr fun reference _ => ?_)
  cases h : (Reference.parse reference).isControl <;> simp [h]

namespace Graph

/-- The graph without the deleted nodes and all control dependencies on them, and with no outputs
but those that are kept. -/
def without (g : Graph) (deleted kept : List String) : Graph where
  inputs := g.inputs
  nodes := (g.nodes.filter fun node => !deleted.contains node.name).map (Node.without deleted)
  outputs := g.outputs.filter kept.contains

variable {g : Graph}

theorem mem_nodes_without {node' : Node} : node' ∈ (g.without deleted kept).nodes ↔
    ∃ node ∈ g.nodes, node.name ∉ deleted ∧ node' = node.without deleted := by
  simp only [without, List.mem_map, List.mem_filter, Bool.not_eq_true', List.contains_eq_mem,
    decide_eq_false_iff_not, and_assoc, @eq_comm _ _ node']

/-- Only names are left out, and none but deleted ones. -/
theorem names_without (g : Graph) (deleted kept : List String) :
    (g.without deleted kept).names.Sublist g.names ∧
      ∀ name ∈ g.names, name ∉ deleted → name ∈ (g.without deleted kept).names := by
  constructor
  · refine List.Sublist.append_left ?_ _
    rw [without, List.map_map]
    exact List.filter_sublist.map _
  · intro name hname hkept
    rcases List.mem_append.mp hname with hname | hname
    · exact List.mem_append_left _ hname
    · obtain ⟨node, hnode, rfl⟩ := List.mem_map.mp hname
      have hmem : node.without deleted ∈ (g.without deleted kept).nodes :=
        mem_nodes_without.mpr ⟨node, hnode, hkept, rfl⟩
      exact List.mem_append_right _ (List.mem_map.mpr ⟨_, hmem, rfl⟩)

/-- What is left of a valid graph is valid if it needs nothing that was deleted. -/
theorem validate_without (hv : g.validate = .ok ())
    (hnodes : ∀ node ∈ g.nodes, node.name ∉ deleted → ∀ ref ∈ node.dataInputs, ref.node ∉ deleted)
    (houtputs : ∀ reference ∈ g.outputs, reference ∈ kept →
      (Reference.parse reference).node ∉ deleted) :
    (g.without deleted kept).validate = .ok () := by
  obtain ⟨⟨hnodup, hnonempty⟩, hin, hout⟩ := validate_eq_ok.mp hv
  obtain ⟨hsub, hmem⟩ := names_without g deleted kept
  refine validate_eq_ok.mpr ⟨⟨hsub.nodup hnodup, fun name hn => hnonempty name (hsub.subset hn)⟩,
    fun node' hn' reference hr => ?_, fun reference hr => ?_⟩
  · obtain ⟨node, hn, hkept, rfl⟩ := mem_nodes_without.mp hn'
    obtain ⟨hr, hleft⟩ := List.mem_filter.mp hr
    refine hmem _ (hin node hn reference hr) ?_
    cases hcontrol : (Reference.parse reference).isControl with
    | true => simpa [hcontrol] using hleft
    | false =>
      refine hnodes node hn hkept _ (List.mem_filter.mpr ⟨List.mem_map_of_mem hr, ?_⟩)
      rw [hcontrol, Bool.not_false]
  · obtain ⟨hr, hk⟩ := List.mem_filter.mp hr
    have hdata := hout reference hr
    exact ⟨hdata.1, hmem _ hdata.2 (houtputs reference hr (by simpa using hk))⟩

/-- What is left is ranked by the order of the graph. -/
theorem exists_topologicalOrder_without (hn : (g.nodes.map (·.name)).Nodup) {order : List Nat}
    (ho : g.topologicalOrder = .ok order) (deleted kept : List String) :
    ∃ order', (g.without deleted kept).topologicalOrder = .ok order' := by
  let nameAt (number : Nat) := ((g.without deleted kept).nodes[number]?.map (·.name)).getD ""
  have hnameAt {number : Nat} {node : Node}
      (h : (g.without deleted kept).nodes[number]? = some (node.without deleted)) :
      nameAt number = node.name := by
    simp only [nameAt, h, Option.map_some, Option.getD_some, Node.without]
  refine exists_topologicalOrder_of_rank
    (fun number => ((g.ordered order).map (·.name)).idxOf (nameAt number)) ?_
  rintro producer consumer ⟨node', hconsumer, reference, hr, hused, -⟩
  obtain ⟨used', hproducer, hname⟩ := Option.map_eq_some_iff.mp hused
  obtain ⟨node, hnode, -, rfl⟩ := mem_nodes_without.mp (List.mem_of_getElem? hconsumer)
  obtain ⟨used, hmem, -, rfl⟩ := mem_nodes_without.mp (List.mem_of_getElem? hproducer)
  obtain ⟨before, after, hs⟩ := List.append_of_mem ((mem_ordered ho).mpr hnode)
  have hbefore : used.name ∈ before.map (·.name) := List.mem_map_of_mem
    (mem_before_of_used hn ho hs (List.mem_filter.mp hr).1 hmem hname.symm)
  have hnodup := nodup_names_ordered hn ho
  rw [hs, List.map_append, List.map_cons] at hnodup ⊢
  have hnot : node.name ∉ before.map (·.name) := fun hin =>
    (List.nodup_append.mp hnodup).2.2 _ hin _ List.mem_cons_self rfl
  rw [hnameAt hproducer, hnameAt hconsumer, List.idxOf_append_of_mem hbefore,
    List.idxOf_append_of_notMem hnot, List.idxOf_cons_self]
  exact List.idxOf_lt_length_of_mem hbefore

end Graph

end TensorLowering.Source
