import TensorLowering.Proofs.Digraph.DepthFirst
import TensorLowering.Source.Graph

/-!
# Source graphs that are accepted

What validation says about a source graph (`validate_eq_ok`), and what follows for the nodes in
topological order: none of them occurs twice, so their names differ (`nodup_names_ordered`).
-/

namespace TensorLowering.Source.Graph

variable {g : Graph}

theorem checkNames_eq_ok {seen names : List String} : checkNames seen names = .ok () ↔
    names.Nodup ∧ ∀ name ∈ names, name ≠ "" ∧ name ∉ seen := by
  induction names generalizing seen with
  | nil => simp [checkNames]
  | cons name names ih =>
    unfold checkNames
    by_cases he : name = ""
    · simp [he]
    by_cases hs : name ∈ seen
    · simp [he, hs]
    · rw [if_neg he, if_neg (by simpa using hs), ih, List.nodup_cons, List.forall_mem_cons]
      simp only [List.mem_cons, not_or]
      constructor
      · rintro ⟨hn, h⟩
        refine ⟨⟨fun hm => (h name hm).2.1 rfl, hn⟩, ⟨he, hs⟩, fun m hm => ?_⟩
        exact ⟨(h m hm).1, (h m hm).2.2⟩
      · rintro ⟨⟨hm, hn⟩, -, h⟩
        exact ⟨hn, fun m hmem => ⟨(h m hmem).1, fun e => hm (e ▸ hmem), (h m hmem).2⟩⟩

/-- A valid graph has different names, none of them empty, and all references have a target. -/
theorem validate_eq_ok : g.validate = .ok () ↔
    (g.names.Nodup ∧ ∀ name ∈ g.names, name ≠ "") ∧
      (∀ node ∈ g.nodes, ∀ reference ∈ node.inputs, (Reference.parse reference).node ∈ g.names) ∧
      ∀ reference ∈ g.outputs, (Reference.parse reference).isControl = false ∧
        (Reference.parse reference).node ∈ g.names := by
  have hin : ∀ node reference, checkInput g.names node reference = .ok () ↔
      (Reference.parse reference).node ∈ g.names := fun node reference => by
    unfold checkInput
    split <;> simp_all
  have hout : ∀ reference, checkOutput g.names reference = .ok () ↔
      (Reference.parse reference).isControl = false ∧
        (Reference.parse reference).node ∈ g.names := fun reference => by
    unfold checkOutput
    simp only
    split <;> simp_all
  simp [validate, checkNames_eq_ok, List.forM_eq_forM, hin, hout]

theorem nodup_topologicalOrder {order : List Nat} (h : g.topologicalOrder = .ok order) :
    order.Nodup := by
  unfold topologicalOrder at h
  split at h
  · rename_i hd
    rw [← Except.ok.inj h]
    exact Digraph.nodup_depthFirstOrder hd
  · cases h

/-- The nodes in topological order. -/
def ordered (g : Graph) (order : List Nat) : List Node :=
  order.filterMap (g.nodes[·]?)

theorem nodup_names_ordered (hn : (g.nodes.map (·.name)).Nodup) {order : List Nat}
    (ho : g.topologicalOrder = .ok order) : ((g.ordered order).map (·.name)).Nodup := by
  rw [List.Nodup, List.pairwise_map, ordered, List.pairwise_filterMap]
  refine (nodup_topologicalOrder ho).imp fun {i j} hij x hx y hy hxy => hij ?_
  have hi : (g.nodes.map (·.name))[i]? = some x.name := by rw [List.getElem?_map, hx]; rfl
  have hj : (g.nodes.map (·.name))[j]? = some y.name := by rw [List.getElem?_map, hy]; rfl
  exact (List.getElem?_inj (List.getElem?_eq_some_iff.mp hi).1 hn).mp (by rw [hi, hj, hxy])

theorem mem_nodes_of_mem_ordered {order : List Nat} {node : Node} (h : node ∈ g.ordered order) :
    node ∈ g.nodes := by
  obtain ⟨i, -, hi⟩ := List.mem_filterMap.mp h
  exact List.mem_of_getElem? hi

/-- The names of the inputs and of the nodes in topological order differ. -/
theorem nodup_names_of_validate (hv : g.validate = .ok ()) {order : List Nat}
    (ho : g.topologicalOrder = .ok order) :
    (g.inputs.map (·.name) ++ (g.ordered order).map (·.name)).Nodup := by
  obtain ⟨hi, hn, hd⟩ := List.nodup_append.mp (validate_eq_ok.mp hv).1.1
  refine List.nodup_append.mpr ⟨hi, nodup_names_ordered hn ho, fun x hx y hy => hd x hx y ?_⟩
  obtain ⟨node, hnode, rfl⟩ := List.mem_map.mp hy
  exact List.mem_map_of_mem (mem_nodes_of_mem_ordered hnode)

end TensorLowering.Source.Graph
