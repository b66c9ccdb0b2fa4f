import TensorLowering.Proofs.Dataflow.Extension

/-!
# Graphs to which nodes were appended

`Appended` compares two stages of a graph between which operations were added and only new nodes
were renamed: every old node is as it was, its name included, parameters and outputs are the same,
and a list of consumers has at most new nodes at its end. Adding an operation and renaming a new
node keep it (`Appended.add`, `Appended.rename`), so it holds wherever operations of a kind without
parameters were added (`Appended.of_grows`).
-/

namespace TensorLowering

/-- The operation is a parameter. -/
def Op.IsParameter (op : Op) : Prop :=
  ∃ name elementType shape, op = .parameter name elementType shape

namespace Dataflow.Graph

variable {g g' g'' : Graph} {name : String} {op : Op} {inputs : List ValueId} {id : ValueId}

/-- All that happened to the graph is that nodes other than parameters were appended. -/
structure Appended (g g' : Graph) : Prop where
  nodes : ∀ id < g.nodes.size, g'.nodes[id]? = g.nodes[id]?
  fold : g'.fold = g.fold
  parameters : g'.parameters = g.parameters
  outputs : g'.outputs = g.outputs
  consumers : ∀ id, ∃ users, g'.consumersOf id = g.consumersOf id ++ users ∧
    ∀ user ∈ users, g.nodes.size ≤ user ∧ user < g'.nodes.size
  added : ∀ id node, g.nodes.size ≤ id → g'.nodes[id]? = some node → ¬node.op.IsParameter

/-! ## Consumers -/

/-- The lists of a table after a node was entered once for each of its inputs; by induction on
these. -/
theorem getD_foldl_modify (id v : ValueId) (inputs : List ValueId) (table : Array (List ValueId)) :
    (inputs.foldl (fun table input => table.modify input (· ++ [id])) table)[v]?.getD [] =
      table[v]?.getD [] ++ List.replicate (if v < table.size then inputs.count v else 0) id := by
  induction inputs generalizing table with
  | nil => simp
  | cons input inputs ih =>
    rw [List.foldl_cons, ih, Array.size_modify, Array.getElem?_modify]
    by_cases hv : v < table.size
    · by_cases hinput : input = v
      · simp [hv, hinput, List.replicate_succ]
      · simp [hv, hinput]
    · simp [hv]

theorem size_foldl_modify (id : ValueId) (inputs : List ValueId) (table : Array (List ValueId)) :
    (inputs.foldl (fun table input => table.modify input (· ++ [id])) table).size =
      table.size := by
  induction inputs generalizing table with
  | nil => rfl
  | cons input inputs ih => rw [List.foldl_cons, ih, Array.size_modify]

/-- A node enters each list of consumers as often as it uses the value. -/
theorem consumersOf_push (g : Graph) (node : Node) (v : ValueId) :
    (g.push node).consumersOf v = g.consumersOf v ++
      List.replicate (if v < g.consumers.size then node.inputs.count v else 0) g.nodes.size := by
  have htable := getD_foldl_modify g.nodes.size v node.inputs g.consumers
  rw [consumersOf, consumersOf, ← htable, push, Array.getElem?_push]
  split
  · rename_i hv
    rw [hv, Array.getElem?_size, Option.getD_some, Option.getD_none]
  · rfl

/-! ## Steps -/

namespace Appended

theorem size_le (h : g.Appended g') : g.nodes.size ≤ g'.nodes.size := by
  refine Nat.le_of_not_lt fun hlt => ?_
  have hnode := h.nodes _ hlt
  rw [Array.getElem?_size, Array.getElem?_eq_getElem hlt] at hnode
  cases hnode

theorem refl (g : Graph) : g.Appended g where
  nodes _ _ := rfl
  fold := rfl
  parameters := rfl
  outputs := rfl
  consumers _ := ⟨[], (List.append_nil _).symm, nofun⟩
  added _ _ hid hnode := absurd (Array.getElem?_eq_some_iff.mp hnode).1 (Nat.not_lt.mpr hid)

theorem trans (h : g.Appended g') (h' : g'.Appended g'') : g.Appended g'' where
  nodes id hid := (h'.nodes id (Nat.lt_of_lt_of_le hid h.size_le)).trans (h.nodes id hid)
  fold := h'.fold.trans h.fold
  parameters := h'.parameters.trans h.parameters
  outputs := h'.outputs.trans h.outputs
  consumers id := by
    obtain ⟨users, husers, hnew⟩ := h.consumers id
    obtain ⟨users', husers', hnew'⟩ := h'.consumers id
    refine ⟨users ++ users', by rw [husers', husers, List.append_assoc], fun user hu => ?_⟩
    rcases List.mem_append.mp hu with hu | hu
    · exact ⟨(hnew user hu).1, Nat.lt_of_lt_of_le (hnew user hu).2 h'.size_le⟩
    · exact ⟨Nat.le_trans h.size_le (hnew' user hu).1, (hnew' user hu).2⟩
  added id node hid hnode := by
    rcases Nat.lt_or_ge id g'.nodes.size with hlt | hge
    · exact h.added id node hid (h'.nodes id hlt ▸ hnode)
    · exact h'.added id node hge hnode

/-- Adding an operation that is no parameter appends a node. -/
theorem of_add (hop : ¬op.IsParameter) (h : g.add name op inputs = .ok (id, g')) :
    g.Appended g' := by
  have hnodes : ∀ v < g.nodes.size, g'.nodes[v]? = g.nodes[v]? := fun _ => getElem?_of_add h
  obtain ⟨_, _, _, -, -, -, -, -, rfl⟩ := add_eq_ok.mp h
  constructor
  case nodes => exact hnodes
  case consumers =>
    intro id
    refine ⟨_, consumersOf_push g _ id, fun user hu => ?_⟩
    obtain rfl := List.eq_of_mem_replicate hu
    rw [push_nodes, Array.size_push]
    exact ⟨Nat.le_refl _, Nat.lt_succ_self _⟩
  case added =>
    intro id node hid hnode
    rw [push_nodes, Array.getElem?_push] at hnode
    split at hnode
    · obtain rfl := Option.some.inj hnode
      exact hop
    · exact absurd (Array.getElem?_eq_some_iff.mp hnode).1 (Nat.not_lt.mpr hid)
  all_goals rfl

theorem add (h : g.Appended g') (hop : ¬op.IsParameter)
    (hadd : g'.add name op inputs = .ok (id, g'')) : g.Appended g'' :=
  h.trans (.of_add hop hadd)

/-- Renaming a new node leaves the old ones alone. -/
theorem rename (h : g.Appended g') (hid : g.nodes.size ≤ id) (hr : g'.rename id name = .ok g'') :
    g.Appended g'' := by
  obtain ⟨_, -, hr⟩ := bind_eq_ok.mp hr
  obtain rfl := Except.ok.inj hr
  refine { h with
    nodes := fun v hv => ?_
    consumers := fun v => ?_
    added := fun v node hv hn => ?_ }
  · rw [Array.getElem?_modify, if_neg (Nat.ne_of_gt (Nat.lt_of_lt_of_le hv hid)), h.nodes v hv]
  · obtain ⟨users, husers, hnew⟩ := h.consumers v
    exact ⟨users, husers, by simpa only [Array.size_modify] using hnew⟩
  · rw [Array.getElem?_modify] at hn
    split at hn
    · obtain ⟨node', hnode', rfl⟩ := Option.map_eq_some_iff.mp hn
      exact h.added v node' hv hnode'
    · exact h.added v node hv hn

theorem of_grows {S : Op → Prop} (hS : ∀ op, S op → ¬op.IsParameter) (h : g.Grows S g') :
    g.Appended g' :=
  h.keeps (P := g.Appended) (fun _ _ op _ _ _ hop ih hadd => ih.add (hS op hop) hadd) (.refl g)

theorem toExtends (h : g.Appended g') : g.Extends g' :=
  ⟨h.fold, fun {id node} hnode => by
    have hid := (Array.getElem?_eq_some_iff.mp hnode).1
    exact ⟨node.name, (h.nodes id hid).trans hnode⟩⟩

end Appended

end Dataflow.Graph

end TensorLowering
