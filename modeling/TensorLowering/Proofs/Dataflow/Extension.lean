import TensorLowering.Proofs.Dataflow.Typing

/-!
# Extended graphs

Nodes are only ever added to a graph, and of those that are there only the names change. `Extends`
says so for two stages of one graph; it holds for every step that builds (`Extends.apply`), and both
ways for the steps that add no node (`Alike`). What a value means does not change on the way
(`Extends.meaning`), nor does which operation it is the result of (`Has`), so what that operation
computes can be used later on (`Has.exists_compute_eq_ok`). `Grows` says that all that was added is
of one kind.
-/

namespace TensorLowering

/-- The operation computes its result from its operands, and from nothing else. -/
def Op.IsComputed : Op → Prop
  | .parameter .. | .constant _ | .shapeOf _ => False
  | _ => True

namespace Dataflow.Graph

/-- The later graph has the nodes of the earlier one, up to their names, and folds alike. -/
structure Extends (g g' : Graph) : Prop where
  fold : g'.fold = g.fold
  node : ∀ {id : ValueId} {node : Node}, g.nodes[id]? = some node →
    ∃ name, g'.nodes[id]? = some { node with name := name }

variable {g g' g'' : Graph}

theorem Extends.refl (g : Graph) : g.Extends g := ⟨rfl, fun {_ node} h => ⟨node.name, h⟩⟩

theorem Extends.trans (h : g.Extends g') (h' : g'.Extends g'') : g.Extends g'' where
  fold := h'.fold.trans h.fold
  node hnode := by
    obtain ⟨_, hnode'⟩ := h.node hnode
    obtain ⟨name, hnode''⟩ := h'.node hnode'
    exact ⟨name, hnode''⟩

theorem Extends.of_nodes_eq (hf : g'.fold = g.fold) (hn : g'.nodes = g.nodes) : g.Extends g' :=
  ⟨hf, fun {_ node} h => ⟨node.name, hn ▸ h⟩⟩

theorem Extends.add {name : String} {op : Op} {inputs : List ValueId} {id : ValueId}
    (h : g.add name op inputs = .ok (id, g')) : g.Extends g' := by
  obtain ⟨_, _, _, -, -, -, -, -, rfl⟩ := add_eq_ok.mp h
  refine ⟨rfl, fun {v node} hv => ⟨node.name, ?_⟩⟩
  have hlt : v < g.nodes.size := (Array.getElem?_eq_some_iff.mp hv).1
  rw [push_nodes, Array.getElem?_push_lt hlt, ← Array.getElem?_eq_getElem hlt, hv]

/-- Adding a node leaves those that are there alone. -/
theorem getElem?_of_add {name : String} {op : Op} {inputs : List ValueId} {id v : ValueId}
    (h : g.add name op inputs = .ok (id, g')) (hv : v < g.nodes.size) :
    g'.nodes[v]? = g.nodes[v]? := by
  obtain ⟨_, _, _, -, -, -, -, -, rfl⟩ := add_eq_ok.mp h
  rw [push_nodes, Array.getElem?_push_lt hv, Array.getElem?_eq_getElem hv]

theorem size_of_add {name : String} {op : Op} {inputs : List ValueId} {id : ValueId}
    (h : g.add name op inputs = .ok (id, g')) : g'.nodes.size = g.nodes.size + 1 := by
  obtain ⟨_, _, _, -, -, -, -, -, rfl⟩ := add_eq_ok.mp h
  exact Array.size_push ..

/-- Building extends, step by step. -/
theorem Extends.apply {step : BuildStep} {id : Option ValueId} (h : g.apply step = .ok (id, g')) :
    g.Extends g' := by
  obtain ⟨hf, ⟨_, _, _, _, after, hadd, hn⟩ | ⟨value, name, hn⟩ | hn⟩ := nodes_of_apply h
  · exact (Extends.add hadd).trans (.of_nodes_eq (hf.trans (fold_of_add hadd).symm) hn)
  · refine ⟨hf, fun {v node} hv => ?_⟩
    rw [hn, Array.getElem?_modify, hv]
    split
    · exact ⟨name, rfl⟩
    · exact ⟨node.name, rfl⟩
  · exact .of_nodes_eq hf hn

theorem Extends.size_le (h : g.Extends g') : g.nodes.size ≤ g'.nodes.size := by
  refine Nat.le_of_not_lt fun hlt => ?_
  obtain ⟨_, hnode⟩ := h.node (Array.getElem?_eq_getElem hlt)
  exact Nat.lt_irrefl _ (Array.getElem?_eq_some_iff.mp hnode).1

/-- Names mean nothing, and inputs are earlier; so by induction along the graph. -/
theorem Extends.meaning (h : g.Extends g') (hg : g.WellFormed) (hg' : g'.WellFormed)
    (feeds : Feeds) {id : Nat} (hid : id < g.nodes.size) :
    g'.meaning feeds id = g.meaning feeds id := by
  induction id using Nat.strongRecOn with
  | ind id ih =>
    have hnode := Array.getElem?_eq_getElem hid
    obtain ⟨_, hnode'⟩ := h.node hnode
    rw [meaning_eq hg hnode, meaning_eq hg' hnode']
    refine Node.value_congr fun _ input hi => ?_
    have hlt := hg.input_lt hnode hi
    exact ih input hlt (Nat.lt_trans hlt hid)

/-! ## Graphs that differ in names -/

/-- The graphs have the same nodes, up to their names, and fold alike. -/
structure Alike (g g' : Graph) : Prop where
  forth : g.Extends g'
  back : g'.Extends g

theorem Alike.refl (g : Graph) : g.Alike g := ⟨.refl g, .refl g⟩

theorem Alike.trans (h : g.Alike g') (h' : g'.Alike g'') : g.Alike g'' :=
  ⟨h.forth.trans h'.forth, h'.back.trans h.back⟩

theorem Alike.of_nodes_eq (hf : g'.fold = g.fold) (hn : g'.nodes = g.nodes) : g.Alike g' :=
  ⟨.of_nodes_eq hf hn, .of_nodes_eq hf.symm hn.symm⟩

theorem alike_of_addOutput {id : ValueId} (h : g.addOutput id = .ok g') : g.Alike g' := by
  obtain ⟨_, -, h⟩ := bind_eq_ok.mp h
  obtain rfl := Except.ok.inj h
  exact .of_nodes_eq rfl rfl

/-- A value that exists can be made an output. -/
theorem exists_addOutput {id : ValueId} (hid : id < g.nodes.size) : ∃ g', g.addOutput id = .ok g' :=
  ⟨_, bind_eq_ok.mpr ⟨_, producer_eq_ok.mpr (Array.getElem?_eq_getElem hid), rfl⟩⟩

/-- A value that exists can be renamed. -/
theorem exists_rename {id : ValueId} (name : String) (hid : id < g.nodes.size) :
    ∃ g', g.rename id name = .ok g' :=
  ⟨_, bind_eq_ok.mpr ⟨_, producer_eq_ok.mpr (Array.getElem?_eq_getElem hid), rfl⟩⟩

theorem alike_of_rename {id : ValueId} {name : String} (h : g.rename id name = .ok g') :
    g.Alike g' := by
  refine ⟨.apply (apply_rename_eq_ok.mpr ⟨h, rfl⟩), ?_⟩
  obtain ⟨_, -, h⟩ := bind_eq_ok.mp h
  obtain rfl := Except.ok.inj h
  refine ⟨rfl, fun {v node} hv => ?_⟩
  rw [Array.getElem?_modify] at hv
  split at hv
  · obtain ⟨node, hnode, rfl⟩ := Option.map_eq_some_iff.mp hv
    exact ⟨node.name, hnode⟩
  · exact ⟨node.name, hv⟩

theorem WellFormed.of_alike (hg : g.WellFormed) (h : g.Alike g') : g'.WellFormed :=
    fun v node hv => by
  obtain ⟨_, hv'⟩ := h.back.node hv
  refine (hg v _ hv').of_operands h.forth.fold fun input _ operand ho => ?_
  obtain ⟨n, hn, rfl⟩ := Option.map_eq_some_iff.mp ho
  obtain ⟨_, hn'⟩ := h.forth.node hn
  rw [operand?_of_node hn']
  rfl

/-! ## Which operation a value is the result of -/

/-- The value is the result of the operation on the given inputs. -/
def Has (g : Graph) (id : ValueId) (op : Op) (inputs : List ValueId) : Prop :=
  ∃ node, g.nodes[id]? = some node ∧ node.op = op ∧ node.inputs = inputs

variable {id : ValueId} {op : Op} {inputs : List ValueId}

theorem has_of_add {name : String} (h : g.add name op inputs = .ok (id, g')) :
    g'.Has id op inputs := by
  obtain ⟨_, _, _, -, -, -, -, rfl, rfl⟩ := add_eq_ok.mp h
  exact ⟨_, by rw [push_nodes, Array.getElem?_push_size], rfl, rfl⟩

/-- Adding a node makes one new value, and leaves the others the results that they were. -/
theorem Has.of_add {name : String} (h : g.add name op inputs = .ok (id, g')) {id' : ValueId}
    {op' : Op} {inputs' : List ValueId} (h' : g'.Has id' op' inputs') :
    g.Has id' op' inputs' ∨ id' = id ∧ op' = op ∧ inputs' = inputs := by
  obtain ⟨_, _, _, -, -, -, -, rfl, rfl⟩ := add_eq_ok.mp h
  obtain ⟨node, hnode, rfl, rfl⟩ := h'
  rw [push_nodes, Array.getElem?_push] at hnode
  split at hnode
  · obtain rfl := Option.some.inj hnode
    exact .inr ⟨‹_›, rfl, rfl⟩
  · exact .inl ⟨node, hnode, rfl, rfl⟩

theorem Has.mono (h : g.Has id op inputs) (he : g.Extends g') : g'.Has id op inputs := by
  obtain ⟨node, hnode, rfl, rfl⟩ := h
  obtain ⟨_, hnode'⟩ := he.node hnode
  exact ⟨_, hnode', rfl, rfl⟩

/-- The value is the result of an operation that is no complex mark. -/
def Unmarked (g : Graph) (id : ValueId) : Prop :=
  ∃ op inputs, g.Has id op inputs ∧ op.isComplexMark = false

theorem Unmarked.mono (h : g.Unmarked id) (he : g.Extends g') : g'.Unmarked id := by
  obtain ⟨op, inputs, hhas, hop⟩ := h
  exact ⟨op, inputs, hhas.mono he, hop⟩

/-- A parameter is a node, and a parameter of the graph. -/
theorem exists_of_addParameter {name : String} {elementType : ElementType} {shape : PartialShape}
    (h : g.addParameter name elementType shape = .ok (id, g')) : ∃ after,
      g.add name (.parameter name elementType shape) [] = .ok (id, after) ∧ after.Alike g' := by
  obtain ⟨⟨_, after⟩, hadd, h⟩ := bind_eq_ok.mp h
  obtain ⟨rfl, rfl⟩ := Prod.mk.inj (Except.ok.inj h)
  exact ⟨after, hadd, .of_nodes_eq rfl rfl⟩

theorem has_of_addParameter {name : String} {elementType : ElementType} {shape : PartialShape}
    (h : g.addParameter name elementType shape = .ok (id, g')) :
    g'.Has id (.parameter name elementType shape) [] := by
  obtain ⟨after, hadd, halike⟩ := exists_of_addParameter h
  exact (has_of_add hadd).mono halike.forth

theorem Extends.addParameter {name : String} {elementType : ElementType} {shape : PartialShape}
    (h : g.addParameter name elementType shape = .ok (id, g')) : g.Extends g' := by
  obtain ⟨after, hadd, halike⟩ := exists_of_addParameter h
  exact (Extends.add hadd).trans halike.forth

theorem WellFormed.addParameter {name : String} {elementType : ElementType} {shape : PartialShape}
    (hg : g.WellFormed) (h : g.addParameter name elementType shape = .ok (id, g')) :
    g'.WellFormed := by
  obtain ⟨after, hadd, halike⟩ := exists_of_addParameter h
  exact (hg.add hadd).of_alike halike

theorem Has.lt_size (h : g.Has id op inputs) : id < g.nodes.size := by
  obtain ⟨node, hnode, -⟩ := h
  exact (Array.getElem?_eq_some_iff.mp hnode).1

/-- A constant means itself. -/
theorem Has.meaning_constant {value : Tensor} (h : g.Has id (.constant value) inputs)
    (hg : g.WellFormed) {feeds : Feeds} {v : Tensor} (hv : g.meaning feeds id = .ok v) :
    v = value := by
  obtain ⟨node, hnode, hop, rfl⟩ := h
  rw [meaning_eq hg hnode, Node.value_eq_ok, hop] at hv
  rcases hv with hc | ⟨-, ⟨_, _, _, hp, -⟩ | ⟨_, -, hv⟩⟩
  · obtain ⟨operands, type, -, -, hknown, -⟩ := hg id node hnode
    rw [hop, hc] at hknown
    exact (Option.some.inj (Except.ok.inj hknown)).symm
  · cases hp
  · exact (Except.ok.inj hv).symm

/-- A parameter means what is fed for it. -/
theorem Has.meaning_parameter {name : String} {elementType : ElementType} {shape : PartialShape}
    (h : g.Has id (.parameter name elementType shape) inputs) (hg : g.WellFormed) {feeds : Feeds}
    {v : Tensor} (hv : g.meaning feeds id = .ok v) :
    feeds.lookup name = some v ∧ v.type.Refines ⟨elementType, shape⟩ := by
  obtain ⟨node, hnode, hop, rfl⟩ := h
  rw [meaning_eq hg hnode, Node.value_eq_ok, hop] at hv
  rcases hv with hc | ⟨-, ⟨_, _, _, hp, hfed, haccept⟩ | ⟨_, -, hv⟩⟩
  · obtain ⟨operands, type, -, -, hknown, -⟩ := hg id node hnode
    rw [hop, hc] at hknown
    cases hknown
  · obtain ⟨rfl, rfl, rfl⟩ := Op.parameter.inj hp
    exact ⟨hfed, acceptFeed_eq_ok.mp haccept⟩
  · cases hv

/-- What a value means is what its operation computes from what the inputs mean, also where it was
folded. -/
theorem Has.exists_compute_eq_ok (h : g.Has id op inputs) (hg : g.WellFormed)
    (hop : op.IsComputed) {feeds : Feeds} {v : Tensor} (hv : g.meaning feeds id = .ok v) :
    ∃ vs, List.Forall₂ (fun input v => g.meaning feeds input = .ok v) inputs vs ∧
      op.compute vs = .ok v := by
  obtain ⟨node, hnode, rfl, rfl⟩ := h
  rw [meaning_eq hg hnode, Node.value_eq_ok] at hv
  rcases hv with hc | ⟨-, ⟨_, _, _, hp, -⟩ | hv⟩
  · obtain ⟨operands, type, hoperands, -, hknown, -⟩ := hg id node hnode
    rw [hc] at hknown
    rcases knownContents_eq_some hknown with hconst | ⟨_, _, _, _, hshape, -⟩ | ⟨vs, hvs, hcompute⟩
    · rw [hconst] at hop
      exact hop.elim
    · rw [hshape] at hop
      exact hop.elim
    · refine ⟨vs, forall₂_of_common hoperands.flip hvs fun x input t hi ht => ?_, hcompute⟩
      obtain ⟨producer, hproducer, rfl⟩ := Option.map_eq_some_iff.mp hi.2
      rw [meaning_eq hg hproducer, Node.value_eq_ok]
      exact .inl ht
  · rw [hp] at hop
    exact hop.elim
  · exact hv

/-! ## Adding operations -/

/-- The later graph results from adding operations of one kind. -/
inductive Grows (S : Op → Prop) (g : Graph) : Graph → Prop where
  | refl : Grows S g g
  | add {g' g'' : Graph} {name : String} {op : Op} {inputs : List ValueId} {id : ValueId} :
      Grows S g g' → S op → g'.add name op inputs = .ok (id, g'') → Grows S g g''

namespace Grows

variable {S : Op → Prop}

theorem trans (h : g.Grows S g') (h' : g'.Grows S g'') : g.Grows S g'' := by
  induction h' with
  | refl => exact h
  | add _ hop hadd ih => exact ih.add hop hadd

theorem imp {S' : Op → Prop} (h : g.Grows S g') (hS : ∀ op, S op → S' op) : g.Grows S' g' := by
  induction h with
  | refl => exact .refl
  | add _ hop hadd ih => exact ih.add (hS _ hop) hadd

/-- What adding operations of the kind keeps is kept. -/
theorem keeps {P : Graph → Prop} (h : g.Grows S g')
    (hadd : ∀ g name op inputs id g', S op → P g → g.add name op inputs = .ok (id, g') → P g')
    (hg : P g) : P g' := by
  induction h with
  | refl => exact hg
  | add _ hop hstep ih => exact hadd _ _ _ _ _ _ hop ih hstep

theorem toExtends (h : g.Grows S g') : g.Extends g' :=
  h.keeps (P := g.Extends) (fun _ _ _ _ _ _ _ ih hadd => ih.trans (.add hadd)) (.refl g)

theorem wellFormed (h : g.Grows S g') (hg : g.WellFormed) : g'.WellFormed :=
  h.keeps (fun _ _ _ _ _ _ _ ih hadd => ih.add hadd) hg

theorem getElem?_of_lt (h : g.Grows S g') {v : ValueId} (hv : v < g.nodes.size) :
    g'.nodes[v]? = g.nodes[v]? := by
  induction h with
  | refl => rfl
  | add hgrows _ hadd ih =>
    rw [getElem?_of_add hadd (Nat.lt_of_lt_of_le hv hgrows.toExtends.size_le), ih]

/-- Values that were not there before are results of operations of the kind. -/
theorem has_or (h : g.Grows S g') (hid : g'.Has id op inputs) : g.Has id op inputs ∨ S op := by
  induction h with
  | refl => exact .inl hid
  | add _ hop hadd ih =>
    rcases Has.of_add hadd hid with hid | ⟨-, rfl, -⟩
    · exact ih hid
    · exact .inr hop

end Grows

end Dataflow.Graph

end TensorLowering
