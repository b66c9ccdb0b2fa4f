import Mathlib.Data.Nat.Find
import TensorLowering.Proofs.Dataflow.Appending

/-!
# Names in graphs

Looking up a name finds the first node that has it (`findByName_eq_ok`). Adding a node gives it a
name, renaming changes the name of one node, and the names of all others stay.
-/

namespace TensorLowering.Dataflow.Graph

variable {g g' : Graph} {name : String} {id : ValueId}

/-- The name of the node that has a value, if there is one. -/
def name? (g : Graph) (id : ValueId) : Option String :=
  g.nodes[id]?.map (·.name)

theorem name?_eq_some : g.name? id = some name ↔
    ∃ node, g.nodes[id]? = some node ∧ node.name = name :=
  Option.map_eq_some_iff

/-! ## Looking up -/

/-- The first node of the name is found. -/
theorem findByName_eq_ok : g.findByName name = .ok id ↔
    g.name? id = some name ∧ ∀ earlier < id, g.name? earlier ≠ some name := by
  have hfind : g.findByName name = .ok id ↔ g.nodes.findIdx? (·.name == name) = some id := by
    unfold findByName
    split <;> simp [*]
  rw [hfind, Array.findIdx?_eq_some_iff_getElem]
  constructor
  · rintro ⟨hlt, hname, hearlier⟩
    refine ⟨?_, fun earlier he hsome => ?_⟩
    · rw [name?, Array.getElem?_eq_getElem hlt, Option.map_some, beq_iff_eq.mp hname]
    · rw [name?, Array.getElem?_eq_getElem (Nat.lt_trans he hlt)] at hsome
      simpa [Option.some.inj hsome] using hearlier earlier he
  · rintro ⟨hname, hearlier⟩
    obtain ⟨node, hnode, rfl⟩ := name?_eq_some.mp hname
    obtain ⟨hlt, rfl⟩ := Array.getElem?_eq_some_iff.mp hnode
    refine ⟨hlt, beq_self_eq_true _, fun earlier he => ?_⟩
    have hne := hearlier earlier he
    rw [name?, Array.getElem?_eq_getElem (Nat.lt_trans he hlt), Option.map_some] at hne
    simpa using fun heq => hne (congrArg some heq)

/-- Where a node has the name, one is found that is not later. -/
theorem exists_findByName (h : g.name? id = some name) :
    ∃ found ≤ id, g.findByName name = .ok found := by
  have hsome : ∃ v, g.name? v = some name := ⟨id, h⟩
  have hfirst : ∀ earlier < Nat.find hsome, g.name? earlier ≠ some name :=
    fun _ => Nat.find_min hsome
  exact ⟨_, Nat.find_min' hsome h, findByName_eq_ok.mpr ⟨Nat.find_spec hsome, hfirst⟩⟩

/-! ## Building -/

/-- A new node has its name, and the others keep theirs. -/
theorem name?_of_add {added : String} {op : Op} {inputs : List ValueId} {v : ValueId}
    (h : g.add added op inputs = .ok (v, g')) :
    g'.name? id = some name ↔ g.name? id = some name ∨ id = v ∧ name = added := by
  obtain ⟨_, _, _, -, -, -, -, rfl, rfl⟩ := add_eq_ok.mp h
  rw [name?, push_nodes, Array.getElem?_push]
  split
  · rename_i hid
    simp [hid, name?, eq_comm]
  · simp [*, name?]

theorem name?_of_addParameter {added : String} {elementType : ElementType} {shape : PartialShape}
    {v : ValueId} (h : g.addParameter added elementType shape = .ok (v, g')) :
    g'.name? id = some name ↔ g.name? id = some name ∨ id = v ∧ name = added := by
  obtain ⟨⟨_, after⟩, hadd, h⟩ := bind_eq_ok.mp h
  obtain ⟨rfl, rfl⟩ := Prod.mk.inj (Except.ok.inj h)
  rw [← name?_of_add hadd]
  rfl

/-- Renaming gives the node of the value its name and leaves the others alone. -/
theorem rename_spec (h : g.rename id name = .ok g') :
    g'.name? id = some name ∧ ∀ v, v ≠ id → g'.nodes[v]? = g.nodes[v]? := by
  obtain ⟨node, hnode, h⟩ := bind_eq_ok.mp h
  obtain rfl := Except.ok.inj h
  refine ⟨?_, fun v hv => ?_⟩
  · rw [name?, Array.getElem?_modify, if_pos rfl, Graph.producer_eq_ok.mp hnode]
    rfl
  · rw [Array.getElem?_modify, if_neg (Ne.symm hv)]

theorem name?_of_addOutput {v : ValueId} (h : g.addOutput v = .ok g') :
    g'.name? id = g.name? id := by
  obtain ⟨_, -, h⟩ := bind_eq_ok.mp h
  obtain rfl := Except.ok.inj h
  rfl

theorem Appended.name? (h : g.Appended g') (hid : id < g.nodes.size) :
    g'.name? id = g.name? id := by
  rw [Graph.name?, h.nodes id hid, Graph.name?]

theorem Appended.name?_eq_some (h : g.Appended g') (hname : g.name? id = some name) :
    g'.name? id = some name := by
  obtain ⟨_, hnode, -⟩ := Graph.name?_eq_some.mp hname
  rw [h.name? (Array.getElem?_eq_some_iff.mp hnode).1, hname]

end TensorLowering.Dataflow.Graph
