import TensorLowering.Lowering.Padding
import TensorLowering.Proofs.Outcome

/-!
# The checks of rules

What it means that a check passes, and what its errors are: every one is an error of the node that
is checked (`ResolvedNode.Rejects`).
-/

namespace TensorLowering.Lowering

open Dataflow (ValueId)

namespace ResolvedNode

variable {node : ResolvedNode} {index : Nat} {fault : ComplexFault}

/-! ## What passes -/

theorem input_eq_ok {x : Lowered} : node.input index = .ok x ↔ node.inputs[index]? = some x := by
  unfold input
  split <;> simp_all

theorem mem_of_input {x : Lowered} (h : node.input index = .ok x) : x ∈ node.inputs :=
  List.mem_of_getElem? (input_eq_ok.mp h)

/-- A node passes the check of a rule if its op type is one of those asked for, it has enough inputs,
and none of them is complex where none may be. -/
theorem check_eq_ok {minInputs : Nat} {opTypes : List String} {allowComplex : Bool} {u : Unit} :
    node.check minInputs opTypes allowComplex = .ok u ↔
      node.opType ∈ opTypes ∧ minInputs ≤ node.inputs.length ∧
        (allowComplex = true ∨ ∀ x ∈ node.inputs, x.isComplex = false) := by
  unfold check
  split
  · simp_all
  rename_i hop
  split
  · rename_i hlen
    exact iff_of_false nofun fun h => absurd h.2.1 (Nat.not_le.mpr hlen)
  rename_i hlen
  have hop : node.opType ∈ opTypes := by simpa using hop
  simp only [hop, Nat.le_of_not_lt hlen, true_and]
  split
  · simp_all
  rename_i hallow
  have hsome : (node.inputs.findIdx? Lowered.isComplex).isSome = node.inputs.any Lowered.isComplex :=
    List.findIdx?_isSome
  split
  · rename_i hfind
    simp_all
  · rename_i hfind
    have hnone := List.findIdx?_eq_none_iff.mp hfind
    simp_all

/-- An attribute that is read is there, with a value of the kind. -/
theorem attr_eq_ok {α : Type} {reader : Source.Attribute.Reader α} {name : String} {a : α} :
    node.attr reader name = .ok a ↔
      ∃ value, node.source.findAttribute? name = some value ∧ reader.read? value = some a := by
  unfold attr
  cases node.source.findAttribute? name with
  | none => simp
  | some value =>
    cases h : reader.read? value with
    | none => simp [h]
    | some b => simp [h]

end ResolvedNode

/-- The marking is that of the inputs: all of them are plain, or all are complex with parts of the
type. -/
def Marking.Of (inputs : List Lowered) : Marking → Prop
  | plain values => inputs = values.map .plain
  | complex partType values => inputs = values.map .complex ∧ values ≠ [] ∧
      ∀ value ∈ values, value.partType = partType

def PairMarking.Of (x y : Lowered) : PairMarking → Prop
  | plain id id' => x = .plain id ∧ y = .plain id'
  | complex partType value value' => x = .complex value ∧ y = .complex value' ∧
      value.partType = partType ∧ value'.partType = partType

theorem Lowered.eq_map_plain {inputs : List Lowered}
    (h : inputs.filterMap Lowered.complex? = []) : inputs = (inputs.map value).map .plain := by
  induction inputs with
  | nil => rfl
  | cons x inputs ih =>
    cases x with
    | plain id => rw [List.map_cons, List.map_cons, ← ih h]; rfl
    | complex value => simp [complex?] at h

theorem Lowered.eq_map_complex {inputs : List Lowered}
    (h : (inputs.filterMap Lowered.complex?).length = inputs.length) :
    inputs = (inputs.filterMap Lowered.complex?).map .complex := by
  induction inputs with
  | nil => rfl
  | cons x inputs ih =>
    cases x with
    | plain id =>
      have hle := List.length_filterMap_le Lowered.complex? inputs
      rw [List.filterMap_cons_none rfl, List.length_cons] at h
      omega
    | complex value =>
      have hcons : (complex value :: inputs).filterMap complex? =
        value :: inputs.filterMap complex? := rfl
      rw [hcons] at h ⊢
      rw [List.map_cons, ← ih (Nat.succ.inj h)]

namespace ResolvedNode

variable {node : ResolvedNode} {index : Nat} {fault : ComplexFault}

theorem of_commonMarking {inputs : List Lowered} {marking : Marking}
    (h : node.commonMarking inputs = .ok marking) : marking.Of inputs := by
  unfold commonMarking at h
  cases hf : inputs.filterMap Lowered.complex? with
  | nil =>
    rw [hf] at h
    obtain rfl := Except.ok.inj h
    exact Lowered.eq_map_plain hf
  | cons first others =>
    rw [hf] at h
    dsimp only at h
    split at h
    · cases h
    rename_i hlen
    have hall : inputs = (first :: others).map .complex :=
      hf ▸ Lowered.eq_map_complex (by rw [hf, List.length_cons]; omega)
    split at h
    · cases h
    rename_i hfind
    obtain rfl := Except.ok.inj h
    refine ⟨hall, List.cons_ne_nil _ _, List.forall_mem_cons.mpr ⟨rfl, fun value hv => ?_⟩⟩
    simpa using List.find?_eq_none.mp hfind value hv

theorem of_pairMarking {x y : Lowered} {marking : PairMarking}
    (h : node.pairMarking x y = .ok marking) : marking.Of x y := by
  cases x with
  | plain id =>
    cases y with
    | plain id' =>
      obtain rfl := Except.ok.inj h
      exact ⟨rfl, rfl⟩
    | complex value' => cases h
  | complex value =>
    cases y with
    | plain id' => cases h
    | complex value' =>
      unfold pairMarking at h
      dsimp only at h
      split at h
      · obtain rfl := Except.ok.inj h
        exact ⟨rfl, rfl, rfl, ‹_›⟩
      · cases h

/-! ## Errors -/

/-- The error is one of the node. -/
def Rejects (node : ResolvedNode) (e : Error) : Prop :=
  ∃ violation, e = node.error violation

theorem rejects_error (violation : Violation) : node.Rejects (node.error violation) :=
  ⟨violation, rfl⟩

theorem input_fails : FailsOnly node.Rejects (node.input index) := by
  unfold input
  split
  · exact failsOnly_ok _
  · exact failsOnly_error.mpr (rejects_error _)

theorem plainInput_fails : FailsOnly node.Rejects (node.plainInput index fault) := by
  refine failsOnly_bind.mpr ⟨input_fails, fun x _ => ?_⟩
  cases x with
  | plain value => exact failsOnly_ok value
  | complex value => exact failsOnly_error.mpr (rejects_error _)

theorem check_fails {minInputs : Nat} {opTypes : List String} {allowComplex : Bool} :
    FailsOnly node.Rejects (node.check minInputs opTypes allowComplex) := by
  unfold check
  split
  · exact failsOnly_error.mpr (rejects_error _)
  split
  · exact failsOnly_error.mpr (rejects_error _)
  split
  · exact failsOnly_ok ()
  split
  · exact failsOnly_error.mpr (rejects_error _)
  · exact failsOnly_ok ()

theorem attr_fails {α : Type} {reader : Source.Attribute.Reader α} {name : String} :
    FailsOnly node.Rejects (node.attr reader name) := by
  unfold attr
  split
  · exact failsOnly_error.mpr (rejects_error _)
  split
  · exact failsOnly_ok _
  · exact failsOnly_error.mpr (rejects_error _)

theorem attrD_fails {α : Type} {reader : Source.Attribute.Reader α} {name : String} {default : α} :
    FailsOnly node.Rejects (node.attrD reader name default) := by
  unfold attrD
  split
  · exact attr_fails
  · exact failsOnly_ok default

theorem commonMarking_fails {inputs : List Lowered} :
    FailsOnly node.Rejects (node.commonMarking inputs) := by
  unfold commonMarking
  split
  · exact failsOnly_ok _
  split
  · exact failsOnly_error.mpr (rejects_error _)
  split
  · exact failsOnly_error.mpr (rejects_error _)
  · exact failsOnly_ok _

theorem pairMarking_fails {x y : Lowered} : FailsOnly node.Rejects (node.pairMarking x y) := by
  unfold pairMarking
  split
  · exact failsOnly_ok _
  · split
    · exact failsOnly_ok _
    · exact failsOnly_error.mpr (rejects_error _)
  · exact failsOnly_error.mpr (rejects_error _)

theorem mirrorMode_fails {mode : String} : FailsOnly node.Rejects (mirrorMode node mode) := by
  unfold mirrorMode
  dsimp only
  split
  · exact failsOnly_ok _
  split
  · exact failsOnly_ok _
  · exact failsOnly_error.mpr (rejects_error _)

end ResolvedNode

end TensorLowering.Lowering
