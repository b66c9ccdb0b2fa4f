import TensorLowering.Lowering.Model
import TensorLowering.Proofs.Dataflow.Extension

/-!
# The steps of lowering

What each step of `lowerGraph` does to the graph and to the scope: adding an input (`AddsInput`),
lowering a node with its rule (`NodeOutcome`) and collecting an output. The invariants and the
couplings of whole runs take a step apart with these and do not look into its program.
-/

namespace TensorLowering.Lowering

open Dataflow (ValueId Graph)

variable {g g' : Graph} {scope : Scope} {registry : Registry} {policy : OnFailure}
  {node : Source.Node} {outputs : List Lowered}

/-! ## Inputs -/

theorem classify_of_has {id packed : ValueId} {partType : ElementType}
    (h : g.Has id (.complexMark partType) [packed]) :
    Lowered.classify g id = .ok (.complex ⟨id, packed, partType⟩) := by
  obtain ⟨node, hnode, hop, hinputs⟩ := h
  rw [Lowered.classify, Graph.producer_eq_ok.mpr hnode, ok_bind, hop, hinputs]
  rfl

/-- A real input is a parameter. A complex one is a mark, and its packed tensor is a parameter with
one more axis, of size 2. -/
inductive AddsInput (g : Graph) (input : Source.Input) : Lowered → Graph → Prop where
  | real {e : ElementType} {id : ValueId} {g' : Graph} : input.dtype.part? = none →
      input.dtype.toElementType = .ok e →
      g.addParameter input.name e input.shape.toPartial = .ok (id, g') →
      AddsInput g input (.plain id) g'
  | complex {part : Source.DataType} {e : ElementType} {packed marker : ValueId} {g₁ g₂ : Graph} :
      input.dtype.part? = some part → part.toElementType = .ok e →
      g.addParameter input.name e (.ofDims? (input.shape.toPartial.dims?.map (· ++ [some 2]))) =
        .ok (packed, g₁) →
      g₁.add (input.name ++ "/complex") (.complexMark e) [packed] = .ok (marker, g₂) →
      AddsInput g input (.complex ⟨marker, packed, e⟩) g₂

theorem addInput_eq_ok {input : Source.Input} {x : Lowered} :
    addInput g input = .ok (x, g') ↔ AddsInput g input x g' := by
  rw [addInput, mapError_eq_ok]
  constructor
  · intro h
    split at h
    · obtain ⟨e, he, h⟩ := bind_eq_ok.mp h
      obtain ⟨⟨id, g₁⟩, hparameter, h⟩ := bind_eq_ok.mp h
      obtain ⟨rfl, rfl⟩ := Prod.mk.inj (Except.ok.inj h)
      exact .real ‹_› he hparameter
    · obtain ⟨e, he, h⟩ := bind_eq_ok.mp h
      obtain ⟨⟨packed, g₁⟩, hparameter, h⟩ := bind_eq_ok.mp h
      obtain ⟨⟨marker, g₂⟩, hmark, h⟩ := bind_eq_ok.mp h
      obtain ⟨_, hclassify, h⟩ := bind_eq_ok.mp h
      obtain ⟨rfl, rfl⟩ := Prod.mk.inj (Except.ok.inj h)
      rw [classify_of_has (Graph.has_of_add hmark)] at hclassify
      obtain rfl := Except.ok.inj hclassify
      exact .complex ‹_› he hparameter hmark
  · rintro (⟨hpart, he, hparameter⟩ | ⟨hpart, he, hparameter, hmark⟩)
    · simp only [hpart, addReal, he, ok_bind, hparameter, pure_eq_ok]
    · simp only [hpart, addComplex, he, ok_bind, hparameter, hmark,
        classify_of_has (Graph.has_of_add hmark), pure_eq_ok]

/-! ## Nodes -/

theorem resolveInputs_eq_ok {inputs : List Lowered} : resolveInputs scope node = .ok inputs ↔
    List.Forall₂ (fun ref x => scope.lookup ref.tensorName = some x) node.dataInputs inputs := by
  rw [resolveInputs, mapM_eq_ok]
  refine iff_of_eq (congrArg (List.Forall₂ · node.dataInputs inputs) (funext₂ fun ref x => ?_))
  cases scope.lookup ref.tensorName <;> simp

theorem exists_resolveInputs_eq_ok : (∃ inputs, resolveInputs scope node = .ok inputs) ↔
    ∀ ref ∈ node.dataInputs, ∃ x, scope.lookup ref.tensorName = some x := by
  simp only [resolveInputs_eq_ok, exists_forall₂]

/-- Naming outputs changes nothing but names. -/
theorem alike_of_nameOutputs {start : Nat} (h : nameOutputs start node outputs g = .ok g') :
    g.Alike g' := by
  refine of_foldlM (P := g.Alike) (fun g₁ output g₂ ih _ hstep => ih.trans ?_) (.refl g) h
  dsimp only at hstep
  split at hstep
  · exact Graph.alike_of_rename (mapError_eq_ok.mp hstep)
  · obtain rfl := Except.ok.inj hstep
    exact .refl g₁

/-- Outputs that exist can be named. -/
theorem exists_nameOutputs (start : Nat) (node : Source.Node)
    (hout : ∀ output ∈ outputs, output.value < g.nodes.size) :
    ∃ g', nameOutputs start node outputs g = .ok g' := by
  unfold nameOutputs
  refine (exists_foldlM_eq_ok (P := fun g' : Graph => g.nodes.size ≤ g'.nodes.size)
    (fun g₁ output hsize hi => ?_) (Nat.le_refl _)).imp fun _ h => h.1
  dsimp only
  split
  · have hlt := Nat.lt_of_lt_of_le (hout output.1 (List.fst_mem_of_mem_zipIdx hi)) hsize
    obtain ⟨g₂, hrename⟩ := Graph.exists_rename (node.outputName output.2) hlt
    have hgrows := (Graph.alike_of_rename hrename).forth.size_le
    exact ⟨g₂, mapError_eq_ok.mpr hrename, Nat.le_trans hsize hgrows⟩
  · exact ⟨g₁, rfl, hsize⟩

/-- Naming outputs fails only where the graph does not have them. -/
theorem nameOutputs_fails (start : Nat) (node : Source.Node) (outputs : List Lowered) (g : Graph) :
    FailsOnly (fun e => ∃ cause, e = .node node.name node.opType (.target cause))
      (nameOutputs start node outputs g) := by
  refine failsOnly_foldlM_of (Q := fun _ => True) (fun g _ output _ => ⟨?_, fun _ _ => trivial⟩)
    trivial
  dsimp only
  split
  · exact failsOnly_mapError fun cause => ⟨cause, rfl⟩
  · exact failsOnly_ok g

/-- Outputs that were named, or that there were before, are in the graph. -/
theorem lt_size_of_nameOutputs {start : Nat} (hstart : start ≤ g.nodes.size)
    (h : nameOutputs start node outputs g = .ok g') :
    ∀ output ∈ outputs, output.value < g'.nodes.size := by
  intro output ho
  have hsize := (alike_of_nameOutputs h).forth.size_le
  obtain ⟨before, after, rfl⟩ := List.append_of_mem ho
  rw [nameOutputs, List.zipIdx_append, List.foldlM_append] at h
  obtain ⟨g₁, hbefore, hrest⟩ := bind_eq_ok.mp h
  rw [List.zipIdx_cons, List.foldlM_cons] at hrest
  obtain ⟨_, hstep, -⟩ := bind_eq_ok.mp hrest
  dsimp only at hstep
  split at hstep
  · have hbefore : nameOutputs start node before g = .ok g₁ := hbefore
    obtain ⟨_, hproducer, -⟩ := bind_eq_ok.mp (mapError_eq_ok.mp hstep)
    have hlt := (Array.getElem?_eq_some_iff.mp (Graph.producer_eq_ok.mp hproducer)).1
    have hback := (alike_of_nameOutputs hbefore).back.size_le
    exact Nat.lt_of_lt_of_le hlt (Nat.le_trans hback hsize)
  · exact Nat.lt_of_lt_of_le (Nat.lt_of_not_le ‹_›) (Nat.le_trans hstart hsize)

/-- How lowering a node ends, and the graph it leaves. -/
inductive NodeOutcome (registry : Registry) (scope : Scope) (g : Graph) (node : Source.Node) :
    Except Error (List Lowered) × Graph → Prop where
  | unresolved {e : Error} : resolveInputs scope node = .error e →
      NodeOutcome registry scope g node (.error e, g)
  | unknown {inputs : List Lowered} : resolveInputs scope node = .ok inputs →
      registry.find? node.opType = none →
      NodeOutcome registry scope g node
        (.error (.node node.name node.opType (.opType registry.opTypes)), g)
  | failed {inputs : List Lowered} {rule : Rule} {e : Error} {builder : Builder} :
      resolveInputs scope node = .ok inputs → registry.find? node.opType = some rule →
      (rule.lower ⟨node, inputs⟩).exec ⟨g, node.name, node.opType, 0⟩ = (.error e, builder) →
      NodeOutcome registry scope g node (.error e, builder.graph)
  | unnamed {inputs : List Lowered} {rule : Rule} {outputs : List Lowered} {builder : Builder}
      {e : Error} :
      resolveInputs scope node = .ok inputs → registry.find? node.opType = some rule →
      (rule.lower ⟨node, inputs⟩).exec ⟨g, node.name, node.opType, 0⟩ = (.ok outputs, builder) →
      nameOutputs g.nodes.size node outputs builder.graph = .error e →
      NodeOutcome registry scope g node (.error e, builder.graph)
  | lowered {inputs : List Lowered} {rule : Rule} {outputs : List Lowered} {builder : Builder}
      {named : Graph} :
      resolveInputs scope node = .ok inputs → registry.find? node.opType = some rule →
      (rule.lower ⟨node, inputs⟩).exec ⟨g, node.name, node.opType, 0⟩ = (.ok outputs, builder) →
      nameOutputs g.nodes.size node outputs builder.graph = .ok named →
      NodeOutcome registry scope g node (.ok outputs, named)

theorem nodeOutcome (registry : Registry) (scope : Scope) (g : Graph) (node : Source.Node) :
    NodeOutcome registry scope g node (lowerNode registry scope g node) := by
  unfold lowerNode
  split
  · exact .unresolved ‹_›
  split
  · exact .unknown ‹_› ‹_›
  split
  · exact .failed ‹_› ‹_› ‹_›
  split
  · exact .unnamed ‹_› ‹_› ‹_› ‹_›
  · exact .lowered ‹_› ‹_› ‹_› ‹_›

theorem lowerNode_eq_ok : lowerNode registry scope g node = (.ok outputs, g') ↔
    ∃ inputs rule builder, resolveInputs scope node = .ok inputs ∧
      registry.find? node.opType = some rule ∧
      (rule.lower ⟨node, inputs⟩).exec ⟨g, node.name, node.opType, 0⟩ = (.ok outputs, builder) ∧
      nameOutputs g.nodes.size node outputs builder.graph = .ok g' := by
  constructor
  · intro h
    have houtcome := nodeOutcome registry scope g node
    rw [h] at houtcome
    cases houtcome with
    | lowered hi hr hexec hnamed => exact ⟨_, _, _, hi, hr, hexec, hnamed⟩
  · rintro ⟨inputs, rule, builder, hi, hr, hexec, hnamed⟩
    simp only [lowerNode, hi, hr, hexec, hnamed]

/-- Where failures abort, a step that succeeds has lowered its node. -/
theorem step_abort_eq_ok {progress last : Progress} :
    progress.step registry .abort node = .ok last ↔ ∃ outputs g,
      lowerNode registry progress.scope progress.graph node = (.ok outputs, g) ∧
        last = progress.record node outputs g := by
  rw [Progress.step]
  rcases lowerNode registry progress.scope progress.graph node with ⟨_ | outputs, g⟩
  · simp
  · simp [eq_comm]

/-- Where failures are skipped, a step lowers its node or records it. -/
theorem step_skip_eq_ok {progress last : Progress} :
    progress.step registry .skip node = .ok last ↔
      (∃ outputs g, lowerNode registry progress.scope progress.graph node = (.ok outputs, g) ∧
        last = progress.record node outputs g) ∨
      ∃ e g, lowerNode registry progress.scope progress.graph node = (.error e, g) ∧
        last = ⟨g, progress.scope, progress.failures ++ [⟨node.name, node.opType, e⟩]⟩ := by
  rw [Progress.step]
  rcases lowerNode registry progress.scope progress.graph node with ⟨_ | outputs, g⟩
  · simp [eq_comm]
  · simp [eq_comm]

/-! ## Outputs -/

/-- An output is found and marked, or left out where failures are skipped. -/
theorem collectOutputs_cons_eq_ok {reference : String} {references : List String}
    {collected : List (String × Lowered)} :
    collectOutputs policy scope (reference :: references) g = .ok (collected, g') ↔
      (∃ x g₁ others, scope.lookup (Source.Reference.parse reference).tensorName = some x ∧
        g.addOutput x.value = .ok g₁ ∧
        collectOutputs policy scope references g₁ = .ok (others, g') ∧
        collected = (reference, x) :: others) ∨
      scope.lookup (Source.Reference.parse reference).tensorName = none ∧ policy = .skip ∧
        collectOutputs policy scope references g = .ok (collected, g') := by
  rw [collectOutputs.eq_def]
  dsimp only
  cases scope.lookup (Source.Reference.parse reference).tensorName with
  | some x =>
    simp only [bind_eq_ok, mapError_eq_ok, Prod.exists, pure_eq_ok, Except.ok.injEq, Prod.mk.injEq]
    constructor
    · rintro ⟨g₁, hadd, others, _, hrest, rfl, rfl⟩
      exact .inl ⟨x, g₁, others, rfl, hadd, hrest, rfl⟩
    · rintro (⟨_, g₁, others, hx, hadd, hrest, rfl⟩ | ⟨hx, -, -⟩)
      · obtain rfl := Option.some.inj hx
        exact ⟨g₁, hadd, others, g', hrest, rfl, rfl⟩
      · cases hx
  | none => cases policy <;> simp

/-- What is collected is in scope. -/
theorem lookup_of_collectOutputs {references : List String} {collected : List (String × Lowered)}
    (h : collectOutputs policy scope references g = .ok (collected, g')) : g.Alike g' ∧
      ∀ output ∈ collected,
        scope.lookup (Source.Reference.parse output.1).tensorName = some output.2 := by
  induction references generalizing g collected with
  | nil =>
    obtain ⟨rfl, rfl⟩ := Prod.mk.inj (Except.ok.inj h)
    exact ⟨.refl g, by simp⟩
  | cons reference references ih =>
    rcases collectOutputs_cons_eq_ok.mp h with ⟨x, g₁, others, hx, hadd, hrest, rfl⟩ | ⟨-, -, hrest⟩
    · obtain ⟨halike, hothers⟩ := ih hrest
      exact ⟨(Graph.alike_of_addOutput hadd).trans halike, List.forall_mem_cons.mpr ⟨hx, hothers⟩⟩
    · exact ih hrest

end TensorLowering.Lowering
