import TensorLowering.Proofs.Lowering.Alongside
import TensorLowering.Proofs.Lowering.Tagging

/-!
# What is in scope

Every rule of the library returns one tensor, so a run that does not abort brings exactly one tensor
into scope for each input and each node, under its name (`keys_of_progressAfter`). In a valid graph
whose references are all to first outputs, each of them therefore finds a tensor, and lowering fails
at a node or not at all (`lowerGraph_finds`).
-/

namespace TensorLowering.Lowering

open Dataflow (Graph Folding)
open Source (Reference)

variable {g g' : Graph} {scope : Scope} {node : Source.Node} {nodes : List Source.Node}
  {source : Source.Graph} {fold : Folding} {progress : Progress}

/-! ## Names -/

theorem exists_lookup {name : String} (h : name ∈ scope.map (·.1)) :
    ∃ x, scope.lookup name = some x := by
  obtain ⟨entry, hentry, rfl⟩ := List.mem_map.mp h
  cases hl : scope.lookup entry.1 with
  | some x => exact ⟨x, rfl⟩
  | none => simpa using List.lookup_eq_none_iff.mp hl entry hentry

theorem keys_of_addInputs {inputs : List Source.Input}
    (h : addInputs g inputs = .ok (scope, g')) :
    scope.map (·.1) = (inputs.map (·.name)).reverse := by
  induction inputs using List.reverseRecOn generalizing scope g' with
  | nil =>
    obtain ⟨rfl, -⟩ := Prod.mk.inj (Except.ok.inj h)
    rfl
  | append_singleton inputs input ih =>
    obtain ⟨before, _, _, _, hi, -, hr⟩ := addInputs_concat.mp h
    obtain ⟨rfl, -⟩ := Prod.mk.inj hr
    rw [List.map_cons, ih hi, List.map_append, List.reverse_append]
    rfl

theorem answers_of_find? (hinv : (tagging True).Holds g scope) {inputs : List Lowered} {rule : Rule}
    (hi : resolveInputs scope node = .ok inputs)
    (hrule : Registry.standard.find? node.opType = some rule) :
    Answers True ⟨node, inputs⟩ ⟨g, node.name, node.opType, 0⟩ (rule.lower ⟨node, inputs⟩)
      (OneTagged True) :=
  (answers_standard True).of_find? hrule _ _ (hinv.good_of_resolveInputs hi) fun _ => trivial

/-- Where tensors are tagged as the graph has them, a node that is lowered has one output. -/
theorem exists_of_lowerNode_eq_ok (hinv : (tagging True).Holds g scope) {outputs : List Lowered}
    (hl : lowerNode .standard scope g node = (.ok outputs, g')) : ∃ output, outputs = [output] := by
  obtain ⟨inputs, rule, builder, hi, hrule, hexec, -⟩ := lowerNode_eq_ok.mp hl
  have hanswers := answers_of_find? hinv hi hrule
  rw [Answers, hexec] at hanswers
  obtain ⟨output, ho, -⟩ := hanswers.post outputs rfl
  exact ⟨output, ho⟩

/-- One that fails does so at its references or at the node. -/
theorem of_lowerNode_eq_error (hinv : (tagging True).Holds g scope) {e : Error}
    (hl : lowerNode .standard scope g node = (.error e, g')) :
    resolveInputs scope node = .error e ∨ ∃ violation, e = .node node.name node.opType violation := by
  have houtcome := nodeOutcome .standard scope g node
  rw [hl] at houtcome
  cases houtcome with
  | unresolved hi => exact .inl hi
  | unknown _ _ => exact .inr ⟨_, rfl⟩
  | failed hi hrule hexec =>
    have hanswers := answers_of_find? hinv hi hrule
    rw [Answers, hexec] at hanswers
    rcases hanswers.error e rfl with ⟨cause, rfl⟩ | ⟨⟨violation, rfl⟩, -⟩
    · exact .inr ⟨.target cause, rfl⟩
    · exact .inr ⟨violation, rfl⟩
  | unnamed _ _ _ hnamed =>
    obtain ⟨cause, rfl⟩ := (nameOutputs_fails _ node _ _).of_error e hnamed
    exact .inr ⟨.target cause, rfl⟩

/-- There is one tensor in scope for each input and each node, the latest first. By induction on the
nodes from the last one on. -/
theorem keys_of_progressAfter
    (h : progressAfter .standard ⟨.abort, fold⟩ source nodes = .ok progress) :
    progress.scope.map (·.1) =
      (source.inputs.map (·.name) ++ nodes.map (·.name)).reverse := by
  induction nodes using List.reverseRecOn generalizing progress with
  | nil =>
    obtain ⟨scope, g, hi, rfl⟩ := progressAfter_nil.mp h
    rw [List.map_nil, List.append_nil]
    exact keys_of_addInputs hi
  | append_singleton nodes node ih =>
    obtain ⟨before, hb, hs⟩ := progressAfter_concat.mp h
    obtain ⟨outputs, g, hl, rfl⟩ := step_abort_eq_ok.mp hs
    obtain ⟨output, rfl⟩ := exists_of_lowerNode_eq_ok (tagging_progressAfter hb) hl
    rw [record_scope, List.map_append, ih hb, List.map_append, ← List.append_assoc,
      List.map_singleton, List.reverse_concat]
    rfl

/-! ## References -/

/-- Nodes and outputs refer to first outputs and inputs only. -/
structure FirstOutputsOnly (source : Source.Graph) : Prop where
  nodes : ∀ node ∈ source.nodes, ∀ ref ∈ node.dataInputs, ref.index = 0
  outputs : ∀ reference ∈ source.outputs, (Reference.parse reference).index = 0

theorem exists_lookup_tensorName {ref : Reference} (hr : ref.index = 0)
    (h : progressAfter .standard ⟨.abort, fold⟩ source nodes = .ok progress)
    (hn : ref.node ∈ source.inputs.map (·.name) ++ nodes.map (·.name)) :
    ∃ x, progress.scope.lookup ref.tensorName = some x := by
  rw [Reference.tensorName, hr, Source.outputName_zero]
  refine exists_lookup ?_
  rwa [keys_of_progressAfter h, List.mem_reverse]

section Accepted

variable {order : List Nat} (hv : source.validate = .ok ())
  (ho : source.topologicalOrder = .ok order) (hfirst : FirstOutputsOnly source)
include hv ho hfirst

theorem exists_resolveInputs {before after : List Source.Node}
    (hs : source.ordered order = before ++ node :: after)
    (h : progressAfter .standard ⟨.abort, fold⟩ source before = .ok progress) :
    ∃ inputs, resolveInputs progress.scope node = .ok inputs := by
  refine exists_resolveInputs_eq_ok.mpr fun ref hr => ?_
  have hnode : node ∈ source.nodes := (Source.Graph.mem_ordered ho).mp (hs ▸ by simp)
  exact exists_lookup_tensorName (hfirst.nodes node hnode ref hr) h
    (Source.Graph.mem_names_before hv ho hs hr)

theorem exists_lookup_output
    (h : progressAfter .standard ⟨.abort, fold⟩ source (source.ordered order) = .ok progress)
    {reference : String} (hr : reference ∈ source.outputs) :
    ∃ x, progress.scope.lookup (Reference.parse reference).tensorName = some x :=
  exists_lookup_tensorName (hfirst.outputs reference hr) h
    ((Source.Graph.mem_names_ordered ho).mp ((Source.Graph.validate_eq_ok.mp hv).2.2 _ hr).2)

end Accepted

/-! ## Errors -/

/-- The error is not about the source graph as a whole. -/
def Error.IsLocal (e : Error) : Prop :=
  ∀ cause, e ≠ .graph cause

theorem Error.isLocal_node (name opType : String) (violation : Violation) :
    (Error.node name opType violation).IsLocal :=
  fun _ h => Error.noConfusion h

theorem addInputs_fails (g : Graph) (inputs : List Source.Input) :
    FailsOnly Error.IsLocal (addInputs g inputs) := by
  refine failsOnly_foldlM_of (Q := fun _ => True) (fun _ _ input _ => ⟨?_, fun _ _ => trivial⟩)
    trivial
  refine failsOnly_bind.mpr ⟨?_, fun _ _ => failsOnly_ok _⟩
  exact failsOnly_mapError fun _ => Error.isLocal_node _ _ _

theorem collectOutputs_fails {references : List String}
    (h : ∀ reference ∈ references,
      ∃ x, scope.lookup (Reference.parse reference).tensorName = some x) :
    FailsOnly Error.IsLocal (collectOutputs .abort scope references g) := by
  induction references generalizing g with
  | nil => exact failsOnly_ok _
  | cons reference references ih =>
    rw [List.forall_mem_cons] at h
    obtain ⟨x, hx⟩ := h.1
    rw [collectOutputs, hx]
    refine failsOnly_bind.mpr ⟨failsOnly_mapError fun _ => Error.isLocal_node _ _ _, fun g _ => ?_⟩
    exact failsOnly_bind.mpr ⟨ih h.2, fun _ _ => failsOnly_ok _⟩

theorem step_abort_fails (hinv : (tagging True).Holds progress.graph progress.scope)
    (hi : ∃ inputs, resolveInputs progress.scope node = .ok inputs) :
    FailsOnly Error.IsLocal (progress.step .standard .abort node) := by
  unfold Progress.step
  split
  · exact failsOnly_ok _
  · rename_i e g hl
    obtain ⟨inputs, hi⟩ := hi
    rcases of_lowerNode_eq_error hinv hl with he | ⟨violation, rfl⟩
    · rw [hi] at he
      cases he
    · exact failsOnly_error.mpr (Error.isLocal_node _ _ _)

/-- By induction on the nodes from the last one on. -/
theorem progressAfter_fails {order : List Nat} (hv : source.validate = .ok ())
    (ho : source.topologicalOrder = .ok order) (hfirst : FirstOutputsOnly source)
    {before after : List Source.Node} (hs : source.ordered order = before ++ after) :
    FailsOnly Error.IsLocal (progressAfter .standard ⟨.abort, fold⟩ source before) := by
  induction before using List.reverseRecOn generalizing after with
  | nil =>
    exact failsOnly_bind.mpr ⟨addInputs_fails _ _, fun _ _ => failsOnly_ok _⟩
  | append_singleton before node ih =>
    rw [List.append_assoc, List.singleton_append] at hs
    rw [progressAfter_concat_eq]
    refine failsOnly_bind.mpr ⟨ih hs, fun progress h => ?_⟩
    exact step_abort_fails (tagging_progressAfter h) (exists_resolveInputs hv ho hfirst hs h)

/-- In a valid graph with a topological order whose references are all to first outputs and inputs,
every node that lowering comes to finds its inputs in scope, and in the end every output is there.
So lowering that does not skip nodes never fails with an error about the graph as a whole. -/
theorem lowerGraph_finds {order : List Nat} (hv : source.validate = .ok ())
    (ho : source.topologicalOrder = .ok order) (hfirst : FirstOutputsOnly source)
    (fold : Folding) :
    (∀ before node after progress, source.ordered order = before ++ node :: after →
      progressAfter .standard ⟨.abort, fold⟩ source before = .ok progress →
      (∀ ref ∈ node.dataInputs, ∃ x, progress.scope.lookup ref.tensorName = some x) ∧
        ∃ inputs, resolveInputs progress.scope node = .ok inputs) ∧
    (∀ last, progressAfter .standard ⟨.abort, fold⟩ source (source.ordered order) = .ok last →
      ∀ reference ∈ source.outputs,
        ∃ x, last.scope.lookup (Reference.parse reference).tensorName = some x) ∧
    ∀ cause, lowerGraph .standard ⟨.abort, fold⟩ source ≠ .error (.graph cause) := by
  refine ⟨fun before node after progress hs h => ?_,
    fun last h reference hr => exists_lookup_output hv ho hfirst h hr, fun cause hl => ?_⟩
  · have hi := exists_resolveInputs hv ho hfirst hs h
    exact ⟨exists_resolveInputs_eq_ok.mp hi, hi⟩
  · have hfails : FailsOnly Error.IsLocal (lowerGraph .standard ⟨.abort, fold⟩ source) := by
      rw [lowerGraph_eq, mapError_eq_ok.mpr hv, ok_bind, mapError_eq_ok.mpr ho, ok_bind]
      have hs : source.ordered order = source.ordered order ++ [] := (List.append_nil _).symm
      refine failsOnly_bind.mpr ⟨progressAfter_fails hv ho hfirst hs, fun last h => ?_⟩
      refine failsOnly_bind.mpr ⟨collectOutputs_fails fun reference hr => ?_, fun _ _ => ?_⟩
      · exact exists_lookup_output hv ho hfirst h hr
      · exact failsOnly_ok _
    exact hfails.of_error _ hl cause rfl

/-- A complex number times itself, in parts; the nodes are listed the wrong way round. -/
def backwards : Source.Graph where
  inputs := [⟨"z", .complex64, .fixed [2]⟩]
  nodes := [⟨"square", "Mul", ["w", "z:0"], []⟩, ⟨"w", "Complex", ["re", "im"], []⟩,
    ⟨"im", "Imag", ["z", "^re"], []⟩, ⟨"re", "Real", ["z"], []⟩]
  outputs := ["square", "im:0"]

theorem backwards_finds : backwards.validate = .ok () ∧
    backwards.topologicalOrder = .ok [3, 2, 1, 0] ∧ FirstOutputsOnly backwards ∧
    ∀ fold cause, lowerGraph .standard ⟨.abort, fold⟩ backwards ≠ .error (.graph cause) := by
  have hv : backwards.validate = .ok () := by decide +kernel
  have ho : backwards.topologicalOrder = .ok [3, 2, 1, 0] := by decide +kernel
  have hfirst : FirstOutputsOnly backwards := ⟨by decide +kernel, by decide +kernel⟩
  exact ⟨hv, ho, hfirst, fun fold => (lowerGraph_finds hv ho hfirst fold).2.2⟩

end TensorLowering.Lowering
