import TensorLowering.Proofs.Dataflow.Representation
import TensorLowering.Proofs.Lowering.Answers
import TensorLowering.Proofs.Lowering.Resolution

/-!
# Tags agree with the graph

A lowered tensor carries whether it is plain or complex. That can also be read off the graph, and at
every point of a run of the library's rules both say the same (`tensors_classified`). The invariant
behind it (`tagging`) has a second side: where neither an input nor a node brings in complex numbers,
no complex mark comes about at all (`lowerGraph_real`).
-/

namespace TensorLowering.Lowering

open Dataflow (ValueId Graph Folding)

variable {marks : Prop} {g g' : Graph} {options : Options} {source : Source.Graph}

/-! ## The invariant -/

/-- Tensors are tagged as the graph has them, and there are complex marks only where marks may be. -/
def tagging (marks : Prop) : Invariant where
  holds := fun g => g.WellFormed ∧
    ∀ id partType inputs, g.Has id (.complexMark partType) inputs → marks
  good := fun g x => x.Tagged marks g
  alike := fun h ha => ⟨h.1.of_alike ha, fun _ _ _ hm => h.2 _ _ _ (hm.mono ha.back)⟩
  mono := fun _ _ he hx => hx.mono he

theorem tagging_of_grows (h : (tagging marks).holds g) (hg : g.Grows (Op.IsEmitted marks) g') :
    (tagging marks).holds g' :=
  ⟨hg.wellFormed h.1, fun id partType inputs hm =>
    (hg.has_or hm).elim (h.2 id partType inputs) fun hmarks => hmarks⟩

theorem tagging_keptOn {rule : Rule} (h : rule.Answers marks) :
    (tagging marks).KeptOn (fun node => node.MakesComplex → marks) rule := by
  intro node b hnode hb hin
  have hanswers := h node b hin hnode
  refine ⟨hanswers.grows.toExtends, tagging_of_grows hb hanswers.grows, fun outputs ho => ?_⟩
  obtain ⟨output, rfl, htagged⟩ := hanswers.post outputs ho
  exact List.forall_mem_singleton.mpr htagged

theorem tagging_standard (marks : Prop) : Registry.standard.All
    ((tagging marks).KeptOn fun node => node.MakesComplex → marks) :=
  (answers_standard marks).imp fun _ => tagging_keptOn

theorem tagging_empty (fold : Folding) : (tagging marks).holds { fold := fold } :=
  ⟨(Graph.Reachable.empty fold).wellFormed, fun _ _ _ h => by simpa using h.lt_size⟩

theorem tagging_addParameter {name : String} {e : ElementType} {shape : PartialShape} {id : ValueId}
    (hg : (tagging marks).holds g) (h : g.addParameter name e shape = .ok (id, g')) :
    (tagging marks).holds g' := by
  obtain ⟨after, hadd, halike⟩ := Graph.exists_of_addParameter h
  refine (tagging marks).alike ⟨hg.1.add hadd, fun id partType inputs hm => ?_⟩ halike
  rcases Graph.Has.of_add hadd hm with hm | ⟨-, hop, -⟩
  · exact hg.2 id partType inputs hm
  · cases hop

/-- A real input is a parameter, and a complex one a mark before a parameter. -/
theorem tagging_addInput {input : Source.Input} (hmarks : input.dtype.isComplex = true → marks)
    {x : Lowered} (hg : (tagging marks).holds g) (h : addInput g input = .ok (x, g')) :
    (tagging marks).holds g' ∧ g.Extends g' ∧ x.Tagged marks g' := by
  cases addInput_eq_ok.mp h with
  | real _ _ hparameter =>
    exact ⟨tagging_addParameter hg hparameter, .addParameter hparameter,
      _, _, Graph.has_of_addParameter hparameter, rfl⟩
  | @complex _ _ _ _ g₁ _ hpart _ hparameter hmark =>
    have hmarks : marks := hmarks (by rw [Source.DataType.isComplex, hpart]; rfl)
    have hgrows : g₁.Grows (Op.IsEmitted marks) g' := .add .refl (by exact hmarks) hmark
    exact ⟨tagging_of_grows (tagging_addParameter hg hparameter) hgrows,
      (Graph.Extends.addParameter hparameter).trans hgrows.toExtends, hmarks,
      Graph.has_of_add hmark⟩

/-! ## Every point of a run -/

theorem tagging_addInputs {inputs : List Source.Input} {scope : Scope}
    (h : addInputs { fold := options.fold } inputs = .ok (scope, g)) :
    (tagging True).Holds g scope :=
  .addInputs (fun _ _ _ _ _ => tagging_addInput fun _ => trivial) (tagging_empty _) h

theorem tagging_progressAfter {nodes : List Source.Node} {progress : Progress}
    (h : progressAfter .standard options source nodes = .ok progress) :
    (tagging True).Holds progress.graph progress.scope := by
  obtain ⟨⟨scope, g⟩, hi, h⟩ := bind_eq_ok.mp h
  exact (tagging_addInputs hi).foldlM (tagging_standard True) (fun _ _ _ => trivial) h

/-- The tag of the tensor is what the graph says of its value. A plain tensor is not the result of a
complex mark; a complex one has its packed tensor and part type from its mark, and the part type is a
float type and the element type of the packed tensor. -/
structure Lowered.Classified (g : Graph) (x : Lowered) : Prop where
  classify : Lowered.classify g x.value = .ok x
  unmarked : ∀ id, x = .plain id → ∀ node, g.nodes[id]? = some node → node.op.isComplexMark = false
  marked : ∀ value, x = .complex value →
    g.Has value.marker (.complexMark value.partType) [value.packed] ∧
      g.elementType value.packed = .ok value.partType ∧ value.partType.isFloat = true

/-- A mark has parts of a float type, the element type of what it marks. -/
theorem elementType_of_marked (hg : g.WellFormed) {id packed : ValueId} {partType : ElementType}
    (h : g.Has id (.complexMark partType) [packed]) :
    g.elementType packed = .ok partType ∧ partType.isFloat = true := by
  obtain ⟨node, hnode, hop, hinputs⟩ := h
  obtain ⟨packed', hinputs', hmarked⟩ := hg.marked hnode hop
  obtain rfl := List.singleton_inj.mp (hinputs.symm.trans hinputs')
  exact hmarked

theorem Lowered.Tagged.classified {x : Lowered} (hx : x.Tagged marks g) (hg : g.WellFormed) :
    x.Classified g where
  classify := hx.classify
  unmarked := by
    rintro id rfl node hnode
    obtain ⟨_, _, ⟨node', hnode', rfl, -⟩, hop⟩ := hx
    rwa [Option.some.inj (hnode.symm.trans hnode')]
  marked := by
    rintro value rfl
    exact ⟨hx.2, elementType_of_marked hg hx.2⟩

/-- At every point of a run, whatever its policy and options for folding, the tag of every tensor is
what the graph says: after some of the inputs were added, after nodes were tried and while operations
are added for the next one, and in the outputs of the model. -/
theorem tensors_classified (options : Options) (source : Source.Graph) :
    (∀ inputs scope g, inputs <+: source.inputs →
      addInputs { fold := options.fold } inputs = .ok (scope, g) →
      ∀ entry ∈ scope, entry.2.Classified g) ∧
    (∀ nodes progress, progressAfter .standard options source nodes = .ok progress →
      ∀ g, progress.graph.Grows (fun _ => True) g →
        ∀ entry ∈ progress.scope, entry.2.Classified g) ∧
    ∀ model, lowerGraph .standard options source = .ok model →
      ∀ output ∈ model.outputs, output.2.Classified model.graph := by
  refine ⟨fun inputs scope g _ h entry hentry => ?_, fun nodes progress h g hg entry hentry => ?_,
    fun model h output hout => ?_⟩
  · have hinv := tagging_addInputs h
    exact (hinv.scope entry hentry).classified hinv.graph.1
  · have hinv := tagging_progressAfter h
    exact ((hinv.scope entry hentry).mono hg.toExtends).classified (hg.wellFormed hinv.graph.1)
  · have hinv := (tagging True).of_lowerGraph_on (tagging_standard True) (fun _ _ _ => trivial)
      (fun _ _ _ _ _ => tagging_addInput fun _ => trivial) (tagging_empty _) h
    exact (hinv.scope output hout).classified hinv.graph.1

/-- A complex sum that is passed on, and its real plane. -/
def passedSum : Source.Graph where
  inputs := [⟨"z", .complex64, .fixed [3]⟩]
  nodes := [⟨"re", "Real", ["same"], []⟩, passing "same" "sum", ⟨"sum", "Add", ["z", "z"], []⟩]
  outputs := ["same", "re"]

theorem passedSum_classified : ∃ model, lowerGraph .standard {} passedSum = .ok model ∧
    model.outputs = [("same", .complex ⟨15, 14, .f32⟩), ("re", .plain 18)] ∧
    ∀ output ∈ model.outputs, output.2.Classified model.graph := by
  have hout : (lowerGraph .standard {} passedSum).map (·.outputs) =
      .ok [("same", .complex ⟨15, 14, .f32⟩), ("re", .plain 18)] := by decide +kernel
  cases hm : lowerGraph .standard {} passedSum with
  | error e => rw [hm] at hout; cases hout
  | ok model =>
    rw [hm] at hout
    exact ⟨model, rfl, Except.ok.inj hout, (tensors_classified {} passedSum).2.2 model hm⟩

/-! ## Real graphs -/

/-- No input is complex, and no node makes a complex tensor of real ones or embeds one. -/
structure RealOnly (source : Source.Graph) : Prop where
  inputs : ∀ input ∈ source.inputs, input.dtype.isComplex = false
  nodes : ∀ node ∈ source.nodes, ¬node.MakesComplex

/-- What is real throughout is lowered without complex marks, whatever the policy and the options for
folding; not even a node that failed leaves one behind. All outputs are plain. -/
theorem lowerGraph_real {model : Model} (hreal : RealOnly source)
    (h : lowerGraph .standard options source = .ok model) :
    (∀ (id : ValueId) node, model.graph.nodes[id]? = some node → node.op.isComplexMark = false) ∧
      ∀ output ∈ model.outputs, output.2.isComplex = false := by
  have hinv := (tagging False).of_lowerGraph_on (tagging_standard False) hreal.nodes
    (fun input hi _ _ _ => tagging_addInput fun hcomplex => by
      rw [hreal.inputs input hi] at hcomplex
      cases hcomplex) (tagging_empty _) h
  constructor
  · intro id node hnode
    cases hop : node.op with
    | complexMark partType => exact (hinv.graph.2 id partType _ ⟨node, hnode, hop, rfl⟩).elim
    | _ => rfl
  · intro output hout
    have htagged := hinv.scope output hout
    cases hx : output.2 with
    | plain value => rfl
    | complex value =>
      rw [hx] at htagged
      exact htagged.1.elim

/-- A real graph of which a node fails after it has added operations. -/
def spoiled : Source.Graph where
  inputs := [⟨"x", .f32, .fixed [2]⟩, ⟨"k", .i64, .fixed [2]⟩]
  nodes := [⟨"chosen", "Select", ["k", "x", "x"], []⟩, ⟨"im", "Imag", ["x"], []⟩]
  outputs := ["chosen", "im"]

theorem spoiled_real : RealOnly spoiled ∧ ∃ model,
    lowerGraph .standard ⟨.skip, {}⟩ spoiled = .ok model ∧
    model.failures.map (·.node) = ["chosen"] ∧ model.outputs.map (·.1) = ["im"] ∧
    (∀ (id : ValueId) node, model.graph.nodes[id]? = some node → node.op.isComplexMark = false) ∧
    ∀ output ∈ model.outputs, output.2.isComplex = false := by
  have hreal : RealOnly spoiled :=
    ⟨by decide, by simp [spoiled, Source.Node.MakesComplex]⟩
  have hrun : (lowerGraph .standard ⟨.skip, {}⟩ spoiled).map (fun model =>
      (model.failures.map (·.node), model.outputs.map (·.1))) =
        .ok (["chosen"], ["im"]) := by decide +kernel
  cases hm : lowerGraph .standard ⟨.skip, {}⟩ spoiled with
  | error e => rw [hm] at hrun; cases hrun
  | ok model =>
    rw [hm] at hrun
    obtain ⟨hfailures, houtputs⟩ := Prod.mk.inj (Except.ok.inj hrun)
    exact ⟨hreal, model, rfl, hfailures, houtputs, lowerGraph_real hreal hm⟩

end TensorLowering.Lowering
