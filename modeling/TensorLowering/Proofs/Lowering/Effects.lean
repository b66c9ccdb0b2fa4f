import TensorLowering.Proofs.Dataflow.Appending
import TensorLowering.Proofs.Lowering.Answers
import TensorLowering.Proofs.Lowering.Resolution

/-!
# What lowering does to the graph

The rules of the library add operations other than parameters and do nothing else to the graph
(`Rule.Adds`), in whatever graph they are run and whatever tensors they are given.

* Lowering a node appends to the graph, whether it fails or not, and so does a run over any number
  of nodes. The parameters of a model are therefore those of the inputs (`lowering_appends`).
* A node that is rejected, for any reason but one that the graph gives, leaves the graph as it was
  (`lowering_atomic`).
-/

namespace TensorLowering

theorem Op.IsEmitted.not_isParameter {marks : Prop} {op : Op} (h : op.IsEmitted marks) :
    ¬op.IsParameter := by
  rintro ⟨_, _, _, rfl⟩
  exact h

namespace Lowering

open Dataflow (ValueId Graph Folding)

/-- The rule adds operations of one kind to the graph, and does nothing else to it. -/
def Rule.Adds (S : Op → Prop) (rule : Rule) : Prop :=
  ∀ (node : ResolvedNode) (b : Builder), b.graph.Grows S ((rule.lower node).exec b).2.graph

theorem Rule.Adds.imp {S S' : Op → Prop} {rule : Rule} (h : rule.Adds S) (hS : ∀ op, S op → S' op) :
    rule.Adds S' :=
  fun node b => (h node b).imp hS

theorem adds_standard : Registry.standard.All (Rule.Adds fun op => ¬op.IsParameter) :=
  (checksFirst_standard True).imp fun _ h node b =>
    (h node b (fun _ _ _ => trivial) fun _ => trivial).grows.imp fun _ hop => hop.not_isParameter

variable {registry : Registry} {policy : OnFailure} {options : Options} {source : Source.Graph}
  {scope : Scope} {g g' g'' : Graph} {node : Source.Node} {progress last : Progress}

/-! ## Nodes -/

theorem grows_of_exec {S : Op → Prop} (hrules : registry.All (Rule.Adds S)) {rule : Rule}
    (hrule : registry.find? node.opType = some rule) {inputs : List Lowered}
    {outcome : Except Error (List Lowered)} {builder : Builder}
    (hexec : (rule.lower ⟨node, inputs⟩).exec ⟨g, node.name, node.opType, 0⟩ = (outcome, builder)) :
    g.Grows S builder.graph := by
  have hgrows := hrules.of_find? hrule ⟨node, inputs⟩ ⟨g, node.name, node.opType, 0⟩
  rwa [hexec] at hgrows

theorem appended_nameOutputs {outputs : List Lowered} (hg : g.Appended g')
    (h : nameOutputs g.nodes.size node outputs g' = .ok g'') : g.Appended g'' := by
  refine of_foldlM (P := g.Appended) (fun before output after ih _ hstep => ?_) hg h
  dsimp only at hstep
  split at hstep
  · exact ih.rename ‹_› (mapError_eq_ok.mp hstep)
  · obtain rfl := Except.ok.inj hstep
    exact ih

/-- Lowering a node appends, also where it fails. -/
theorem appended_lowerNode (hrules : registry.All (Rule.Adds fun op => ¬op.IsParameter))
    (scope : Scope) (g : Graph) (node : Source.Node) :
    g.Appended (lowerNode registry scope g node).2 := by
  have houtcome := nodeOutcome registry scope g node
  generalize lowerNode registry scope g node = result at houtcome
  cases houtcome with
  | unresolved _ => exact .refl g
  | unknown _ _ => exact .refl g
  | failed _ hrule hexec => exact .of_grows (fun _ hop => hop) (grows_of_exec hrules hrule hexec)
  | unnamed _ hrule hexec _ =>
    exact .of_grows (fun _ hop => hop) (grows_of_exec hrules hrule hexec)
  | lowered _ hrule hexec hnamed =>
    have happended := Graph.Appended.of_grows (fun _ hop => hop) (grows_of_exec hrules hrule hexec)
    exact appended_nameOutputs happended hnamed

theorem appended_step (hrules : registry.All (Rule.Adds fun op => ¬op.IsParameter))
    (h : progress.step registry policy node = .ok last) : progress.graph.Appended last.graph := by
  have happended := appended_lowerNode hrules progress.scope progress.graph node
  unfold Progress.step at h
  split at h
  · rename_i hl
    obtain rfl := Except.ok.inj h
    rwa [hl] at happended
  · rename_i hl
    split at h
    · cases h
    · obtain rfl := Except.ok.inj h
      rwa [hl] at happended

/-- So does a run over nodes, from any state on. -/
theorem appended_foldlM (hrules : registry.All (Rule.Adds fun op => ¬op.IsParameter))
    {nodes : List Source.Node}
    (h : nodes.foldlM (Progress.step registry policy) progress = .ok last) :
    progress.graph.Appended last.graph :=
  of_foldlM (P := fun last : Progress => progress.graph.Appended last.graph)
    (fun _ _ _ ih _ hs => ih.trans (appended_step hrules hs)) (.refl _) h

/-! ## Rejected nodes -/

/-- No rule of the library adds anything before all of its checks have passed, whatever the inputs
are: unless the graph rejects something, it is the same after an error. So it is after lowering a
node that fails, in any graph and with any tensors in scope. -/
theorem lowering_atomic :
    (∀ entry ∈ Registry.standard.entries,
      ∀ (node : ResolvedNode) (b c : Builder) (e : Error),
        (entry.2.lower node).exec b = (.error e, c) → (∀ cause, e ≠ b.error cause) →
        c.graph = b.graph) ∧
    ∀ (scope : Scope) (g g' : Graph) (node : Source.Node) (e : Error),
      lowerNode .standard scope g node = (.error e, g') →
      (∀ cause, e ≠ .node node.name node.opType (.target cause)) → g' = g := by
  have hatomic : Registry.standard.All fun rule => ∀ (node : ResolvedNode) (b c : Builder) e,
      (rule.lower node).exec b = (.error e, c) → (∀ cause, e ≠ b.error cause) →
      c.graph = b.graph := by
    refine (checksFirst_standard True).imp fun rule h node b c e hexec he => ?_
    have hanswers := h node b (fun _ _ _ => trivial) fun _ => trivial
    rw [Answers, hexec] at hanswers
    rcases hanswers.error e rfl with ⟨cause, hcause⟩ | ⟨-, hsame⟩
    · exact absurd hcause (he cause)
    · exact hsame
  refine ⟨hatomic, fun scope g g' node e hl he => ?_⟩
  have houtcome := nodeOutcome .standard scope g node
  rw [hl] at houtcome
  cases houtcome with
  | unresolved _ => rfl
  | unknown _ _ => rfl
  | failed _ hrule hexec => exact hatomic.of_find? hrule _ _ _ _ hexec he
  | unnamed _ _ _ hnamed =>
    obtain ⟨cause, hcause⟩ := (nameOutputs_fails _ node _ _).of_error e hnamed
    exact absurd hcause (he cause)

/-- A sum of a complex and a plain tensor; it is rejected. -/
def mixedSum : Source.Node :=
  ⟨"mixed", "Add", ["z", "x"], []⟩

/-- A selection by integers; it fails after it has added operations. -/
def countedChoice : Source.Node :=
  ⟨"chosen", "Select", ["k", "x", "x"], []⟩

/-- Two nodes that fail, and two that do not. -/
def halfway : Source.Graph where
  inputs := [⟨"z", .complex64, .fixed [2]⟩, ⟨"x", .f32, .fixed [2]⟩, ⟨"k", .i64, .fixed [2]⟩]
  nodes := [mixedSum, countedChoice, passing "same" "z", ⟨"sum", "Add", ["same", "z"], []⟩]
  outputs := ["mixed", "sum"]

/-- The sum that is rejected leaves the graph of the inputs as it was. -/
theorem halfway_atomic : ∃ scope g, addInputs {} halfway.inputs = .ok (scope, g) ∧
    g.nodes.size = 4 ∧
    lowerNode .standard scope g mixedSum =
      (.error (.node "mixed" "Add" (.complexInput (.someOf 1 2))), g) := by
  have hrun : (addInputs {} halfway.inputs).map (fun result => (result.2.nodes.size,
      (lowerNode .standard result.1 result.2 mixedSum).1)) =
        .ok (4, .error (.node "mixed" "Add" (.complexInput (.someOf 1 2)))) := by decide +kernel
  obtain ⟨⟨scope, g⟩, hi, hrun⟩ := map_eq_ok.mp hrun
  obtain ⟨hsize, herror⟩ := Prod.mk.inj hrun
  obtain ⟨g', hl⟩ : ∃ g', lowerNode .standard scope g mixedSum =
      (.error (.node "mixed" "Add" (.complexInput (.someOf 1 2))), g') := ⟨_, Prod.ext herror rfl⟩
  obtain rfl := lowering_atomic.2 scope g g' _ _ hl (by simp)
  exact ⟨scope, g', hi, hsize, hl⟩

/-! ## Parameters -/

/-- The parameters of the graph are those of the inputs, in their order and under their names. -/
structure Declares (inputs : List Source.Input) (g : Graph) : Prop where
  listed : List.Forall₂ (fun input id => ∃ node elementType shape, g.nodes[id]? = some node ∧
    node.name = input.name ∧ node.op = .parameter input.name elementType shape)
    inputs g.parameters
  nodup : g.parameters.Nodup
  all : ∀ id node, g.nodes[id]? = some node → node.op.IsParameter → id ∈ g.parameters

namespace Declares

variable {inputs : List Source.Input} {input : Source.Input}

theorem empty (fold : Folding) : Declares [] { fold := fold } where
  listed := .nil
  nodup := .nil
  all _ _ hnode := by simp at hnode

theorem lt_size (h : Declares inputs g) {id : ValueId} (hid : id ∈ g.parameters) :
    id < g.nodes.size := by
  obtain ⟨_, -, _, _, _, hnode, -⟩ := exists_of_forall₂_right h.listed hid
  exact (Array.getElem?_eq_some_iff.mp hnode).1

/-- The graph has the same parameters after nodes were appended. -/
theorem of_appended (h : Declares inputs g) (hg : g.Appended g') : Declares inputs g' where
  listed := by
    rw [hg.parameters]
    refine (forall₂_and_right h.listed fun id hid => h.lt_size hid).imp fun _ id hx => ?_
    rw [hg.nodes id hx.2]
    exact hx.1
  nodup := hg.parameters ▸ h.nodup
  all id node hnode hop := by
    rw [hg.parameters]
    rcases Nat.lt_or_ge id g.nodes.size with hlt | hge
    · exact h.all id node (hg.nodes id hlt ▸ hnode) hop
    · exact absurd hop (hg.added id node hge hnode)

/-- A parameter of the name of the input is that of the input. -/
theorem addParameter (h : Declares inputs g) {e : ElementType} {shape : PartialShape} {id : ValueId}
    (hp : g.addParameter input.name e shape = .ok (id, g')) :
    Declares (inputs ++ [input]) g' := by
  obtain ⟨⟨_, after⟩, hadd, hp⟩ := bind_eq_ok.mp hp
  obtain ⟨rfl, rfl⟩ := Prod.mk.inj (Except.ok.inj hp)
  obtain ⟨_, _, _, -, -, -, -, rfl, rfl⟩ := Graph.add_eq_ok.mp hadd
  constructor
  case listed =>
    refine List.rel_append ?_ (.cons ⟨_, _, _, Array.getElem?_push_size, rfl, rfl⟩ .nil)
    refine (forall₂_and_right h.listed fun id hid => h.lt_size hid).imp fun _ id hx => ?_
    obtain ⟨⟨node, e, shape, hnode, hx⟩, hlt⟩ := hx
    refine ⟨node, e, shape, ?_, hx⟩
    rw [Graph.push_nodes, Array.getElem?_push_lt hlt, ← Array.getElem?_eq_getElem hlt, hnode]
  case nodup =>
    refine List.nodup_append.mpr ⟨h.nodup, List.pairwise_singleton _ _, fun id hid id' hid' => ?_⟩
    rw [List.mem_singleton.mp hid']
    exact Nat.ne_of_lt (h.lt_size hid)
  case all =>
    intro id node hnode hop
    rw [Graph.push_nodes, Array.getElem?_push] at hnode
    split at hnode
    · exact List.mem_append_right _ (List.mem_singleton.mpr ‹_›)
    · exact List.mem_append_left _ (h.all id node hnode hop)

/-- The mark of a complex input is no parameter. -/
theorem addInput (h : Declares inputs g) {x : Lowered} (hx : addInput g input = .ok (x, g')) :
    Declares (inputs ++ [input]) g' := by
  cases addInput_eq_ok.mp hx with
  | real _ _ hparameter => exact h.addParameter hparameter
  | complex _ _ hparameter hmark =>
    refine (h.addParameter hparameter).of_appended (.of_add ?_ hmark)
    rintro ⟨_, _, _, hop⟩
    cases hop

theorem addInputs (h : addInputs { fold := options.fold } inputs = .ok (scope, g)) :
    Declares inputs g := by
  induction inputs using List.reverseRecOn generalizing scope g with
  | nil =>
    obtain ⟨-, rfl⟩ := Prod.mk.inj (Except.ok.inj h)
    exact .empty _
  | append_singleton inputs input ih =>
    obtain ⟨_, _, _, _, hi, hx, hr⟩ := addInputs_concat.mp h
    obtain ⟨-, rfl⟩ := Prod.mk.inj hr
    exact (ih hi).addInput hx

/-- Marking outputs leaves nodes and parameters alone. -/
theorem collectOutputs (h : Declares inputs g) {references : List String}
    {collected : List (String × Lowered)}
    (hc : collectOutputs policy scope references g = .ok (collected, g')) : Declares inputs g' := by
  induction references generalizing g collected with
  | nil =>
    obtain ⟨-, rfl⟩ := Prod.mk.inj (Except.ok.inj hc)
    exact h
  | cons reference references ih =>
    rcases collectOutputs_cons_eq_ok.mp hc with ⟨x, g₁, _, -, hadd, hrest, -⟩ | ⟨-, -, hrest⟩
    · obtain ⟨_, -, hadd⟩ := bind_eq_ok.mp hadd
      obtain rfl := Except.ok.inj hadd
      have hmarked : Declares inputs { g with outputs := g.outputs ++ [x.value] } :=
        ⟨h.listed, h.nodup, h.all⟩
      exact ih hmarked hrest
    · exact ih h hrest

end Declares

/-- Whatever the graph and the tensors in scope are, lowering a node with the rules of the library
only appends nodes that are no parameters, whether the node fails or not; so does a run over any
number of nodes. If a source graph is lowered, the parameters are those of its inputs. -/
theorem lowering_appends :
    (∀ (scope : Scope) (g : Graph) (node : Source.Node),
      g.Appended (lowerNode .standard scope g node).2) ∧
    (∀ (policy : OnFailure) (nodes : List Source.Node) (progress last : Progress),
      nodes.foldlM (Progress.step .standard policy) progress = .ok last →
      progress.graph.Appended last.graph) ∧
    ∀ (options : Options) (source : Source.Graph) (model : Model),
      lowerGraph .standard options source = .ok model → Declares source.inputs model.graph := by
  refine ⟨appended_lowerNode adds_standard,
    fun _ _ _ _ => appended_foldlM adds_standard, fun options source model h => ?_⟩
  obtain ⟨-, order, last, collected, g, -, hlast, hcollect, rfl⟩ := lowerGraph_eq_ok.mp h
  obtain ⟨⟨scope, g₀⟩, hi, hnodes⟩ := bind_eq_ok.mp hlast
  have hdeclares := (Declares.addInputs hi).of_appended (appended_foldlM adds_standard hnodes)
  exact hdeclares.collectOutputs hcollect

/-- Two nodes fail, one of them with operations added; the parameters are those of the inputs. -/
theorem halfway_appends : ∃ model, lowerGraph .standard ⟨.skip, {}⟩ halfway = .ok model ∧
    model.failures.map (·.node) = ["chosen", "mixed"] ∧ model.graph.parameters = [0, 2, 3] ∧
    Declares halfway.inputs model.graph := by
  have hrun : (lowerGraph .standard ⟨.skip, {}⟩ halfway).map (fun model =>
      (model.failures.map (·.node), model.graph.parameters)) =
        .ok (["chosen", "mixed"], [0, 2, 3]) := by decide +kernel
  obtain ⟨model, hm, hrun⟩ := map_eq_ok.mp hrun
  obtain ⟨hfailures, hparameters⟩ := Prod.mk.inj hrun
  exact ⟨model, hm, hfailures, hparameters, lowering_appends.2.2 _ _ _ hm⟩

end Lowering

end TensorLowering
