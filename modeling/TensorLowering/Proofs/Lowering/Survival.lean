import TensorLowering.Proofs.Lowering.Policies
import TensorLowering.Proofs.Lowering.Reordering
import TensorLowering.Proofs.Lowering.Scope
import TensorLowering.Proofs.Source.Deletion

/-!
# What is left when nodes fail

Where failures are skipped, every node is accounted for: it is recorded once, or its outputs are in
scope (`accounts`). A node that was lowered refers to no node that failed (`Lowers.not_failed`), so
the source graph without the failed nodes is complete in itself (`readable_survivors`). On its own
it is lowered to a model that agrees, although its nodes come in another order and its values have
other numbers; the operations that failing nodes left behind do not matter
(`survivors_undisturbed`).
-/

namespace TensorLowering.Lowering

open Dataflow (ValueId Graph Folding)

variable {registry : Registry} {options : Options} {fold : Folding} {source : Source.Graph}
  {g : Graph} {node : Source.Node} {nodes before after : List Source.Node}
  {first last : Progress} {outputs : List Lowered} {e : Error}

/-! ## Runs of the library's rules -/

/-- A tensor that is tagged as the graph has it is in the graph. -/
theorem Lowered.Tagged.isIn {marks : Prop} {x : Lowered} (hx : x.Tagged marks g)
    (hg : g.WellFormed) : x.IsIn g := by
  cases x with
  | plain value =>
    obtain ⟨_, _, hhas, -⟩ := hx
    exact ⟨hhas.lt_size, hhas.lt_size⟩
  | complex value =>
    have hlt := hx.2.lt_size
    obtain ⟨node, hnode, -, hinputs⟩ := hx.2
    have hpacked := hg.input_lt hnode (hinputs ▸ List.mem_singleton.mpr rfl)
    exact ⟨hlt, Nat.lt_trans hpacked hlt⟩

/-- Whatever the policy, all tensors in scope are placed and the graph is only ever extended. -/
theorem placed_standard (h : progressAfter .standard options source nodes = .ok last) :
    Placed .standard options source nodes last := by
  refine ⟨h, fun {before after first} hs hfirst => ?_⟩
  obtain ⟨_, hfirst', hrest⟩ := progressAfter_append.mp (hs ▸ h)
  obtain rfl := Except.ok.inj (hfirst.symm.trans hfirst')
  have htagged := tagging_progressAfter hfirst
  exact ⟨⟨htagged.graph.1, fun entry hentry => (htagged.scope entry hentry).isIn htagged.graph.1⟩,
    (appended_foldlM adds_standard hrest).toExtends⟩

/-! ## Failures -/

/-- What became of a node that was tried, with this result. If it failed, it is recorded once and no
tensor is in scope under the names of its outputs. Otherwise it is not recorded, and the tensors
that are in scope under these names are its outputs. -/
def Progress.Accounts (last : Progress) (node : Source.Node) :
    Except Error (List Lowered) → Prop
  | .error e => last.failures.filter (·.node == node.name) = [⟨node.name, node.opType, e⟩] ∧
      ∀ index, last.scope.lookup (node.outputName index) = none
  | .ok outputs => last.failures.filter (·.node == node.name) = [] ∧ outputs ≠ [] ∧
      ∀ index, last.scope.lookup (node.outputName index) = outputs[index]?

/-- A failure that has the name of none of the nodes is not one of theirs. -/
theorem filter_failures_eq_nil {failures : List Failure}
    (hsub : (failures.map (·.node)).Sublist (nodes.map (·.name)))
    (hnot : node.name ∉ nodes.map (·.name)) : failures.filter (·.node == node.name) = [] := by
  refine List.filter_eq_nil_iff.mpr fun failure hf he => hnot ?_
  rw [← eq_of_beq he]
  exact hsub.subset (List.mem_map_of_mem hf)

theorem failures_progressAfter (h : progressAfter registry ⟨.skip, fold⟩ source nodes = .ok last) :
    (last.failures.map (·.node)).Sublist (nodes.map (·.name)) := by
  obtain ⟨⟨scope, g⟩, -, h⟩ := bind_eq_ok.mp h
  obtain ⟨added, hadded, hsub⟩ := exists_failures_foldlM h
  rw [hadded, List.nil_append]
  exact hsub

/-- The names of nodes differ, so the failures of the name of a node are those of the node. -/
theorem filter_failures (h : Readable source (before ++ node :: after))
    (hfirst : progressAfter registry ⟨.skip, fold⟩ source before = .ok first)
    (hlast : progressAfter registry ⟨.skip, fold⟩ source (before ++ node :: after) = .ok last) :
    last.failures.filter (·.node == node.name) =
      match (lowerNode registry first.scope first.graph node).1 with
      | .ok _ => []
      | .error e => [⟨node.name, node.opType, e⟩] := by
  have hnodup := (List.nodup_append.mp h.nodup).2.1
  rw [List.map_append, List.map_cons] at hnodup
  obtain ⟨-, hafter, hbefore⟩ := List.nodup_append.mp hnodup
  obtain ⟨_, hfirst', hrest⟩ := progressAfter_append.mp hlast
  obtain rfl := Except.ok.inj (hfirst.symm.trans hfirst')
  rw [List.foldlM_cons] at hrest
  obtain ⟨next, hs, hrest⟩ := bind_eq_ok.mp hrest
  obtain ⟨added, hadded, hsub⟩ := exists_failures_foldlM hrest
  have hearlier := filter_failures_eq_nil (failures_progressAfter hfirst)
    fun hin => hbefore _ hin _ List.mem_cons_self rfl
  have hlater := filter_failures_eq_nil hsub (List.nodup_cons.mp hafter).1
  rw [hadded, List.filter_append, hlater, List.append_nil]
  rcases step_skip_eq_ok.mp hs with ⟨_, _, hl, rfl⟩ | ⟨e, _, hl, rfl⟩
  · rw [hl]
    exact hearlier
  · rw [hl, List.filter_append, hearlier, List.nil_append]
    simp

/-- A node is lowered exactly if no failure has its name. -/
theorem lowers_iff (h : Readable source nodes)
    (hlast : progressAfter registry ⟨.skip, fold⟩ source nodes = .ok last) (hnode : node ∈ nodes) :
    Lowers registry ⟨.skip, fold⟩ source nodes node ↔ node.name ∉ last.failures.map (·.node) := by
  have hiff : node.name ∉ last.failures.map (·.node) ↔
      last.failures.filter (·.node == node.name) = [] := by
    simp [List.filter_eq_nil_iff]
  rw [hiff]
  constructor
  · rintro ⟨rfl, hfirst, hl⟩
    rw [filter_failures h hfirst hlast, hl]
  · intro hnone
    obtain ⟨before, after, rfl⟩ := List.append_of_mem hnode
    obtain ⟨first, hfirst, -⟩ := progressAfter_append.mp hlast
    rw [filter_failures h hfirst hlast] at hnone
    rcases hl : lowerNode registry first.scope first.graph node with ⟨e | outputs, g⟩
    · rw [hl] at hnone
      cases hnone
    · exact ⟨rfl, hfirst, hl⟩

/-- What was produced is an input or comes from a node that did not fail. -/
theorem Produces.not_failed {o : Origin} (ho : Produces registry ⟨.skip, fold⟩ source nodes o)
    (h : Readable source nodes)
    (hlast : progressAfter registry ⟨.skip, fold⟩ source nodes = .ok last) :
    o.name ∉ last.failures.map (·.node) := by
  obtain ⟨-, -, hdisjoint⟩ := List.nodup_append.mp h.nodup
  cases ho with
  | input hs _ _ =>
    exact fun hin => hdisjoint _ (hs ▸ by simp) _ ((failures_progressAfter hlast).subset hin) rfl
  | output hs hfirst hl _ => exact (lowers_iff h hlast (hs ▸ by simp)).mp ⟨hs, hfirst, hl⟩

/-- What a node that was lowered refers to did not fail. -/
theorem Lowers.not_failed (hlow : Lowers registry ⟨.skip, fold⟩ source nodes node)
    (h : Readable source nodes)
    (hlast : progressAfter registry ⟨.skip, fold⟩ source nodes = .ok last) {ref : Source.Reference}
    (hr : ref ∈ node.dataInputs) : ref.node ∉ last.failures.map (·.node) := by
  obtain ⟨rfl, hfirst, hl⟩ := hlow
  obtain ⟨inputs, _, _, hi, -⟩ := lowerNode_eq_ok.mp hl
  obtain ⟨x, hx⟩ := exists_resolveInputs_eq_ok.mp ⟨inputs, hi⟩ ref hr
  have hproduced :=
    (h.lookup_iff (List.prefix_append _ _) hfirst (h.mem_names (by simp) hr)).mp hx
  exact (hproduced.append _).not_failed h hlast

/-- Every node of a run of the library's rules is accounted for. -/
theorem accounts (h : Readable source (before ++ node :: after))
    (hfirst : progressAfter .standard ⟨.skip, fold⟩ source before = .ok first)
    (hlast : progressAfter .standard ⟨.skip, fold⟩ source (before ++ node :: after) = .ok last) :
    last.Accounts node (lowerNode .standard first.scope first.graph node).1 := by
  have hfilter := filter_failures h hfirst hlast
  have hnamed : node.name ∈ source.names := h.mem_names_iff.mpr (by simp)
  have hlookup : ∀ index x, last.scope.lookup (node.outputName index) = some x ↔
      Produces .standard ⟨.skip, fold⟩ source (before ++ node :: after) ⟨node.name, index, x⟩ :=
    fun index _ => h.lookup_iff List.prefix_rfl hlast
      (show (Source.Reference.mk node.name index false).node ∈ source.names from hnamed)
  rcases hl : lowerNode .standard first.scope first.graph node with ⟨e | outputs, g⟩
  · rw [hl] at hfilter
    refine ⟨hfilter, fun index => Option.eq_none_iff_forall_ne_some.mpr fun x hx => ?_⟩
    obtain ⟨_, _, hl', -⟩ := h.of_produces hfirst ((hlookup index x).mp hx) rfl
    cases hl.symm.trans hl'
  · rw [hl] at hfilter
    refine ⟨hfilter, ?_, fun index => Option.ext fun x => (hlookup index x).trans ?_⟩
    · obtain ⟨output, rfl⟩ := exists_of_lowerNode_eq_ok (tagging_progressAfter hfirst) hl
      exact List.cons_ne_nil _ _
    · refine ⟨fun ho => ?_, fun hindex => .output rfl hfirst hl hindex⟩
      obtain ⟨_, _, hl', hindex⟩ := h.of_produces hfirst ho rfl
      obtain rfl := Except.ok.inj (Prod.mk.inj (hl.symm.trans hl')).1
      exact hindex

/-! ## The survivors -/

/-- The source graph without the nodes that failed, all control dependencies on them and the outputs
that were not produced. -/
def Model.survivors (model : Model) (source : Source.Graph) : Source.Graph :=
  source.without (model.failures.map (·.node)) (model.outputs.map (·.1))

/-- The survivors need nothing that failed. -/
theorem readable_survivors (h : Readable source nodes)
    (hlast : progressAfter registry ⟨.skip, fold⟩ source nodes = .ok last) {kept : List String}
    (hkept : ∀ reference ∈ kept, last.scope.finds reference = true) :
    ∃ nodes', Readable (source.without (last.failures.map (·.node)) kept) nodes' := by
  obtain ⟨order, ho, -⟩ := h.sorted
  obtain ⟨hvalid, -, houtputs⟩ := Source.Graph.validate_eq_ok.mp h.valid
  have hnodup := (List.nodup_append.mp hvalid.1).2.1
  obtain ⟨order', ho'⟩ := Source.Graph.exists_topologicalOrder_without hnodup ho
    (last.failures.map (·.node)) kept
  refine ⟨_, Source.Graph.validate_without h.valid (fun node hn hnot ref hr => ?_)
    (fun reference href hk => ?_), ⟨order', ho', rfl⟩, fun name hn => ?_⟩
  · have hlow := (lowers_iff h hlast (h.mem_iff.mpr hn)).mpr hnot
    exact hlow.not_failed h hlast hr
  · obtain ⟨x, hx⟩ := Option.isSome_iff_exists.mp (hkept reference hk)
    have hproduced := (h.lookup_iff List.prefix_rfl hlast (houtputs reference href).2).mp hx
    exact hproduced.not_failed h hlast
  · exact h.no_colon name ((Source.Graph.names_without source _ kept).1.subset hn)

/-- The outputs that survive are those that were collected. -/
theorem outputs_survivors {scope : Scope} {collected : List (String × Lowered)}
    (hmap : collected.map (·.1) = source.outputs.filter scope.finds) (failed : List String) :
    (source.without failed (collected.map (·.1))).outputs = source.outputs.filter scope.finds := by
  rw [hmap]
  refine List.filter_congr fun reference href => Bool.eq_iff_iff.mpr ?_
  simp [List.mem_filter, href]

/-- The survivors are lowered on their own, to a model whose outputs came about in the same way. -/
theorem exists_model_survivors {model : Model} (hc : ∀ name ∈ source.names, ':' ∉ name.toList)
    (hm : lowerGraph .standard ⟨.skip, fold⟩ source = .ok model) :
    ∃ model', lowerGraph .standard ⟨.abort, fold⟩ (model.survivors source) = .ok model' ∧
      Alongside model.graph model'.graph ∧ List.Forall₂ (fun output output' =>
        output.1 = output'.1 ∧ output.2.Matches (samePairs model.graph model'.graph) output'.2)
        model.outputs model'.outputs := by
  obtain ⟨hv, order, last, collected, g, ho, hlast, hcollect, rfl⟩ := lowerGraph_eq_ok.mp hm
  have h : Readable source (source.ordered order) := ⟨hv, ⟨order, ho, rfl⟩, hc⟩
  rw [collectOutputs_skip] at hcollect
  obtain ⟨hmap, hfinds⟩ := map_fst_of_collectOutputs_abort hcollect
  obtain ⟨nodes', h'⟩ := readable_survivors h hlast (hmap ▸ hfinds)
  have houtputs := outputs_survivors hmap (last.failures.map (·.node))
  -- The survivors are lowered in the first run, so a second run gets through them.
  obtain ⟨last', hcovers, hnone⟩ := exists_covers (couples_standard sameness_exact)
    (placed_standard hlast) h h' rfl fun node' hn' => by
      obtain ⟨node, hn, hnot, rfl⟩ := Source.Graph.mem_nodes_without.mp (h'.mem_iff.mp hn')
      have hlow := (lowers_iff h hlast (h.mem_iff.mpr hn)).mpr hnot
      exact ⟨node, hlow, node.agrees_without _⟩
  obtain ⟨collected', g', hcollect', hout⟩ := collectOutputs_matches (fun reference href x hx =>
    hcovers.lookup_output h h' hlast (List.mem_filter.mp href).1 (houtputs ▸ href) hx) hcollect
  obtain ⟨order', ho', hs'⟩ := h'.sorted
  have halike := (lookup_of_collectOutputs hcollect).1
  have halike' := (lookup_of_collectOutputs hcollect').1
  have hgraphs := hcovers.graphs
  refine ⟨⟨g', collected', last'.failures⟩, lowerGraph_eq_ok.mpr ⟨h'.valid, order', last',
    collected', g', ho', ?_, houtputs ▸ hcollect', rfl⟩, ?_, hout⟩
  · exact hs' ▸ progressAfter_abort_of_skip hcovers.run hnone
  · exact ⟨hgraphs.left.of_alike halike, hgraphs.right.of_alike halike',
      halike.forth.fold.trans (hgraphs.fold.trans halike'.forth.fold.symm)⟩

/-- Nodes that are skipped do not disturb the others. If no name in a source graph has a colon and
it is lowered by the rules of the library, skipping failures, then:

* every node is accounted for: from the state at which it was tried, it failed and is recorded once,
  or its outputs are in scope at the end;
* a node with a data reference to a node that failed has failed itself;
* the survivors are lowered on their own, aborting on failures, to a model that agrees: its outputs
  go by the same references, are plain or complex alike and evaluate to the same tensors, marks of
  complex tensors included. -/
theorem survivors_undisturbed {model : Model} (hc : ∀ name ∈ source.names, ':' ∉ name.toList)
    (hm : lowerGraph .standard ⟨.skip, fold⟩ source = .ok model) :
    (∃ order last, source.topologicalOrder = .ok order ∧
      progressAfter .standard ⟨.skip, fold⟩ source (source.ordered order) = .ok last ∧
      model.failures = last.failures ∧
      ∀ node ∈ source.nodes, ∃ before after first,
        source.ordered order = before ++ node :: after ∧
        progressAfter .standard ⟨.skip, fold⟩ source before = .ok first ∧
        last.Accounts node (lowerNode .standard first.scope first.graph node).1) ∧
    (∀ node ∈ source.nodes, ∀ ref ∈ node.dataInputs,
      ref.node ∈ model.failures.map (·.node) → node.name ∈ model.failures.map (·.node)) ∧
    ∃ model', lowerGraph .standard ⟨.abort, fold⟩ (model.survivors source) = .ok model' ∧
      model.Agrees model' ∧ List.Forall₂ (fun output output' => ∀ feeds vs,
        model.graph.evaluate feeds [output.2.value] = .ok vs ↔
          model'.graph.evaluate feeds [output'.2.value] = .ok vs) model.outputs model'.outputs := by
  obtain ⟨model', hm', hg, hout⟩ := exists_model_survivors hc hm
  have hagrees : model.Agrees model' := hout.imp fun _ _ hx =>
    ⟨hx.1, hx.2.partType, evaluate_eq_ok_of_same hg.left hg.right hx.2.elements⟩
  have hmarks := hout.imp fun _ _ hx => evaluate_eq_ok_of_same hg.left hg.right hx.2.value
  obtain ⟨hv, order, last, _, _, ho, hlast, -, rfl⟩ := lowerGraph_eq_ok.mp hm
  have h : Readable source (source.ordered order) := ⟨hv, ⟨order, ho, rfl⟩, hc⟩
  refine ⟨⟨order, last, ho, hlast, rfl, fun node hn => ?_⟩, fun node hn ref hr hfailed => ?_,
    model', hm', hagrees, hmarks⟩
  · obtain ⟨before, after, hs⟩ := List.append_of_mem (h.mem_iff.mpr hn)
    obtain ⟨first, hfirst, -⟩ := progressAfter_append.mp (hs ▸ hlast)
    exact ⟨before, after, first, hs, hfirst, accounts (hs ▸ h) hfirst (hs ▸ hlast)⟩
  · by_contra hnot
    have hlow := (lowers_iff h hlast (h.mem_iff.mpr hn)).mpr hnot
    exact hlow.not_failed h hlast hr hfailed

/-- A selection that fails, a node that passes it on, and a sum that is to come after it. -/
def abandoned : Source.Graph where
  inputs := halfway.inputs
  nodes := [⟨"sum", "Add", ["same", "z", "^chosen"], []⟩, passing "copy" "chosen", countedChoice,
    passing "same" "z"]
  outputs := ["copy", "sum"]

/-- The sum that is left has another number where it is lowered on its own, and means the same. -/
theorem abandoned_undisturbed : ∃ model model',
    lowerGraph .standard ⟨.skip, {}⟩ abandoned = .ok model ∧
    model.failures.map (·.node) = ["chosen", "copy"] ∧
    model.survivors abandoned = ⟨halfway.inputs,
      [⟨"sum", "Add", ["same", "z"], []⟩, passing "same" "z"], ["sum"]⟩ ∧
    lowerGraph .standard ⟨.abort, {}⟩ (model.survivors abandoned) = .ok model' ∧
    model.outputs ≠ model'.outputs ∧ model.Agrees model' := by
  have hrun : (lowerGraph .standard ⟨.skip, {}⟩ abandoned).map (fun model =>
      (model.failures.map (·.node), model.outputs)) =
        .ok (["chosen", "copy"], [("sum", .complex ⟨26, 25, .f32⟩)]) := by decide +kernel
  obtain ⟨model, hm, hrun⟩ := map_eq_ok.mp hrun
  obtain ⟨hfailures, houtputs⟩ := Prod.mk.inj hrun
  obtain ⟨-, -, model', hm', hagrees, -⟩ := survivors_undisturbed (by decide +kernel) hm
  have hleft : model.survivors abandoned = ⟨halfway.inputs,
      [⟨"sum", "Add", ["same", "z"], []⟩, passing "same" "z"], ["sum"]⟩ := by
    rw [Model.survivors, hfailures, houtputs]
    decide +kernel
  have hrun' : (lowerGraph .standard ⟨.abort, {}⟩ ⟨halfway.inputs,
      [⟨"sum", "Add", ["same", "z"], []⟩, passing "same" "z"], ["sum"]⟩).map (·.outputs) =
        .ok [("sum", .complex ⟨17, 16, .f32⟩)] := by decide +kernel
  rw [← hleft, hm'] at hrun'
  have houtputs' : model'.outputs = [("sum", .complex ⟨17, 16, .f32⟩)] := Except.ok.inj hrun'
  refine ⟨model, model', hm, hfailures, hleft, hm', ?_, hagrees⟩
  rw [houtputs, houtputs']
  decide

end TensorLowering.Lowering
