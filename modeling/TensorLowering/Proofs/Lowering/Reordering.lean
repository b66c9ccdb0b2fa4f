import TensorLowering.Proofs.Dataflow.Denotation
import TensorLowering.Proofs.Lowering.Alongside

/-!
# The order of the source nodes

Two graphs that differ only in the order of their nodes and in control dependencies are lowered in
different orders, which gives their values different numbers. A node of the second graph is lowered
as in the first one all the same: what it refers to came up before it in both runs, and came about in
the same way (`covers_step`). So the outputs mean the same (`lowerGraph_rearranged`).
-/

namespace TensorLowering.Lowering

open Dataflow (ValueId Graph Feeds)

variable {g g' h h' : Graph} {registry : Registry} {node node' : Source.Node}
  {outputs : List Lowered} {options : Options} {source source' : Source.Graph}
  {progress last : Progress} {nodes nodes' : List Source.Node}

/-! ## References -/

/-- A valid graph without colons in its names, and its nodes in topological order. -/
structure Readable (source : Source.Graph) (nodes : List Source.Node) : Prop where
  valid : source.validate = .ok ()
  sorted : ∃ order, source.topologicalOrder = .ok order ∧ source.ordered order = nodes
  no_colon : ∀ name ∈ source.names, ':' ∉ name.toList

namespace Readable

variable {before after : List Source.Node}

theorem nodup (h : Readable source nodes) :
    (source.inputs.map (·.name) ++ nodes.map (·.name)).Nodup := by
  obtain ⟨order, ho, rfl⟩ := h.sorted
  exact Source.Graph.nodup_names_of_validate h.valid ho

theorem mem_iff (h : Readable source nodes) : node ∈ nodes ↔ node ∈ source.nodes := by
  obtain ⟨order, ho, rfl⟩ := h.sorted
  exact Source.Graph.mem_ordered ho

theorem mem_names (h : Readable source nodes) (hn : node ∈ nodes) {ref : Source.Reference}
    (hr : ref ∈ node.dataInputs) : ref.node ∈ source.names :=
  Source.Graph.mem_names_of_dataInputs h.valid (h.mem_iff.mp hn) hr

theorem mem_names_iff (h : Readable source nodes) {name : String} :
    name ∈ source.names ↔ name ∈ source.inputs.map (·.name) ++ nodes.map (·.name) := by
  obtain ⟨order, ho, rfl⟩ := h.sorted
  exact Source.Graph.mem_names_ordered ho

/-- What a node refers to is an input or an earlier node. -/
theorem mem_earlier (h : Readable source (before ++ node :: after)) {ref : Source.Reference}
    (hr : ref ∈ node.dataInputs) :
    ref.node ∈ source.inputs.map (·.name) ++ before.map (·.name) := by
  obtain ⟨order, ho, hs⟩ := h.sorted
  exact Source.Graph.mem_names_before h.valid ho hs hr

/-- Looking up a reference finds what it names. -/
theorem lookup_iff (h : Readable source nodes) (hb : before <+: nodes)
    (hp : progressAfter registry options source before = .ok progress) {ref : Source.Reference}
    (hr : ref.node ∈ source.names) {tensor : Lowered} :
    progress.scope.lookup ref.tensorName = some tensor ↔
      Produces registry options source before ⟨ref.node, ref.index, tensor⟩ := by
  obtain ⟨after, rfl⟩ := hb
  have hnodup := h.nodup
  rw [List.map_append, ← List.append_assoc] at hnodup
  have hsource : ∀ node ∈ before, node ∈ source.nodes := fun node hn =>
    h.mem_iff.mp (List.mem_append_left _ hn)
  obtain ⟨origins, ht⟩ := exists_trace hp
  have hmeans := ht.means_of_unambiguous (List.nodup_append.mp hnodup).1 hsource ""
    (unambiguous_of_no_colon h.no_colon hr)
  have hresolve : resolve progress.scope "" ref = .ok tensor ↔ _ := resolve_eq_ok
  rw [← hresolve]
  cases hres : resolve progress.scope "" ref with
  | ok tensor' =>
    rw [hres] at hmeans
    rw [hmeans tensor, Except.ok.injEq, eq_comm]
  | error e =>
    rw [hres] at hmeans
    exact iff_of_false nofun (hmeans.2 tensor)

end Readable

/-- What was produced stays produced. -/
theorem Produces.append {o : Origin} (h : Produces registry options source nodes o)
    (more : List Source.Node) : Produces registry options source (nodes ++ more) o := by
  cases h with
  | input hs hb ha => exact .input hs hb ha
  | output hs hb hl ho => exact .output (by rw [hs, List.append_assoc, List.cons_append]) hb hl ho

/-- A tensor of the name of a node is an output that the node returned. -/
theorem Readable.of_produces {before after : List Source.Node}
    (h : Readable source (before ++ node :: after))
    (hp : progressAfter registry options source before = .ok progress) {o : Origin}
    (ho : Produces registry options source (before ++ node :: after) o)
    (hname : o.name = node.name) : ∃ outputs g,
      lowerNode registry progress.scope progress.graph node = (.ok outputs, g) ∧
        outputs[o.index]? = some o.tensor := by
  obtain ⟨-, hnodes, hdisjoint⟩ := List.nodup_append.mp h.nodup
  cases ho with
  | input hs _ _ => exact absurd hname (hdisjoint _ (hs ▸ by simp) _ (by simp))
  | output hs hb hlower hindex =>
    obtain ⟨rfl, rfl⟩ := split_unique hnodes hs rfl hname
    obtain rfl := Except.ok.inj (hb.symm.trans hp)
    exact ⟨_, _, hlower, hindex⟩

/-! ## Two runs -/

/-- The second run got through its nodes. The graphs are built by the same rules, and the inputs and
outputs of the first run that have names in the second one came about there in the same way. -/
structure Covers (registry : Registry) (options : Options) (source : Source.Graph)
    (nodes : List Source.Node) (g : Graph) (source' : Source.Graph) (nodes' : List Source.Node)
    (progress : Progress) : Prop where
  run : progressAfter registry options source' nodes' = .ok progress
  graphs : Alongside g progress.graph
  produces : ∀ o, Produces registry options source nodes o →
    o.name ∈ source'.inputs.map (·.name) ++ nodes'.map (·.name) →
      ∃ x', Produces registry options source' nodes' ⟨o.name, o.index, x'⟩ ∧
        o.tensor.Matches (samePairs g progress.graph) x'

/-- The inputs are the same from the start. -/
theorem covers_inputs (hlast : Placed registry options source nodes last)
    (h : Readable source nodes) (hr : source.inputs = source'.inputs) :
    ∃ progress, Covers registry options source nodes last.graph source' [] progress ∧
      progress.failures = [] := by
  obtain ⟨progress, hp, -⟩ := progressAfter_append.mp ((List.nil_append nodes).symm ▸ hlast.run)
  obtain ⟨hplaced, he⟩ := hlast.holds (List.nil_append nodes).symm hp
  have hlplaced := (hlast.holds (List.append_nil nodes).symm hlast.run).1
  have hp' : progressAfter registry options source' [] = .ok progress := by
    rw [progressAfter, ← hr]
    exact hp
  have hnone : progress.failures = [] := by
    obtain ⟨_, _, -, rfl⟩ := progressAfter_nil.mp hp
    rfl
  refine ⟨progress, ⟨hp', ⟨hlplaced.graph, hplaced.graph, he.fold⟩, fun o ho hname => ?_⟩, hnone⟩
  rw [List.map_nil, List.append_nil, ← hr] at hname
  cases ho with
  | output hs _ _ _ =>
    have hdisjoint := (List.nodup_append.mp h.nodup).2.2
    exact absurd rfl (hdisjoint _ hname _ (List.mem_map_of_mem (hs ▸ by simp)))
  | @input before after input scope g₀ g₁ tensor hs hb ha =>
    refine ⟨tensor, .input (hr ▸ hs) hb ha, ?_⟩
    have hproduced : Produces registry options source [] ⟨input.name, 0, tensor⟩ := .input hs hb ha
    have hnamed : (Source.Reference.mk input.name 0 false).node ∈ source.names :=
      List.mem_append_left _ hname
    have hlookup := (h.lookup_iff List.nil_prefix hp hnamed).mpr hproduced
    have hmatches := Lowered.IsIn.matches_self (hplaced.good_of_lookup hlookup) hplaced.graph
    exact hmatches.mono fun _ hs => Graph.Same.mono hs he (.refl _)

/-- What a node refers to came about in both runs in the same way. -/
theorem Covers.lookup {before after before' after' : List Source.Node} {first : Progress}
    (hcovers : Covers registry options source (before ++ node :: after) g source' before' progress)
    (h : Readable source (before ++ node :: after))
    (h' : Readable source' (before' ++ node' :: after')) (hagrees : node.Agrees node')
    (hp : progressAfter registry options source before = .ok first)
    {ref : Source.Reference} (hr : ref ∈ node.dataInputs) {x : Lowered}
    (hx : first.scope.lookup ref.tensorName = some x) :
    ∃ x', progress.scope.lookup ref.tensorName = some x' ∧
      x.Matches (samePairs g progress.graph) x' := by
  have hr' : ref ∈ node'.dataInputs := hagrees.dataInputs ▸ hr
  have hnamed := h.mem_names (by simp) hr
  have hnamed' := h'.mem_names (by simp) hr'
  have hproduced := (h.lookup_iff (List.prefix_append _ _) hp hnamed).mp hx
  obtain ⟨x', hproduced', hm⟩ := hcovers.produces _ (hproduced.append _) (h'.mem_earlier hr')
  have hlookup := (h'.lookup_iff (List.prefix_append _ _) hcovers.run hnamed').mpr hproduced'
  exact ⟨x', hlookup, hm⟩

/-- The second run goes on with a node whose outputs came about in the same way. -/
theorem Covers.concat {progress' : Progress}
    (hcovers : Covers registry options source nodes g source' nodes' progress)
    (hs : progress.step registry options.policy node' = .ok progress')
    (hg : Alongside g progress'.graph) (he : progress.graph.Extends progress'.graph)
    (hnode : ∀ o, Produces registry options source nodes o → o.name = node'.name →
      ∃ x', Produces registry options source' (nodes' ++ [node']) ⟨o.name, o.index, x'⟩ ∧
        o.tensor.Matches (samePairs g progress'.graph) x') :
    Covers registry options source nodes g source' (nodes' ++ [node']) progress' := by
  refine ⟨progressAfter_concat.mpr ⟨progress, hcovers.run, hs⟩, hg, fun o ho hname => ?_⟩
  rw [List.map_append, ← List.append_assoc, List.mem_append] at hname
  rcases hname with hname | hname
  · obtain ⟨x', hproduced, hm⟩ := hcovers.produces o ho hname
    exact ⟨x', hproduced.append _, hm.mono fun _ hs => Graph.Same.mono hs (.refl _) he⟩
  · exact hnode o ho (List.mem_singleton.mp hname)

/-- A node that comes up in the second run is lowered as in the first run: what it refers to came up
before it in both runs. -/
theorem covers_step (hrules : registry.All (Rule.Couples sameness))
    (hlast : Placed registry options source nodes last) (h : Readable source nodes)
    {before' after' : List Source.Node} (h' : Readable source' (before' ++ node' :: after'))
    (hlow : Lowers registry options source nodes node) (hagrees : node.Agrees node')
    (hcovers : Covers registry options source nodes last.graph source' before' progress) :
    ∃ progress', Covers registry options source nodes last.graph source' (before' ++ [node'])
      progress' ∧ progress'.failures = progress.failures := by
  obtain @⟨before, after, _, first, outputs, g, rfl, hfirst, hl⟩ := hlow
  obtain ⟨hplaced, hall⟩ := hlast.holds rfl hfirst
  have hlater := hlast.extends hfirst hl
  have hg := hcovers.graphs
  -- What matches at the end of the first run matched already when the node was lowered.
  obtain ⟨outputs', g', hl', hg', -, he', hout⟩ := lowerNode_matches hrules
    ⟨hplaced.graph, hg.right, hall.fold.symm.trans hg.fold⟩ hagrees (fun ref href x hx => by
      obtain ⟨x', hx', hm⟩ := hcovers.lookup h h' hagrees hfirst href hx
      exact ⟨x', hx', hm.restrict hall hplaced.graph (hplaced.good_of_lookup hx)⟩) hl
  have hstep : progress.step registry options.policy node' =
      .ok (progress.record node' outputs' g') := by
    rw [Progress.step, hl']
  have hfold : last.graph.fold = g'.fold := hg.fold.trans he'.fold.symm
  refine ⟨_, hcovers.concat hstep ⟨hg.left, hg'.right, hfold⟩ he' fun o ho hname => ?_, rfl⟩
  obtain ⟨_, _, hreturned, hindex⟩ := h.of_produces hfirst ho (hname.trans hagrees.name.symm)
  obtain rfl := Except.ok.inj (Prod.mk.inj (hreturned.symm.trans hl)).1
  obtain ⟨x', hindex', hm⟩ := getElem?_of_forall₂ hout hindex
  refine ⟨x', ?_, hm.mono fun _ hs => Graph.Same.mono hs hlater (.refl _)⟩
  rw [hname]
  exact .output rfl hcovers.run hl' hindex'

/-- Where the nodes of the second run are lowered in the first one, it gets through them without
failures. The induction is on the nodes of the second run, the last one split off; the first run is
taken as a whole all the while. -/
theorem exists_covers (hrules : registry.All (Rule.Couples sameness))
    (hlast : Placed registry options source nodes last) (h : Readable source nodes)
    (h' : Readable source' nodes') (hr : source.inputs = source'.inputs)
    (hlow : ∀ node' ∈ nodes', ∃ node, Lowers registry options source nodes node ∧
      node.Agrees node') :
    ∃ progress, Covers registry options source nodes last.graph source' nodes' progress ∧
      progress.failures = [] := by
  suffices ∀ before after, nodes' = before ++ after →
      ∃ progress, Covers registry options source nodes last.graph source' before progress ∧
        progress.failures = [] from
    this nodes' [] (List.append_nil _).symm
  intro before
  induction before using List.reverseRecOn with
  | nil => exact fun _ _ => covers_inputs hlast h hr
  | append_singleton before node' ih =>
    intro after hs
    have hs : nodes' = before ++ node' :: after := by simp [hs]
    obtain ⟨progress, hcovers, hnone⟩ := ih _ hs
    obtain ⟨node, hlow, hagrees⟩ := hlow node' (hs ▸ by simp)
    obtain ⟨progress', hcovers', hfailures⟩ :=
      covers_step hrules hlast h (hs ▸ h') hlow hagrees hcovers
    exact ⟨progress', hcovers', hfailures.trans hnone⟩

/-! ## Outputs -/

/-- The outputs of both source graphs came about in both runs in the same way. -/
theorem Covers.lookup_output (h : Readable source nodes) (h' : Readable source' nodes')
    (hlast : progressAfter registry options source nodes = .ok last)
    (hcovers : Covers registry options source nodes last.graph source' nodes' progress)
    {reference : String} (href : reference ∈ source.outputs) (href' : reference ∈ source'.outputs)
    {x : Lowered}
    (hx : last.scope.lookup (Source.Reference.parse reference).tensorName = some x) :
    ∃ x', progress.scope.lookup (Source.Reference.parse reference).tensorName = some x' ∧
      x.Matches (samePairs last.graph progress.graph) x' := by
  have hnamed := ((Source.Graph.validate_eq_ok.mp h.valid).2.2 reference href).2
  have hnamed' := ((Source.Graph.validate_eq_ok.mp h'.valid).2.2 reference href').2
  have hproduced := (h.lookup_iff List.prefix_rfl hlast hnamed).mp hx
  obtain ⟨x', hproduced', hm⟩ := hcovers.produces _ hproduced (h'.mem_names_iff.mp hnamed')
  exact ⟨x', (h'.lookup_iff List.prefix_rfl hcovers.run hnamed').mpr hproduced', hm⟩

/-- Outputs whose tensors came about in the same way are collected alike. -/
theorem collectOutputs_matches {references : List String} {scope scope' : Scope}
    {collected : List (String × Lowered)}
    (hscope : ∀ reference ∈ references, ∀ x,
      scope.lookup (Source.Reference.parse reference).tensorName = some x →
      ∃ x', scope'.lookup (Source.Reference.parse reference).tensorName = some x' ∧
        x.Matches (samePairs g g') x')
    (hc : collectOutputs .abort scope references g = .ok (collected, h)) :
    ∃ collected' h', collectOutputs .abort scope' references g' = .ok (collected', h') ∧
      List.Forall₂ (fun output output' => output.1 = output'.1 ∧
        output.2.Matches (samePairs h h') output'.2) collected collected' := by
  induction references generalizing g g' collected with
  | nil =>
    obtain ⟨rfl, -⟩ := Prod.mk.inj (Except.ok.inj hc)
    exact ⟨[], g', rfl, .nil⟩
  | cons reference references ih =>
    rw [List.forall_mem_cons] at hscope
    rcases collectOutputs_cons_eq_ok.mp hc with
      ⟨x, g₁, others, hx, hadd, hothers, rfl⟩ | ⟨-, hpolicy, -⟩
    · obtain ⟨x', hx', hm⟩ := hscope.1 x hx
      obtain ⟨g₁', hadd'⟩ := Graph.exists_addOutput hm.isIn_right.value
      have he := (Graph.alike_of_addOutput hadd).forth
      have he' := (Graph.alike_of_addOutput hadd').forth
      have hsub : samePairs g g' ⊆ samePairs g₁ g₁' := fun _ hs => Graph.Same.mono hs he he'
      obtain ⟨others', h', hothers', hrest⟩ := ih (fun reference hr y hy => by
        obtain ⟨y', hy', hm'⟩ := hscope.2 reference hr y hy
        exact ⟨y', hy', hm'.mono hsub⟩) hothers
      have hlast := (lookup_of_collectOutputs hothers).1.forth
      have hlast' := (lookup_of_collectOutputs hothers').1.forth
      have hc' := collectOutputs_cons_eq_ok.mpr (.inl ⟨x', g₁', others', hx', hadd', hothers', rfl⟩)
      refine ⟨_, h', hc', .cons ⟨rfl, ?_⟩ hrest⟩
      exact (hm.mono hsub).mono fun _ hs => Graph.Same.mono hs hlast hlast'
    · cases hpolicy

/-! ## Models -/

/-- The outputs go by the same references. Both are plain, or both are complex with parts of one
type, and evaluation returns the same for both or fails for both. -/
def Model.Agrees (model model' : Model) : Prop :=
  List.Forall₂ (fun output output' => output.1 = output'.1 ∧
    output.2.complex?.map (·.partType) = output'.2.complex?.map (·.partType) ∧
    ∀ feeds vs, model.graph.evaluate feeds [output.2.elements] = .ok vs ↔
      model'.graph.evaluate feeds [output'.2.elements] = .ok vs) model.outputs model'.outputs

theorem Lowered.Matches.partType {V : Pairs} {x x' : Lowered} (hx : x.Matches V x') :
    x.complex?.map (·.partType) = x'.complex?.map (·.partType) := by
  cases hx with
  | plain _ => rfl
  | complex hx => exact congrArg some hx.partType

/-- Values that come about in the same way evaluate alike. -/
theorem evaluate_eq_ok_of_same (hg : g.WellFormed) (hg' : g'.WellFormed) {id id' : ValueId}
    (hs : g.Same g' id id') (feeds : Feeds) (vs : List Tensor) :
    g.evaluate feeds [id] = .ok vs ↔ g'.evaluate feeds [id'] = .ok vs := by
  rw [Graph.evaluate_eq_ok hg (by simpa using hs.lt_left),
    Graph.evaluate_eq_ok hg' (by simpa using hs.lt_right)]
  simp only [List.forall₂_cons_left_iff, List.forall₂_nil_left_iff, hs.meaning hg hg' feeds]

/-- Where the first graph is lowered, the second one is, to a model that agrees. -/
theorem agrees_of_rearranges (hrules : registry.All (Rule.Couples sameness))
    (hpolicy : options.policy = .abort) (hr : source.Rearranges source')
    (hv' : source'.validate = .ok ()) (ho' : ∃ order, source'.topologicalOrder = .ok order)
    (hc : ∀ name ∈ source.names, ':' ∉ name.toList) {model : Model}
    (hm : lowerGraph registry options source = .ok model) :
    ∃ model', lowerGraph registry options source' = .ok model' ∧ model.Agrees model' := by
  obtain ⟨hv, order, last, collected, g, ho, hlast, hcollect, rfl⟩ := lowerGraph_eq_ok.mp hm
  obtain ⟨order', ho'⟩ := ho'
  have h : Readable source (source.ordered order) := ⟨hv, ⟨order, ho, rfl⟩, hc⟩
  have h' : Readable source' (source'.ordered order') :=
    ⟨hv', ⟨order', ho', rfl⟩, fun name hn => hc name (hr.names_perm.mem_iff.mpr hn)⟩
  obtain ⟨last', hcovers, -⟩ := exists_covers hrules (placed_of_abort hrules hpolicy hlast) h h'
    hr.inputs fun node' hn' => by
      obtain ⟨node, hn, hagrees⟩ := hr.exists_agrees (h'.mem_iff.mp hn')
      exact ⟨node, lowers_of_abort hpolicy hlast (h.mem_iff.mpr hn), hagrees⟩
  rw [hpolicy] at hcollect
  obtain ⟨collected', g', hcollect', hout⟩ := collectOutputs_matches (fun _ href _ hx =>
    hcovers.lookup_output h h' hlast href (hr.outputs ▸ href) hx) hcollect
  have halike := (lookup_of_collectOutputs hcollect).1
  have halike' := (lookup_of_collectOutputs hcollect').1
  have hmodel' : lowerGraph registry options source' = .ok ⟨g', collected', last'.failures⟩ :=
    lowerGraph_eq_ok.mpr ⟨hv', order', last', collected', g', ho', hcovers.run, by
      rw [hpolicy, ← hr.outputs, hcollect'], rfl⟩
  refine ⟨_, hmodel', hout.imp fun output output' hx => ⟨hx.1, hx.2.partType, ?_⟩⟩
  exact evaluate_eq_ok_of_same (hcovers.graphs.left.of_alike halike)
    (hcovers.graphs.right.of_alike halike') hx.2.elements

/-- The order in which a valid graph without colons in its names lists its nodes does not matter,
and neither do control dependencies: if failures abort, either both graphs are lowered by the rules
of the library, or none is, and the models agree. -/
theorem lowerGraph_rearranged (hr : source.Rearranges source') (hv : source.validate = .ok ())
    (hv' : source'.validate = .ok ()) (ho : ∃ order, source.topologicalOrder = .ok order)
    (ho' : ∃ order, source'.topologicalOrder = .ok order)
    (hc : ∀ name ∈ source.names, ':' ∉ name.toList) (hpolicy : options.policy = .abort) :
    ((∃ model, lowerGraph .standard options source = .ok model) ↔
      ∃ model', lowerGraph .standard options source' = .ok model') ∧
    ∀ model model', lowerGraph .standard options source = .ok model →
      lowerGraph .standard options source' = .ok model' → model.Agrees model' := by
  have hrules := couples_standard sameness_exact
  have hc' : ∀ name ∈ source'.names, ':' ∉ name.toList := fun name hn =>
    hc name (hr.names_perm.mem_iff.mpr hn)
  refine ⟨⟨fun ⟨model, hm⟩ => ?_, fun ⟨model', hm'⟩ => ?_⟩, fun model model' hm hm' => ?_⟩
  · obtain ⟨model', hm', -⟩ := agrees_of_rearranges hrules hpolicy hr hv' ho' hc hm
    exact ⟨model', hm'⟩
  · obtain ⟨model, hm, -⟩ := agrees_of_rearranges hrules hpolicy hr.symm hv ho hc' hm'
    exact ⟨model, hm⟩
  · obtain ⟨_, hm₂, hagrees⟩ := agrees_of_rearranges hrules hpolicy hr hv' ho' hc hm
    obtain rfl := Except.ok.inj (hm'.symm.trans hm₂)
    exact hagrees

/-- A complex number with its parts exchanged; the nodes are listed in order. -/
def exchange : Source.Graph where
  inputs := [⟨"z", .complex64, .fixed [2]⟩]
  nodes := [⟨"re", "Real", ["z"], []⟩, ⟨"im", "Imag", ["z"], []⟩,
    ⟨"w", "Complex", ["im", "re"], []⟩]
  outputs := ["w", "im"]

/-- The same in another order, with a control dependency that makes the real part come first. -/
def exchangeReversed : Source.Graph where
  inputs := exchange.inputs
  nodes := [⟨"w", "Complex", ["im", "^im", "re"], []⟩, ⟨"im", "Imag", ["z", "^re"], []⟩,
    ⟨"re", "Real", ["z"], []⟩]
  outputs := exchange.outputs

/-- The values have other numbers in the other model, and mean the same. -/
theorem exchange_rearranged :
    exchange.Rearranges exchangeReversed ∧ exchange.validate = .ok () ∧
    exchangeReversed.validate = .ok () ∧ (∃ order, exchange.topologicalOrder = .ok order) ∧
    (∃ order, exchangeReversed.topologicalOrder = .ok order) ∧
    (∀ name ∈ exchange.names, ':' ∉ name.toList) ∧
    ∃ model model', lowerGraph .standard {} exchange = .ok model ∧
      lowerGraph .standard {} exchangeReversed = .ok model' ∧
      model.outputs ≠ model'.outputs ∧ model.Agrees model' := by
  have hr : exchange.Rearranges exchangeReversed :=
    ⟨rfl, rfl, exchangeReversed.nodes.reverse,
      .cons (.refl _) (.cons ⟨rfl, rfl, rfl, by decide +kernel⟩
        (.cons ⟨rfl, rfl, rfl, by decide +kernel⟩ .nil)), List.reverse_perm _⟩
  have hv : exchange.validate = .ok () := by decide +kernel
  have hv' : exchangeReversed.validate = .ok () := by decide +kernel
  have ho : exchange.topologicalOrder = .ok [1, 0, 2] := by decide +kernel
  have ho' : exchangeReversed.topologicalOrder = .ok [2, 1, 0] := by decide +kernel
  have hc : ∀ name ∈ exchange.names, ':' ∉ name.toList := by decide +kernel
  obtain ⟨hiff, hagrees⟩ := lowerGraph_rearranged hr hv hv' ⟨_, ho⟩ ⟨_, ho'⟩ hc
    (rfl : ({} : Options).policy = .abort)
  have hdiffer : (lowerGraph .standard {} exchange).map (·.outputs) ≠
      (lowerGraph .standard {} exchangeReversed).map (·.outputs) := by decide +kernel
  have hok : (lowerGraph .standard {} exchange).isOk = true := by decide +kernel
  obtain ⟨model, hm⟩ : ∃ model, lowerGraph .standard {} exchange = .ok model := by
    cases hm : lowerGraph .standard {} exchange with
    | ok model => exact ⟨model, rfl⟩
    | error e => rw [hm] at hok; cases hok
  obtain ⟨model', hm'⟩ := hiff.mp ⟨model, hm⟩
  refine ⟨hr, hv, hv', ⟨_, ho⟩, ⟨_, ho'⟩, hc, model, model', hm, hm', fun he => hdiffer ?_,
    hagrees model model' hm hm'⟩
  rw [hm, hm']
  exact congrArg Except.ok he

end TensorLowering.Lowering
