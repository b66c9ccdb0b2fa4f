import TensorLowering.Proofs.Dataflow.Sameness
import TensorLowering.Proofs.Lowering.Invariant
import TensorLowering.Proofs.Lowering.Matching
import TensorLowering.Proofs.Lowering.Resolution
import TensorLowering.Proofs.Source.Order

/-!
# Nodes that are lowered alike

Two graphs that are built by the same rules are coupled by the values that come about in them in the
same way (`sameness`). A node whose inputs came about in the same way is lowered alike in both
(`lowerNode_matches`). In particular it is lowered like itself; so the tensors in scope are in the
graph, which is only ever extended (`placed_of_abort`). A run that does not abort lowers each of its
nodes (`lowers_of_abort`).
-/

namespace TensorLowering.Lowering

open Dataflow (ValueId Graph)

/-! ## The coupling -/

/-- The values that come about in the same way. -/
def samePairs (g g' : Graph) : Pairs :=
  {pair | g.Same g' pair.1 pair.2}

/-- Both graphs are built by the same rules. -/
structure Alongside (g g' : Graph) : Prop where
  left : g.WellFormed
  right : g'.WellFormed
  fold : g.fold = g'.fold

/-- Runs on values that come about in the same way. -/
def sameness : Coupling where
  states := fun b b' => Alongside b.graph b'.graph
  values := samePairs
  mono := fun he he' _ hp => Graph.Same.mono hp he he'
  elementType := fun _ hp he => (Graph.Same.elementType hp).symm.trans he
  emit := by
    intro b b' op inputs inputs' id c hs hin he
    rw [Build.exec_emit] at he
    split at he
    · rename_i id' g hadd
      obtain ⟨hid, rfl⟩ := Prod.mk.inj he
      obtain rfl := Except.ok.inj hid
      obtain ⟨id', g', hadd', hsame⟩ := Graph.Same.add (b'.nextName op) hin hs.fold hadd
      refine ⟨id', { b' with counter := b'.counter + 1, graph := g' }, ?_, ?_, hsame⟩
      · rw [Build.exec_emit, hadd']
      · exact ⟨hs.left.add hadd, hs.right.add hadd',
          (Graph.fold_of_add hadd).trans (hs.fold.trans (Graph.fold_of_add hadd').symm)⟩
    · cases he

theorem sameness_exact : sameness.Exact where
  shape := fun _ hp hs => (Graph.Same.shape hp).symm.trans hs
  contents := fun _ hp => Graph.Same.contents hp

/-! ## Tensors of both runs -/

/-- The values of the tensor are in the graph. -/
structure Lowered.IsIn (g : Graph) (lowered : Lowered) : Prop where
  value : lowered.value < g.nodes.size
  elements : lowered.elements < g.nodes.size

variable {g g' h h' : Graph}

theorem Lowered.IsIn.mono {x : Lowered} (hx : x.IsIn g) (he : g.Extends h) : x.IsIn h :=
  ⟨Nat.lt_of_lt_of_le hx.value he.size_le, Nat.lt_of_lt_of_le hx.elements he.size_le⟩

theorem Lowered.IsIn.matches_self {x : Lowered} (hx : x.IsIn g) (hg : g.WellFormed) :
    x.Matches (samePairs g g) x := by
  cases x with
  | plain id => exact .plain (.refl hg hx.value)
  | complex value => exact .complex ⟨.refl hg hx.value, .refl hg hx.elements, rfl⟩

theorem Lowered.Matches.isIn_left {x x' : Lowered} (hx : x.Matches (samePairs g g') x') :
    x.IsIn g :=
  ⟨Graph.Same.lt_left hx.value, Graph.Same.lt_left hx.elements⟩

theorem Lowered.Matches.isIn_right {x x' : Lowered} (hx : x.Matches (samePairs g g') x') :
    x'.IsIn g' :=
  ⟨Graph.Same.lt_right hx.value, Graph.Same.lt_right hx.elements⟩

/-- What matched later on matches as soon as it is there. -/
theorem Lowered.Matches.restrict {x x' : Lowered} (hx : x.Matches (samePairs h g') x')
    (he : g.Extends h) (hg : g.WellFormed) (hin : x.IsIn g) : x.Matches (samePairs g g') x' := by
  cases hx with
  | plain hx => exact .plain (Graph.Same.restrict hx he hg hin.value)
  | complex hx =>
    exact .complex ⟨Graph.Same.restrict hx.marker he hg hin.value,
      Graph.Same.restrict hx.packed he hg hin.elements, hx.partType⟩

/-! ## One node -/

variable {registry : Registry} {scope scope' : Scope} {node node' : Source.Node}
  {outputs : List Lowered}

theorem resolveInputs_matches {V : Pairs} (hn : node.Agrees node')
    (hscope : ∀ ref ∈ node.dataInputs, ∀ x, scope.lookup ref.tensorName = some x →
      ∃ x', scope'.lookup ref.tensorName = some x' ∧ x.Matches V x') {inputs : List Lowered}
    (hi : resolveInputs scope node = .ok inputs) :
    ∃ inputs', resolveInputs scope' node' = .ok inputs' ∧
      List.Forall₂ (Lowered.Matches V) inputs inputs' := by
  rw [resolveInputs_eq] at hi ⊢
  rw [← hn.dataInputs]
  refine mapM_mono (R := fun ref ref' => ref = ref' ∧ ref ∈ node.dataInputs)
    (List.forall₂_same.mpr fun ref hr => ⟨rfl, hr⟩) ?_ hi
  rintro ref _ x ⟨rfl, hr⟩ hx
  obtain ⟨x', hx', hm⟩ := hscope ref hr x (resolve_eq_ok.mp hx)
  exact ⟨x', resolve_eq_ok.mpr hx', hm⟩

/-- A node is lowered alike where its inputs came about in the same way. -/
theorem lowerNode_matches (hrules : registry.All (Rule.Couples sameness)) (hg : Alongside g g')
    (hn : node.Agrees node')
    (hscope : ∀ ref ∈ node.dataInputs, ∀ x, scope.lookup ref.tensorName = some x →
      ∃ x', scope'.lookup ref.tensorName = some x' ∧ x.Matches (samePairs g g') x')
    (hl : lowerNode registry scope g node = (.ok outputs, h)) :
    ∃ outputs' h', lowerNode registry scope' g' node' = (.ok outputs', h') ∧ Alongside h h' ∧
      g.Extends h ∧ g'.Extends h' ∧
      List.Forall₂ (Lowered.Matches (samePairs h h')) outputs outputs' := by
  obtain ⟨inputs, rule, c, hi, hr, hexec, hname⟩ := lowerNode_eq_ok.mp hl
  obtain ⟨inputs', hi', hinputs⟩ := resolveInputs_matches hn hscope hi
  have hmatches : (ResolvedNode.mk node inputs).Matches (samePairs g g') ⟨node', inputs'⟩ :=
    ⟨hn.opType, hn.attributes, hinputs⟩
  obtain ⟨outputs', c', W, hexec', hc, hgc, hgc', hW, hout⟩ := hrules.of_find? hr _ _ _ hmatches
    ⟨g, node.name, node.opType, 0⟩ ⟨g', node'.name, node'.opType, 0⟩ hg subset_rfl outputs c hexec
  have hout := hout.imp fun _ _ hm => hm.mono hW
  obtain ⟨h', hname'⟩ := exists_nameOutputs g'.nodes.size node' fun output' ho => by
    obtain ⟨output, -, hm⟩ := exists_of_forall₂_right hout ho
    exact hm.isIn_right.value
  have halike := alike_of_nameOutputs hname
  have halike' := alike_of_nameOutputs hname'
  have hl' := lowerNode_eq_ok.mpr ⟨inputs', rule, c', hi', hn.opType ▸ hr, hexec', hname'⟩
  refine ⟨outputs', h', hl', ⟨hc.left.of_alike halike, hc.right.of_alike halike', ?_⟩,
    hgc.trans halike.forth, hgc'.trans halike'.forth, hout.imp fun _ _ hm => ?_⟩
  · exact halike.forth.fold.trans (hc.fold.trans halike'.forth.fold.symm)
  · exact hm.mono fun _ hp => Graph.Same.mono hp halike.forth halike'.forth

/-! ## One run -/

variable {options : Options} {source : Source.Graph} {progress last : Progress}

/-- Tensors in scope are in a well-formed graph. -/
def placement : Invariant where
  holds := Graph.WellFormed
  good := fun g lowered => lowered.IsIn g
  alike := fun hg h => hg.of_alike h
  mono := fun _ _ he hx => hx.mono he

theorem placement_addInput (hg : g.WellFormed) {input : Source.Input} {x : Lowered}
    (h : addInput g input = .ok (x, g')) : g'.WellFormed ∧ g.Extends g' ∧ x.IsIn g' := by
  cases addInput_eq_ok.mp h with
  | real _ _ hparameter =>
    have hlt := (Graph.has_of_addParameter hparameter).lt_size
    exact ⟨hg.addParameter hparameter, .addParameter hparameter, hlt, hlt⟩
  | complex _ _ hparameter hmark =>
    have hpacked := (Graph.has_of_addParameter hparameter).mono (.add hmark)
    exact ⟨(hg.addParameter hparameter).add hmark,
      (Graph.Extends.addParameter hparameter).trans (.add hmark),
      (Graph.has_of_add hmark).lt_size, hpacked.lt_size⟩

/-- A node that is lowered next to itself shows that its outputs are in the graph. -/
theorem placement_step (hrules : registry.All (Rule.Couples sameness))
    (hp : placement.Holds progress.graph progress.scope)
    (hs : progress.step registry .abort node = .ok last) :
    placement.Holds last.graph last.scope ∧ progress.graph.Extends last.graph := by
  obtain ⟨outputs, g, hl, rfl⟩ := step_abort_eq_ok.mp hs
  obtain ⟨outputs', g', hl', hg, hgrows, -, hout⟩ := lowerNode_matches hrules
    ⟨hp.graph, hp.graph, rfl⟩ (.refl node)
    (fun ref _ x hx => ⟨x, hx, Lowered.IsIn.matches_self (hp.good_of_lookup hx) hp.graph⟩) hl
  refine ⟨(hp.extend hg.left hgrows).record node fun output ho => ?_, hgrows⟩
  obtain ⟨output', -, hm⟩ := exists_of_forall₂_left hout ho
  exact hm.isIn_left

theorem placement_foldlM (hrules : registry.All (Rule.Couples sameness))
    (hp : placement.Holds progress.graph progress.scope) {nodes : List Source.Node}
    (h : nodes.foldlM (Progress.step registry .abort) progress = .ok last) :
    placement.Holds last.graph last.scope ∧ progress.graph.Extends last.graph := by
  refine of_foldlM (P := fun last : Progress => placement.Holds last.graph last.scope ∧
    progress.graph.Extends last.graph) (fun before node after ih _ hs => ?_) ⟨hp, .refl _⟩ h
  obtain ⟨hafter, he⟩ := placement_step hrules ih.1 hs
  exact ⟨hafter, ih.2.trans he⟩

variable {nodes : List Source.Node}

theorem placement_addInputs {fold : Dataflow.Folding} {inputs : List Source.Input}
    (h : addInputs { fold := fold } inputs = .ok (scope, g)) : placement.Holds g scope :=
  .addInputs (fun _ _ _ _ _ hg ha => placement_addInput hg ha) (fun _ _ h => by simp at h) h

theorem placement_progressAfter (hrules : registry.All (Rule.Couples sameness))
    (hpolicy : options.policy = .abort)
    (h : progressAfter registry options source nodes = .ok progress) :
    placement.Holds progress.graph progress.scope := by
  obtain ⟨⟨scope, g⟩, hi, h⟩ := bind_eq_ok.mp h
  rw [hpolicy] at h
  exact (placement_foldlM hrules (placement_addInputs hi) h).1

/-- At every point of the run over the nodes, tensors in scope are in a well-formed graph, which is
extended from there on. -/
structure Placed (registry : Registry) (options : Options) (source : Source.Graph)
    (nodes : List Source.Node) (last : Progress) : Prop where
  run : progressAfter registry options source nodes = .ok last
  holds : ∀ {before after : List Source.Node} {first : Progress}, nodes = before ++ after →
    progressAfter registry options source before = .ok first →
    placement.Holds first.graph first.scope ∧ first.graph.Extends last.graph

/-- The run over the nodes comes to this one and lowers it. -/
inductive Lowers (registry : Registry) (options : Options) (source : Source.Graph)
    (nodes : List Source.Node) : Source.Node → Prop where
  | intro {before after : List Source.Node} {node : Source.Node} {first : Progress}
      {outputs : List Lowered} {g : Graph} : nodes = before ++ node :: after →
      progressAfter registry options source before = .ok first →
      lowerNode registry first.scope first.graph node = (.ok outputs, g) →
      Lowers registry options source nodes node

/-- The graph after a node that was lowered is extended from there on. -/
theorem Placed.extends {before after : List Source.Node} {g : Graph}
    (h : Placed registry options source (before ++ node :: after) last)
    (hp : progressAfter registry options source before = .ok progress)
    (hl : lowerNode registry progress.scope progress.graph node = (.ok outputs, g)) :
    g.Extends last.graph := by
  have hnext := progressAfter_concat.mpr
    ⟨progress, hp, show progress.step registry options.policy node = _ by rw [Progress.step, hl]⟩
  have hs : before ++ node :: after = before ++ [node] ++ after := by
    rw [List.append_assoc, List.singleton_append]
  exact (h.holds hs hnext).2

theorem placed_of_abort (hrules : registry.All (Rule.Couples sameness))
    (hpolicy : options.policy = .abort)
    (h : progressAfter registry options source nodes = .ok last) :
    Placed registry options source nodes last := by
  refine ⟨h, fun {before after first} hs hfirst => ?_⟩
  obtain ⟨_, hfirst', hrest⟩ := progressAfter_append.mp (hs ▸ h)
  obtain rfl := Except.ok.inj (hfirst.symm.trans hfirst')
  have hplaced := placement_progressAfter hrules hpolicy hfirst
  exact ⟨hplaced, (placement_foldlM hrules hplaced (hpolicy ▸ hrest)).2⟩

/-- A run that does not abort lowers each of its nodes at some point. -/
theorem lowers_of_abort (hpolicy : options.policy = .abort)
    (h : progressAfter registry options source nodes = .ok last) (hn : node ∈ nodes) :
    Lowers registry options source nodes node := by
  obtain ⟨before, after, rfl⟩ := List.append_of_mem hn
  obtain ⟨first, hfirst, hrest⟩ := progressAfter_append.mp h
  rw [hpolicy, List.foldlM_cons] at hrest
  obtain ⟨_, hs, -⟩ := bind_eq_ok.mp hrest
  obtain ⟨_, _, hl, -⟩ := step_abort_eq_ok.mp hs
  exact ⟨rfl, hfirst, hl⟩

end TensorLowering.Lowering
