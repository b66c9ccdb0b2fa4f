import TensorLowering.Proofs.Dataflow.Folding
import TensorLowering.Proofs.Lowering.Alongside

/-!
# Lowering with and without folding

The rules emit the same operations however much is known of the values, products of complex tensors
apart, which look for known axes. So a source graph that is lowered with folding is lowered without,
and the values have the same numbers in both graphs (`unfolding`).

* `Unfolds.lowerNode`: a node that is lowered with folding is lowered alike without;
* `Unfolds.progressAfter`: so the runs go through the same states, up to what is known;
* `lowerGraph_unfolded`: the models list the same nodes and outputs, and what the unfolded one
  evaluates to the folded one does.
-/

namespace TensorLowering.Lowering

open Dataflow (ValueId Graph Folding)

/-- The second graph was built by the same steps as the first one, without folding. -/
structure Unfolds (folded plain : Graph) : Prop where
  folds : folded.Folds plain
  left : folded.WellFormed
  right : plain.WellFormed

variable {folded plain folded' : Graph}

theorem Unfolds.add (h : Unfolds folded plain) {name : String} {op : Op} {inputs : List ValueId}
    {id : ValueId} (hadd : folded.add name op inputs = .ok (id, folded')) :
    ∃ plain', plain.add name op inputs = .ok (id, plain') ∧ Unfolds folded' plain' := by
  obtain ⟨plain', hadd', hf⟩ := h.folds.add h.left hadd
  exact ⟨plain', hadd', hf, h.left.add hadd, h.right.add hadd'⟩

theorem Unfolds.elementType (h : Unfolds folded plain) {id : ValueId} {e : ElementType}
    (he : folded.elementType id = .ok e) : plain.elementType id = .ok e := by
  obtain ⟨fine, hf, he⟩ := bind_eq_ok.mp he
  obtain ⟨coarse, hc, hn⟩ := h.folds.exists_node (Graph.producer_eq_ok.mp hf)
  have htype : fine.type.elementType = coarse.type.elementType := hn.operand.elementType
  rw [Graph.elementType_of_node hc, ← htype]
  exact he

/-! ## One node -/

/-- Runs on the same values, on behalf of the same node. -/
def unfolding : Coupling where
  states := fun b b' => Unfolds b.graph b'.graph ∧ b.node = b'.node ∧ b.counter = b'.counter
  values := fun _ _ => Set.diagonal ValueId
  mono := fun _ _ => subset_rfl
  elementType := by
    rintro b b' id id' e ⟨h, -, -⟩ hid he
    obtain rfl : id = id' := hid
    exact h.elementType he
  emit := by
    rintro b b' op inputs inputs' id c ⟨h, hnode, hcounter⟩ hin he
    obtain rfl : inputs = inputs' := List.forall₂_eq_eq_eq ▸ hin
    have hname : b.nextName op = b'.nextName op := by
      rw [Builder.nextName, Builder.nextName, hnode, hcounter]
    rw [Build.exec_emit] at he
    split at he
    · rename_i added graph hadd
      obtain ⟨hid, rfl⟩ := Prod.mk.inj he
      obtain rfl := Except.ok.inj hid
      obtain ⟨plain', hadd', hu⟩ := h.add hadd
      refine ⟨added, { b' with counter := b'.counter + 1, graph := plain' }, ?_, ⟨hu, hnode, ?_⟩, rfl⟩
      · rw [Build.exec_emit, ← hname, hadd']
      · exact congrArg (· + 1) hcounter
    · cases he

/-- Related by equal values, tensors are equal. -/
theorem Lowered.Matches.eq {V : Pairs} (hV : V ⊆ Set.diagonal ValueId) {x x' : Lowered}
    (h : x.Matches V x') : x = x' := by
  cases h with
  | plain h =>
    rename_i id id'
    obtain rfl : id = id' := hV h
    rfl
  | complex h =>
    rename_i value value'
    obtain ⟨marker, packed, partType⟩ := value
    obtain ⟨marker', packed', partType'⟩ := value'
    obtain rfl : marker = marker' := hV h.marker
    obtain rfl : packed = packed' := hV h.packed
    obtain rfl : partType = partType' := h.partType
    rfl

theorem Lowered.matches_self (x : Lowered) : x.Matches (Set.diagonal ValueId) x := by
  cases x with
  | plain id => exact .plain rfl
  | complex value => exact .complex ⟨rfl, rfl, rfl⟩

variable {scope : Scope} {node : Source.Node} {outputs : List Lowered}

theorem Unfolds.nameOutputs (h : Unfolds folded plain) {start : Nat}
    (hn : nameOutputs start node outputs folded = .ok folded') :
    ∃ plain', nameOutputs start node outputs plain = .ok plain' ∧ Unfolds folded' plain' := by
  suffices hf : ∃ plain', Lowering.nameOutputs start node outputs plain = .ok plain' ∧
      folded'.Folds plain' by
    obtain ⟨plain', hn', hf⟩ := hf
    exact ⟨plain', hn', hf, h.left.of_alike (alike_of_nameOutputs hn),
      h.right.of_alike (alike_of_nameOutputs hn')⟩
  refine foldlM_mono (R := Eq) (List.forall₂_refl outputs.zipIdx) ?_ h.folds hn
  rintro g g' output _ g₁ hg rfl hstep
  dsimp only at hstep ⊢
  split at hstep
  · rename_i hnew
    obtain ⟨g₁', hr, hg₁⟩ := hg.rename (mapError_eq_ok.mp hstep)
    exact ⟨g₁', by rw [if_pos hnew, mapError_eq_ok]; exact hr, hg₁⟩
  · rename_i hnew
    obtain rfl := Except.ok.inj hstep
    exact ⟨g', if_neg hnew, hg⟩

/-- A node that takes no product of complex data is lowered without folding as it is with. -/
theorem Unfolds.lowerNode (h : Unfolds folded plain)
    (hplain : ∀ inputs, resolveInputs scope node = .ok inputs →
      ResolvedNode.PlainProduct ⟨node, inputs⟩)
    (hl : lowerNode .standard scope folded node = (.ok outputs, folded')) :
    ∃ plain', lowerNode .standard scope plain node = (.ok outputs, plain') ∧
      Unfolds folded' plain' := by
  obtain ⟨inputs, rule, c, hi, hr, hexec, hname⟩ := lowerNode_eq_ok.mp hl
  have hmatches : (ResolvedNode.mk node inputs).Matches (Set.diagonal ValueId) ⟨node, inputs⟩ :=
    ⟨rfl, rfl, List.forall₂_same.mpr fun x _ => x.matches_self⟩
  obtain ⟨outputs', c', W, hexec', ⟨hc, -, -⟩, -, -, hW, hout⟩ :=
    (follows_standard (C := unfolding)).of_find? hr _ _ _ hmatches (hplain inputs hi)
      ⟨folded, node.name, node.opType, 0⟩ ⟨plain, node.name, node.opType, 0⟩ ⟨h, rfl, rfl⟩
      subset_rfl outputs c hexec
  obtain rfl : outputs = outputs' := List.forall₂_eq_eq_eq ▸ hout.imp fun _ _ hm => hm.eq hW
  obtain ⟨plain', hname', hu⟩ := hc.nameOutputs hname
  rw [h.folds.size] at hname'
  exact ⟨plain', lowerNode_eq_ok.mpr ⟨inputs, rule, c', hi, hr, hexec', hname'⟩, hu⟩

/-! ## Inputs and outputs -/

theorem Unfolds.addParameter (h : Unfolds folded plain) {name : String} {e : ElementType}
    {shape : PartialShape} {id : ValueId}
    (hp : folded.addParameter name e shape = .ok (id, folded')) :
    ∃ plain', plain.addParameter name e shape = .ok (id, plain') ∧ Unfolds folded' plain' := by
  obtain ⟨plain', hp', hf⟩ := h.folds.addParameter h.left hp
  exact ⟨plain', hp', hf, h.left.addParameter hp, h.right.addParameter hp'⟩

theorem Unfolds.addInput (h : Unfolds folded plain) {input : Source.Input} {x : Lowered}
    (ha : addInput folded input = .ok (x, folded')) :
    ∃ plain', addInput plain input = .ok (x, plain') ∧ Unfolds folded' plain' := by
  cases addInput_eq_ok.mp ha with
  | real hpart he hparameter =>
    obtain ⟨plain', hparameter', hu⟩ := h.addParameter hparameter
    exact ⟨plain', addInput_eq_ok.mpr (.real hpart he hparameter'), hu⟩
  | complex hpart he hparameter hmark =>
    obtain ⟨plain₁, hparameter', hu₁⟩ := h.addParameter hparameter
    obtain ⟨plain₂, hmark', hu₂⟩ := hu₁.add hmark
    exact ⟨plain₂, addInput_eq_ok.mpr (.complex hpart he hparameter' hmark'), hu₂⟩

theorem Unfolds.addInputs (h : Unfolds folded plain) {inputs : List Source.Input}
    (ha : addInputs folded inputs = .ok (scope, folded')) :
    ∃ plain', addInputs plain inputs = .ok (scope, plain') ∧ Unfolds folded' plain' := by
  induction inputs using List.reverseRecOn generalizing scope folded' with
  | nil =>
    obtain ⟨rfl, rfl⟩ := Prod.mk.inj (Except.ok.inj ha)
    exact ⟨plain, rfl, h⟩
  | append_singleton inputs input ih =>
    obtain ⟨before, g, x, g₁, hi, hx, hr⟩ := addInputs_concat.mp ha
    obtain ⟨rfl, rfl⟩ := Prod.mk.inj hr
    obtain ⟨g', hi', hu⟩ := ih hi
    obtain ⟨g₁', hx', hu₁⟩ := hu.addInput hx
    exact ⟨g₁', addInputs_concat.mpr ⟨before, g', x, g₁', hi', hx', rfl⟩, hu₁⟩

theorem Unfolds.collectOutputs (h : Unfolds folded plain) {policy : OnFailure}
    {references : List String} {collected : List (String × Lowered)}
    (hc : collectOutputs policy scope references folded = .ok (collected, folded')) :
    ∃ plain', collectOutputs policy scope references plain = .ok (collected, plain') ∧
      Unfolds folded' plain' := by
  induction references generalizing folded plain collected with
  | nil =>
    obtain ⟨rfl, rfl⟩ := Prod.mk.inj (Except.ok.inj hc)
    exact ⟨plain, rfl, h⟩
  | cons reference references ih =>
    rcases collectOutputs_cons_eq_ok.mp hc with
      ⟨x, g, others, hx, ho, hrest, rfl⟩ | ⟨hx, rfl, hrest⟩
    · obtain ⟨g', ho', hf⟩ := h.folds.addOutput ho
      have hu : Unfolds g g' := ⟨hf, h.left.of_alike (Graph.alike_of_addOutput ho),
        h.right.of_alike (Graph.alike_of_addOutput ho')⟩
      obtain ⟨plain', hrest', hu'⟩ := ih hu hrest
      exact ⟨plain', collectOutputs_cons_eq_ok.mpr (.inl ⟨x, g', others, hx, ho', hrest', rfl⟩), hu'⟩
    · obtain ⟨plain', hrest', hu'⟩ := ih h hrest
      exact ⟨plain', collectOutputs_cons_eq_ok.mpr (.inr ⟨hx, rfl, hrest'⟩), hu'⟩

/-! ## Whole graphs -/

variable {source : Source.Graph} {nodes : List Source.Node} {fold : Folding}

/-- Where lowering that does not abort comes to one of the nodes, the node takes no product of
complex data. -/
def PlainProducts (fold : Folding) (source : Source.Graph) (nodes : List Source.Node) : Prop :=
  ∀ before node after progress inputs, nodes = before ++ node :: after →
    progressAfter .standard ⟨.abort, fold⟩ source before = .ok progress →
    resolveInputs progress.scope node = .ok inputs → ResolvedNode.PlainProduct ⟨node, inputs⟩

theorem plainProducts_concat : PlainProducts fold source (nodes ++ [node]) ↔
    PlainProducts fold source nodes ∧ ∀ progress inputs,
      progressAfter .standard ⟨.abort, fold⟩ source nodes = .ok progress →
      resolveInputs progress.scope node = .ok inputs → ResolvedNode.PlainProduct ⟨node, inputs⟩ := by
  constructor
  · refine fun h => ⟨fun before node' after progress inputs hn => ?_, fun progress inputs => ?_⟩
    · exact h before node' (after ++ [node]) progress inputs (by simp [hn])
    · exact h nodes node [] progress inputs rfl
  · rintro ⟨hall, hlast⟩ before node' after progress inputs hn
    rcases concat_eq_append_cons hn with ⟨rfl, rfl⟩ | ⟨rest, hrest⟩
    · exact hlast progress inputs
    · exact hall before node' rest progress inputs hrest

/-- The runs with and without folding go through the same states, by induction on the nodes from the
last one on. -/
theorem Unfolds.progressAfter {progress : Progress} (limit : Nat)
    (hplain : PlainProducts fold source nodes)
    (h : progressAfter .standard ⟨.abort, fold⟩ source nodes = .ok progress) :
    ∃ graph, Lowering.progressAfter .standard ⟨.abort, ⟨false, limit⟩⟩ source nodes =
      .ok { progress with graph := graph } ∧ Unfolds progress.graph graph := by
  induction nodes using List.reverseRecOn generalizing progress with
  | nil =>
    obtain ⟨scope, g, hi, rfl⟩ := progressAfter_nil.mp h
    have hempty : Unfolds { fold := fold } { fold := ⟨false, limit⟩ } :=
      ⟨.empty fold limit, (Graph.Reachable.empty fold).wellFormed,
        (Graph.Reachable.empty ⟨false, limit⟩).wellFormed⟩
    obtain ⟨g', hi', hu⟩ := hempty.addInputs hi
    exact ⟨g', progressAfter_nil.mpr ⟨scope, g', hi', rfl⟩, hu⟩
  | append_singleton nodes node ih =>
    obtain ⟨hnodes, hnode⟩ := plainProducts_concat.mp hplain
    obtain ⟨before, hb, hs⟩ := progressAfter_concat.mp h
    obtain ⟨graph, hb', hu⟩ := ih hnodes hb
    obtain ⟨outputs, g, hl, rfl⟩ := step_abort_eq_ok.mp hs
    obtain ⟨g', hl', hu'⟩ := hu.lowerNode (hnode before · hb) hl
    exact ⟨g', progressAfter_concat.mpr ⟨_, hb', step_abort_eq_ok.mpr ⟨outputs, g', hl', rfl⟩⟩, hu'⟩

/-- Folding changes nothing of what a source graph is lowered to, if no product of complex data is
taken. A graph that is lowered with folding is lowered without; both models list the same nodes,
parameters and outputs, which are plain in both or complex in both, and whatever values of the
unfolded model evaluate to, they do in the folded one. -/
theorem lowerGraph_unfolded {model : Model}
    (hplain : ∀ order, source.topologicalOrder = .ok order →
      PlainProducts fold source (source.ordered order))
    (h : lowerGraph .standard ⟨.abort, fold⟩ source = .ok model) (limit : Nat) :
    ∃ plain, lowerGraph .standard ⟨.abort, ⟨false, limit⟩⟩ source = .ok plain ∧
      (∀ id : Nat, model.graph.nodes[id]?.map (fun node => (node.name, node.op, node.inputs)) =
        plain.graph.nodes[id]?.map fun node => (node.name, node.op, node.inputs)) ∧
      model.graph.parameters = plain.graph.parameters ∧
      model.graph.outputs = plain.graph.outputs ∧
      model.outputs = plain.outputs ∧
      ∀ feeds ids vs, plain.graph.evaluate feeds ids = .ok vs →
        model.graph.evaluate feeds ids = .ok vs := by
  obtain ⟨hv, order, last, outputs, g, ho, hp, hc, rfl⟩ := lowerGraph_eq_ok.mp h
  obtain ⟨graph, hp', hu⟩ := Unfolds.progressAfter limit (hplain order ho) hp
  obtain ⟨g', hc', hu'⟩ := hu.collectOutputs hc
  refine ⟨⟨g', outputs, last.failures⟩, ?_, hu'.folds.listing, hu'.folds.parameters,
    hu'.folds.outputs, rfl, fun feeds ids vs => hu'.folds.evaluate hu'.left hu'.right⟩
  exact lowerGraph_eq_ok.mpr ⟨hv, order, _, outputs, g', ho, hp', hc', rfl⟩

/-- The imaginary plane of a real input. -/
def plane : Source.Node :=
  ⟨"plane", "Imag", ["x"], []⟩

/-- A product of that plane, which is zero everywhere, along axes that are fed. -/
def product : Source.Node :=
  ⟨"product", "Prod", ["plane", "axes"], []⟩

/-- Folding knows the plane, of which without folding only the shape is known. -/
def planeProduct : Source.Graph where
  inputs := [⟨"x", .f32, .fixed [2, 3]⟩, ⟨"axes", .i64, .fixed [1]⟩]
  nodes := [product, plane]
  outputs := ["product"]

/-- The models with and without folding have the same outputs and evaluate alike. -/
theorem planeProduct_unfolded : ∃ model plain,
    lowerGraph .standard {} planeProduct = .ok model ∧
    lowerGraph .standard ⟨.abort, ⟨false, 0⟩⟩ planeProduct = .ok plain ∧
    model.outputs = plain.outputs ∧
    ∀ feeds ids vs, plain.graph.evaluate feeds ids = .ok vs →
      model.graph.evaluate feeds ids = .ok vs := by
  have hplain : ∀ order, planeProduct.topologicalOrder = .ok order →
      PlainProducts {} planeProduct (planeProduct.ordered order) := by
    intro order ho
    have hsorted : planeProduct.topologicalOrder = .ok [1, 0] := by decide +kernel
    obtain rfl := Except.ok.inj (hsorted.symm.trans ho)
    show PlainProducts {} planeProduct ([] ++ [plane] ++ [product])
    refine plainProducts_concat.mpr ⟨plainProducts_concat.mpr ⟨fun _ _ _ _ _ h => ?_, ?_⟩, ?_⟩
    · simp at h
    · exact fun _ _ _ _ h => absurd h (by simp [ResolvedNode.opType, plane])
    · intro progress inputs hp hi _
      have hinputs : (progressAfter .standard {} planeProduct [plane]).map
          (fun progress => resolveInputs progress.scope product) =
            .ok (.ok [.plain 4, .plain 1]) := by decide +kernel
      rw [show progressAfter .standard {} planeProduct [plane] = .ok progress from hp] at hinputs
      obtain rfl := Except.ok.inj (hi.symm.trans (Except.ok.inj hinputs))
      decide
  cases hm : lowerGraph .standard {} planeProduct with
  | error e =>
    have hok : (lowerGraph .standard {} planeProduct).isOk = true := by decide +kernel
    rw [hm] at hok
    cases hok
  | ok model =>
    obtain ⟨plain, hp, -, -, -, hout, hv⟩ := lowerGraph_unfolded hplain hm 0
    exact ⟨model, plain, rfl, hp, hout, hv⟩

end TensorLowering.Lowering
