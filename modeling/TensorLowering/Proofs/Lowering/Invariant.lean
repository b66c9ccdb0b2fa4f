import TensorLowering.Proofs.Lowering.Keeps
import TensorLowering.Proofs.Lowering.Steps

/-!
# Invariants of lowering

What holds of the graph and of the tensors in scope while a source graph is lowered. If adding the
inputs establishes it and every rule of the registry keeps it, it holds of the model and its
outputs, whether failures are skipped or not (`Invariant.of_lowerGraph`).
-/

namespace TensorLowering.Lowering

open Dataflow (ValueId Graph)

/-! ## All rules of a registry -/

namespace Registry

variable {P : Rule → Prop}

/-- All rules have the property. -/
def All (P : Rule → Prop) (registry : Registry) : Prop :=
  ∀ entry ∈ registry.entries, P entry.2

theorem All.insertAll {registry : Registry} (h : registry.All P) (opTypes : List String)
    {rule : Rule} (hrule : P rule) : (registry.insertAll opTypes rule).All P :=
  List.foldlRecOn (motive := Registry.All P) opTypes _ h fun _ ih _ _ =>
    List.forall_mem_cons.mpr ⟨hrule, fun entry he => ih entry (List.mem_filter.mp he).1⟩

theorem all_ofRules {rules : List (Rule × List String)} (h : rules.Forall fun entry => P entry.1) :
    (ofRules rules).All P :=
  List.foldlRecOn (motive := Registry.All P) rules _ nofun fun _ ih added hadded =>
    ih.insertAll added.2 (List.forall_iff_forall_mem.mp h added hadded)

theorem All.imp {Q : Rule → Prop} {registry : Registry} (h : registry.All P)
    (hpq : ∀ rule, P rule → Q rule) : registry.All Q :=
  fun entry he => hpq entry.2 (h entry he)

theorem All.of_find? {registry : Registry} (h : registry.All P) {opType : String} {rule : Rule}
    (hfind : registry.find? opType = some rule) : P rule := by
  obtain ⟨before, after, heq, -⟩ := List.lookup_eq_some_iff.mp hfind
  exact h (opType, rule) (by simp [heq])

end Registry

/-! ## Invariants -/

/-- A property of graphs and one of tensors in them that lasts while the graph is extended. -/
structure Invariant where
  holds : Graph → Prop
  good : Graph → Lowered → Prop
  alike : ∀ {g g'}, holds g → g.Alike g' → holds g'
  mono : ∀ {g g' lowered}, holds g → holds g' → g.Extends g' → good g lowered → good g' lowered

namespace Invariant

variable (J : Invariant)

/-- The rule keeps the invariant and returns good tensors where its inputs are. -/
def KeptBy (rule : Rule) : Prop :=
  ∀ (node : ResolvedNode) (b : Builder), J.holds b.graph →
    (∀ input ∈ node.inputs, J.good b.graph input) →
    Keeps J.holds b (rule.lower node) fun g outputs => ∀ output ∈ outputs, J.good g output

/-- The rule does so on the nodes of one kind. -/
def KeptOn (P : Source.Node → Prop) (rule : Rule) : Prop :=
  ∀ (node : ResolvedNode) (b : Builder), P node.source → J.holds b.graph →
    (∀ input ∈ node.inputs, J.good b.graph input) →
    Keeps J.holds b (rule.lower node) fun g outputs => ∀ output ∈ outputs, J.good g output

/-- The invariant holds, and all tensors in scope are good. -/
structure Holds (g : Graph) (scope : Scope) : Prop where
  graph : J.holds g
  scope : ∀ entry ∈ scope, J.good g entry.2

variable {J} {g g' : Graph} {scope : Scope} {registry : Registry} {P : Source.Node → Prop}

theorem Holds.extend (h : J.Holds g scope) (hg' : J.holds g') (he : g.Extends g') :
    J.Holds g' scope :=
  ⟨hg', fun entry hentry => J.mono h.graph hg' he (h.scope entry hentry)⟩

/-- New tensors come into scope. -/
theorem Holds.cons (h : J.Holds g scope) {name : String} {lowered : Lowered}
    (hl : J.good g lowered) : J.Holds g ((name, lowered) :: scope) :=
  ⟨h.graph, List.forall_mem_cons.mpr ⟨hl, h.scope⟩⟩

theorem Holds.good_of_lookup (h : J.Holds g scope) {name : String} {lowered : Lowered}
    (hl : scope.lookup name = some lowered) : J.good g lowered := by
  obtain ⟨before, after, rfl, -⟩ := List.lookup_eq_some_iff.mp hl
  exact h.scope (name, lowered) (by simp)

/-! ## Nodes -/

theorem Holds.good_of_resolveInputs (h : J.Holds g scope) {node : Source.Node}
    {inputs : List Lowered} (hi : resolveInputs scope node = .ok inputs) :
    ∀ input ∈ inputs, J.good g input := fun input hin => by
  obtain ⟨ref, -, hlookup⟩ := exists_of_forall₂_right (resolveInputs_eq_ok.mp hi) hin
  exact h.good_of_lookup hlookup

/-- The rule of a node keeps the invariant on its inputs. -/
theorem Holds.rule (hrules : registry.All (J.KeptOn P)) (h : J.Holds g scope) {node : Source.Node}
    (hnode : P node) {inputs : List Lowered} {rule : Rule}
    (hi : resolveInputs scope node = .ok inputs) (hr : registry.find? node.opType = some rule)
    {outcome : Except Error (List Lowered)} {builder : Builder}
    (hexec : (rule.lower ⟨node, inputs⟩).exec ⟨g, node.name, node.opType, 0⟩ = (outcome, builder)) :
    Kept J.holds ⟨g, node.name, node.opType, 0⟩
      (fun g outputs => ∀ output ∈ outputs, J.good g output) (outcome, builder) :=
  hexec ▸ hrules.of_find? hr ⟨node, inputs⟩ _ hnode h.graph (h.good_of_resolveInputs hi)

/-- Lowering a node keeps the invariant, also where it fails. -/
theorem Holds.lowerNode (hrules : registry.All (J.KeptOn P)) (h : J.Holds g scope)
    {node : Source.Node} (hnode : P node) {result : Except Error (List Lowered)}
    (hl : lowerNode registry scope g node = (result, g')) :
    J.Holds g' scope ∧ ∀ outputs, result = .ok outputs → ∀ output ∈ outputs, J.good g' output := by
  have houtcome := nodeOutcome registry scope g node
  rw [hl] at houtcome
  cases houtcome with
  | unresolved _ => exact ⟨h, nofun⟩
  | unknown _ _ => exact ⟨h, nofun⟩
  | failed hi hr hexec =>
    have hkept := h.rule hrules hnode hi hr hexec
    exact ⟨h.extend hkept.inv hkept.grows, nofun⟩
  | unnamed hi hr hexec _ =>
    have hkept := h.rule hrules hnode hi hr hexec
    exact ⟨h.extend hkept.inv hkept.grows, nofun⟩
  | lowered hi hr hexec hnamed =>
    have hkept := h.rule hrules hnode hi hr hexec
    have halike := alike_of_nameOutputs hnamed
    have hg' := J.alike hkept.inv halike
    refine ⟨h.extend hg' (hkept.grows.trans halike.forth), fun outputs ho output hi => ?_⟩
    obtain rfl := Except.ok.inj ho
    exact J.mono hkept.inv hg' halike.forth (hkept.post _ rfl output hi)

/-- The outputs of a node come into scope. -/
theorem Holds.record {progress : Progress} (h : J.Holds g progress.scope) (node : Source.Node)
    {outputs : List Lowered} (hout : ∀ output ∈ outputs, J.good g output) :
    J.Holds (progress.record node outputs g).graph (progress.record node outputs g).scope :=
  List.foldlRecOn outputs.zipIdx _ h fun _ ih output hi =>
    ih.cons (hout output.1 (List.fst_mem_of_mem_zipIdx hi))

theorem Holds.step {policy : OnFailure} {node : Source.Node} {before after : Progress}
    (hrules : registry.All (J.KeptOn P)) (h : J.Holds before.graph before.scope) (hnode : P node)
    (hs : before.step registry policy node = .ok after) :
    J.Holds after.graph after.scope := by
  unfold Progress.step at hs
  split at hs
  · rename_i outputs g hl
    obtain ⟨hg, hgood⟩ := h.lowerNode hrules hnode hl
    obtain rfl := Except.ok.inj hs
    exact hg.record node (hgood outputs rfl)
  · rename_i e g hl
    obtain ⟨hg, -⟩ := h.lowerNode hrules hnode hl
    split at hs
    · cases hs
    · obtain rfl := Except.ok.inj hs
      exact hg

theorem Holds.foldlM {policy : OnFailure} {nodes : List Source.Node} {before after : Progress}
    (hrules : registry.All (J.KeptOn P)) (h : J.Holds before.graph before.scope)
    (hnodes : ∀ node ∈ nodes, P node)
    (hs : nodes.foldlM (Progress.step registry policy) before = .ok after) :
    J.Holds after.graph after.scope :=
  of_foldlM (P := fun progress : Progress => J.Holds progress.graph progress.scope)
    (fun _ node _ ih hn hs => ih.step hrules (hnodes node hn) hs) h hs

/-! ## Whole graphs -/

theorem Holds.addInputs {inputs : List Source.Input}
    (hinputs : ∀ input ∈ inputs, ∀ g lowered g', J.holds g →
      addInput g input = .ok (lowered, g') → J.holds g' ∧ g.Extends g' ∧ J.good g' lowered)
    (hg : J.holds g) (h : addInputs g inputs = .ok (scope, g')) : J.Holds g' scope := by
  refine of_foldlM (P := fun (result : Scope × Graph) => J.Holds result.2 result.1)
    (fun before input after ih hi hstep => ?_) ⟨hg, by simp⟩ h
  obtain ⟨⟨lowered, g₁⟩, hadd, hstep⟩ := bind_eq_ok.mp hstep
  obtain rfl := Except.ok.inj hstep
  obtain ⟨hg₁, he, hgood⟩ := hinputs input hi _ _ _ ih.graph hadd
  exact (ih.extend hg₁ he).cons hgood

/-- What the inputs establish and the rules keep on nodes of one kind holds of the model, if all nodes
are of the kind. -/
theorem of_lowerGraph_on {options : Options} {source : Source.Graph} {model : Model}
    (hrules : registry.All (J.KeptOn P)) (hnodes : ∀ node ∈ source.nodes, P node)
    (hinputs : ∀ input ∈ source.inputs, ∀ g lowered g', J.holds g →
      addInput g input = .ok (lowered, g') → J.holds g' ∧ g.Extends g' ∧ J.good g' lowered)
    (hempty : J.holds { fold := options.fold })
    (h : lowerGraph registry options source = .ok model) :
    J.Holds model.graph model.outputs := by
  obtain ⟨_, -, h⟩ := bind_eq_ok.mp h
  obtain ⟨order, -, h⟩ := bind_eq_ok.mp h
  obtain ⟨⟨scope, g⟩, hi, h⟩ := bind_eq_ok.mp h
  obtain ⟨progress, hp, h⟩ := bind_eq_ok.mp h
  obtain ⟨⟨outputs, g'⟩, hc, h⟩ := bind_eq_ok.mp h
  obtain rfl := Except.ok.inj h
  have hordered : ∀ node ∈ order.filterMap (source.nodes[·]?), P node := fun node hn => by
    obtain ⟨i, -, hi⟩ := List.mem_filterMap.mp hn
    exact hnodes node (List.mem_of_getElem? hi)
  have hprogress : J.Holds progress.graph progress.scope :=
    (Holds.addInputs hinputs hempty hi).foldlM hrules hordered hp
  obtain ⟨halike, hlookup⟩ := lookup_of_collectOutputs hc
  have hg' := J.alike hprogress.graph halike
  exact ⟨hg', fun output hout => J.mono hprogress.graph hg' halike.forth
    (hprogress.good_of_lookup (hlookup output hout))⟩

/-- What the inputs establish and the rules keep holds of the model. -/
theorem of_lowerGraph {options : Options} {source : Source.Graph} {model : Model}
    (hrules : registry.All J.KeptBy)
    (hinputs : ∀ input ∈ source.inputs, ∀ g lowered g', J.holds g →
      addInput g input = .ok (lowered, g') → J.holds g' ∧ g.Extends g' ∧ J.good g' lowered)
    (hempty : J.holds { fold := options.fold })
    (h : lowerGraph registry options source = .ok model) :
    J.Holds model.graph model.outputs :=
  of_lowerGraph_on (P := fun _ => True) (hrules.imp fun _ hrule node b _ => hrule node b)
    (fun _ _ => trivial) hinputs hempty h

end Invariant

end TensorLowering.Lowering
