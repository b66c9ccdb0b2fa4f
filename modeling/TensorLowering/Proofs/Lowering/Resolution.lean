import TensorLowering.Lowering.Model
import Mathlib.Data.List.Induction
import TensorLowering.Proofs.Source.Graph
import TensorLowering.Proofs.Source.Reference

/-!
# What references are resolved to

A reference names an output of a node, or an input; lowering looks it up in its scope, by a string.
Here every tensor in scope keeps where it came from (`Origin`), so that one can say which tensor a
reference means and which one it gets:

* `Produces` says, of a list of nodes that were tried, which outputs and inputs there are;
* `Trace.mem_iff`: these are the origins of the tensors in scope;
* `Trace.resolve_eq`: a reference gets the latest tensor of its name, wherever that came from;
* `resolve_exact`: so it gets what it means exactly if that tensor came from there, and always if no
  other output of the graph has the same name; `clash` is a graph where it gets another.
-/

namespace TensorLowering.Lowering

open Source (Reference outputName)

/-! ## States of lowering -/

variable {registry : Registry} {options : Options} {source : Source.Graph}

/-- The state after the inputs were added and the nodes were tried. -/
def progressAfter (registry : Registry) (options : Options) (source : Source.Graph)
    (nodes : List Source.Node) : Except Error Progress := do
  let (scope, g) ← addInputs { fold := options.fold } source.inputs
  nodes.foldlM (Progress.step registry options.policy) ⟨g, scope, []⟩

/-- Lowering goes through the states after the nodes in topological order. -/
theorem lowerGraph_eq : lowerGraph registry options source = (do
    source.validate.mapError .graph
    let order ← source.topologicalOrder.mapError .graph
    let progress ← progressAfter registry options source (source.ordered order)
    let (outputs, g) ← collectOutputs options.policy progress.scope source.outputs progress.graph
    return ⟨g, outputs, progress.failures⟩) := by
  simp only [lowerGraph, progressAfter, bind_assoc]
  rfl

theorem lowerGraph_eq_ok {model : Model} : lowerGraph registry options source = .ok model ↔
    source.validate = .ok () ∧ ∃ order last outputs g, source.topologicalOrder = .ok order ∧
      progressAfter registry options source (source.ordered order) = .ok last ∧
      collectOutputs options.policy last.scope source.outputs last.graph = .ok (outputs, g) ∧
      model = ⟨g, outputs, last.failures⟩ := by
  rw [lowerGraph_eq]
  simp only [bind_eq_ok, mapError_eq_ok, exists_unit, Prod.exists, pure_eq_ok, Except.ok.injEq,
    @eq_comm _ model, exists_and_left]

/-- From the state before a node of an accepted graph, lowering goes on with that node. -/
theorem lowerGraph_of_progressAfter {order : List Nat} {before after : List Source.Node}
    {node : Source.Node} {progress : Progress} (hv : source.validate = .ok ())
    (ho : source.topologicalOrder = .ok order)
    (hn : source.ordered order = before ++ node :: after)
    (hp : progressAfter registry options source before = .ok progress) :
    lowerGraph registry options source = (do
      let last ← (node :: after).foldlM (Progress.step registry options.policy) progress
      let (outputs, g) ← collectOutputs options.policy last.scope source.outputs last.graph
      return ⟨g, outputs, last.failures⟩) := by
  rw [lowerGraph_eq, mapError_eq_ok.mpr hv, ok_bind, mapError_eq_ok.mpr ho, ok_bind, hn]
  obtain ⟨⟨scope, g⟩, hi, hb⟩ := bind_eq_ok.mp hp
  dsimp only at hb
  rw [progressAfter, hi, ok_bind]
  dsimp only
  rw [List.foldlM_append, hb, ok_bind]

theorem progressAfter_nil {progress : Progress} :
    progressAfter registry options source [] = .ok progress ↔ ∃ scope g,
      addInputs { fold := options.fold } source.inputs = .ok (scope, g) ∧
        progress = ⟨g, scope, []⟩ := by
  simp only [progressAfter, List.foldlM_nil, bind_eq_ok, pure_eq_ok, Except.ok.injEq, Prod.exists,
    @eq_comm _ progress]

theorem progressAfter_concat_eq (nodes : List Source.Node) (node : Source.Node) :
    progressAfter registry options source (nodes ++ [node]) =
      progressAfter registry options source nodes >>= fun progress =>
        progress.step registry options.policy node := by
  simp only [progressAfter, bind_assoc, List.foldlM_append, List.foldlM_cons, List.foldlM_nil,
    bind_pure]

theorem progressAfter_concat {nodes : List Source.Node} {node : Source.Node} {progress : Progress} :
    progressAfter registry options source (nodes ++ [node]) = .ok progress ↔ ∃ before,
      progressAfter registry options source nodes = .ok before ∧
        before.step registry options.policy node = .ok progress := by
  rw [progressAfter_concat_eq, bind_eq_ok]

/-- The states after more nodes are reached from the states before them. -/
theorem progressAfter_append {nodes more : List Source.Node} {last : Progress} :
    progressAfter registry options source (nodes ++ more) = .ok last ↔ ∃ progress,
      progressAfter registry options source nodes = .ok progress ∧
        more.foldlM (Progress.step registry options.policy) progress = .ok last := by
  simp only [progressAfter, bind_eq_ok, Prod.exists, List.foldlM_append]
  constructor
  · rintro ⟨scope, g, hi, progress, hp, hm⟩; exact ⟨progress, ⟨scope, g, hi, hp⟩, hm⟩
  · rintro ⟨progress, ⟨scope, g, hi, hp⟩, hm⟩; exact ⟨scope, g, hi, progress, hp, hm⟩

theorem addInputs_concat {g : Dataflow.Graph} {inputs : List Source.Input} {input : Source.Input}
    {result : Scope × Dataflow.Graph} :
    addInputs g (inputs ++ [input]) = .ok result ↔ ∃ scope g' tensor g'',
      addInputs g inputs = .ok (scope, g') ∧ addInput g' input = .ok (tensor, g'') ∧
        result = ((input.name, tensor) :: scope, g'') := by
  simp only [addInputs, foldlM_concat_eq_ok, bind_eq_ok, Prod.exists, pure_eq_ok, Except.ok.injEq]
  constructor
  · rintro ⟨scope, g', hi, tensor, g'', ht, hr⟩; exact ⟨scope, g', tensor, g'', hi, ht, hr.symm⟩
  · rintro ⟨scope, g', tensor, g'', hi, ht, hr⟩; exact ⟨scope, g', hi, tensor, g'', ht, hr.symm⟩

/-! ## Origins -/

/-- A tensor in scope, and the output or input that it is. -/
structure Origin where
  /-- The name of the node or input. -/
  name : String
  /-- The number of the output; an input is its own output 0. -/
  index : Nat
  tensor : Lowered
deriving DecidableEq

/-- The name under which the tensor is in scope. -/
def Origin.key (o : Origin) : String :=
  outputName o.name o.index

def Origin.entry (o : Origin) : String × Lowered :=
  (o.key, o.tensor)

/-- The outputs of a node. -/
def Origin.ofOutputs (node : Source.Node) (outputs : List Lowered) : List Origin :=
  outputs.zipIdx.map fun (tensor, index) => ⟨node.name, index, tensor⟩

/-- The inputs of the source graph, and what the rules returned for those of the nodes that were
lowered. -/
inductive Produces (registry : Registry) (options : Options) (source : Source.Graph)
    (nodes : List Source.Node) : Origin → Prop where
  | input {before after : List Source.Input} {input : Source.Input} {scope : Scope}
      {g g' : Dataflow.Graph} {tensor : Lowered} :
      source.inputs = before ++ input :: after →
      addInputs { fold := options.fold } before = .ok (scope, g) →
      addInput g input = .ok (tensor, g') →
      Produces registry options source nodes ⟨input.name, 0, tensor⟩
  | output {before after : List Source.Node} {node : Source.Node} {progress : Progress}
      {outputs : List Lowered} {g : Dataflow.Graph} {index : Nat} {tensor : Lowered} :
      nodes = before ++ node :: after →
      progressAfter registry options source before = .ok progress →
      lowerNode registry progress.scope progress.graph node = (.ok outputs, g) →
      outputs[index]? = some tensor →
      Produces registry options source nodes ⟨node.name, index, tensor⟩

/-- The states of lowering, with the nodes tried on the way and the origins of the tensors in scope,
the latest first. -/
inductive Trace (registry : Registry) (options : Options) (source : Source.Graph) :
    List Source.Node → Progress → List Origin → Prop where
  | inputs {scope : Scope} {g : Dataflow.Graph} :
      addInputs { fold := options.fold } source.inputs = .ok (scope, g) →
      Trace registry options source [] ⟨g, scope, []⟩
        (scope.map fun (name, tensor) => ⟨name, 0, tensor⟩)
  | lowered {nodes : List Source.Node} {progress : Progress} {origins : List Origin}
      {node : Source.Node} {outputs : List Lowered} {g : Dataflow.Graph} :
      Trace registry options source nodes progress origins →
      lowerNode registry progress.scope progress.graph node = (.ok outputs, g) →
      Trace registry options source (nodes ++ [node]) (progress.record node outputs g)
        ((Origin.ofOutputs node outputs).reverse ++ origins)
  | skipped {nodes : List Source.Node} {progress after : Progress} {origins : List Origin}
      {node : Source.Node} {e : Error} {g : Dataflow.Graph} :
      Trace registry options source nodes progress origins →
      lowerNode registry progress.scope progress.graph node = (.error e, g) →
      progress.step registry options.policy node = .ok after →
      Trace registry options source (nodes ++ [node]) after origins

variable {nodes : List Source.Node} {progress : Progress} {origins : List Origin}

/-- Every state has a trace, by induction on the nodes from the last one on. -/
theorem exists_trace (h : progressAfter registry options source nodes = .ok progress) :
    ∃ origins, Trace registry options source nodes progress origins := by
  induction nodes using List.reverseRecOn generalizing progress with
  | nil =>
    obtain ⟨scope, g, hi, rfl⟩ := progressAfter_nil.mp h
    exact ⟨_, .inputs hi⟩
  | append_singleton nodes node ih =>
    obtain ⟨before, hb, hs⟩ := progressAfter_concat.mp h
    obtain ⟨origins, ht⟩ := ih hb
    obtain ⟨returned, g, hl⟩ : ∃ returned g,
        lowerNode registry before.scope before.graph node = (returned, g) := ⟨_, _, rfl⟩
    cases returned with
    | error e => exact ⟨origins, ht.skipped hl hs⟩
    | ok outputs =>
      rw [Progress.step, hl] at hs
      obtain rfl := Except.ok.inj hs
      exact ⟨_, ht.lowered hl⟩

theorem Trace.progressAfter (h : Trace registry options source nodes progress origins) :
    progressAfter registry options source nodes = .ok progress := by
  induction h with
  | inputs hi => exact progressAfter_nil.mpr ⟨_, _, hi, rfl⟩
  | lowered _ hl ih => exact progressAfter_concat.mpr ⟨_, ih, by rw [Progress.step, hl]⟩
  | skipped _ _ hs ih => exact progressAfter_concat.mpr ⟨_, ih, hs⟩

theorem record_scope (progress : Progress) (node : Source.Node) (outputs : List Lowered)
    (g : Dataflow.Graph) : (progress.record node outputs g).scope =
      (Origin.ofOutputs node outputs).reverse.map Origin.entry ++ progress.scope := by
  rw [List.map_reverse, Origin.ofOutputs, List.map_map]
  exact List.foldl_flip_cons_eq_append

/-- The scope holds the tensors of the origins under their names. -/
theorem Trace.scope_eq (h : Trace registry options source nodes progress origins) :
    progress.scope = origins.map Origin.entry := by
  induction h with
  | inputs hi =>
    rw [List.map_map]
    exact (List.map_id _).symm
  | lowered _ _ ih => rw [record_scope, List.map_append, ih]
  | skipped _ hl hs ih =>
    rw [Progress.step, hl] at hs
    dsimp only at hs
    split at hs
    · cases hs
    · rw [← Except.ok.inj hs]
      exact ih

/-! ## The tensors in scope -/

theorem concat_eq_append_cons {α : Type} {xs before after : List α} {x y : α}
    (h : xs ++ [x] = before ++ y :: after) :
    (before = xs ∧ y = x) ∨ ∃ rest, xs = before ++ y :: rest := by
  rcases List.eq_nil_or_concat after with rfl | ⟨rest, z, rfl⟩
  · obtain ⟨hxs, hx⟩ := List.append_inj' h rfl
    exact .inl ⟨hxs.symm, (List.cons.inj hx).1.symm⟩
  · rw [List.concat_eq_append, ← List.cons_append, ← List.append_assoc] at h
    exact .inr ⟨rest, (List.append_inj' h rfl).1⟩

theorem mem_scope_of_addInputs {g g' : Dataflow.Graph} {inputs : List Source.Input} {scope : Scope}
    (h : addInputs g inputs = .ok (scope, g')) {name : String} {tensor : Lowered} :
    (name, tensor) ∈ scope ↔ ∃ before input after scope' g₁ g₂,
      inputs = before ++ input :: after ∧ addInputs g before = .ok (scope', g₁) ∧
        addInput g₁ input = .ok (tensor, g₂) ∧ input.name = name := by
  induction inputs using List.reverseRecOn generalizing scope g' with
  | nil =>
    obtain ⟨rfl, -⟩ := Prod.mk.inj (Except.ok.inj h)
    simp
  | append_singleton inputs input ih =>
    obtain ⟨scope', g₁, added, g₂, hi, ha, hr⟩ := addInputs_concat.mp h
    obtain ⟨rfl, rfl⟩ := Prod.mk.inj hr
    rw [List.mem_cons, ih hi]
    constructor
    · rintro (he | ⟨before, other, after, scope, g, g', rfl, hb, ho, hn⟩)
      · obtain ⟨rfl, rfl⟩ := Prod.mk.inj he
        exact ⟨inputs, input, [], scope', g₁, _, rfl, hi, ha, rfl⟩
      · exact ⟨before, other, after ++ [input], scope, g, g', by simp, hb, ho, hn⟩
    · rintro ⟨before, other, after, scope, g, g', hs, hb, ho, rfl⟩
      rcases concat_eq_append_cons hs with ⟨rfl, rfl⟩ | ⟨rest, rfl⟩
      · obtain ⟨-, rfl⟩ := Prod.mk.inj (Except.ok.inj (hb.symm.trans hi))
        obtain ⟨rfl, -⟩ := Prod.mk.inj (Except.ok.inj (ho.symm.trans ha))
        exact .inl rfl
      · exact .inr ⟨before, other, rest, scope, g, g', rfl, hb, ho, rfl⟩

/-- Trying one more node produces its outputs, if its rule returns any. -/
theorem produces_concat {node : Source.Node} {o : Origin}
    (hp : progressAfter registry options source nodes = .ok progress) :
    Produces registry options source (nodes ++ [node]) o ↔
      Produces registry options source nodes o ∨ ∃ outputs g,
        lowerNode registry progress.scope progress.graph node = (.ok outputs, g) ∧
          o ∈ Origin.ofOutputs node outputs := by
  constructor
  · rintro (⟨hs, hb, ha⟩ | ⟨hs, hb, hl, ho⟩)
    · exact .inl (.input hs hb ha)
    · rcases concat_eq_append_cons hs with ⟨rfl, rfl⟩ | ⟨rest, rfl⟩
      · obtain rfl := Except.ok.inj (hb.symm.trans hp)
        exact .inr ⟨_, _, hl, List.mem_map.mpr
          ⟨(_, _), List.mem_zipIdx_iff_getElem?.mpr ho, rfl⟩⟩
      · exact .inl (.output rfl hb hl ho)
  · rintro (h | ⟨outputs, g, hl, ho⟩)
    · cases h with
      | input hs hb ha => exact .input hs hb ha
      | output hs hb hl ho =>
        exact .output (by rw [hs, List.append_assoc, List.cons_append]) hb hl ho
    · obtain ⟨⟨tensor, index⟩, hm, rfl⟩ := List.mem_map.mp ho
      exact .output rfl hp hl (List.mem_zipIdx_iff_getElem?.mp hm)

/-- The origins of the tensors in scope are the inputs and outputs that there are. -/
theorem Trace.mem_iff (h : Trace registry options source nodes progress origins) {o : Origin} :
    o ∈ origins ↔ Produces registry options source nodes o := by
  induction h with
  | inputs hi =>
    rw [List.mem_map]
    constructor
    · rintro ⟨⟨name, tensor⟩, hm, rfl⟩
      obtain ⟨before, input, after, scope, g, g', hs, hb, ha, rfl⟩ :=
        (mem_scope_of_addInputs hi).mp hm
      exact .input hs hb ha
    · rintro (⟨hs, hb, ha⟩ | ⟨hs, -, -, -⟩)
      · exact ⟨_, (mem_scope_of_addInputs hi).mpr ⟨_, _, _, _, _, _, hs, hb, ha, rfl⟩, rfl⟩
      · simp at hs
  | lowered ht hl ih =>
    rw [produces_concat ht.progressAfter, List.mem_append, List.mem_reverse, ih, or_comm]
    simp [hl]
  | skipped ht hl hs ih =>
    rw [produces_concat ht.progressAfter, ih]
    simp [hl]

/-- Where names differ, a list is taken apart at a name in only one way. -/
theorem split_unique {α β : Type} {f : α → β} {xs before before' after after' : List α} {x y : α}
    (hn : (xs.map f).Nodup) (h : xs = before ++ x :: after) (h' : xs = before' ++ y :: after')
    (hf : f x = f y) : before = before' ∧ x = y := by
  have hx : (xs.map f)[before.length]? = some (f x) := by simp [h]
  have hy : (xs.map f)[before'.length]? = some (f y) := by simp [h']
  have hlen : before.length = before'.length :=
    (List.getElem?_inj (List.getElem?_eq_some_iff.mp hx).1 hn).mp (by rw [hx, hy, hf])
  obtain ⟨hb, hc⟩ := List.append_inj (h.symm.trans h') hlen
  exact ⟨hb, (List.cons.inj hc).1⟩

theorem Produces.mem_names {o : Origin} (h : Produces registry options source nodes o) :
    o.name ∈ source.inputs.map (·.name) ++ nodes.map (·.name) := by
  cases h with
  | input hs _ _ => simp [hs]
  | output hs _ _ _ => simp [hs]

/-- Name and index tell what an origin is, if no two inputs or nodes share a name. -/
theorem Produces.unique (hn : (source.inputs.map (·.name) ++ nodes.map (·.name)).Nodup)
    {name : String} {index : Nat} {tensor tensor' : Lowered}
    (h : Produces registry options source nodes ⟨name, index, tensor⟩)
    (h' : Produces registry options source nodes ⟨name, index, tensor'⟩) : tensor = tensor' := by
  obtain ⟨hinputs, hnodes, hdisjoint⟩ := List.nodup_append.mp hn
  generalize ho : Origin.mk name index tensor = o at h
  generalize ho' : Origin.mk name index tensor' = o' at h'
  cases h with
  | input hs hb ha =>
    cases h' with
    | input hs' hb' ha' =>
      obtain ⟨rfl, -, rfl⟩ := Origin.mk.inj ho
      obtain ⟨hname, -, rfl⟩ := Origin.mk.inj ho'
      obtain ⟨rfl, rfl⟩ := split_unique hinputs hs hs' hname
      obtain ⟨-, rfl⟩ := Prod.mk.inj (Except.ok.inj (hb.symm.trans hb'))
      exact (Prod.mk.inj (Except.ok.inj (ha.symm.trans ha'))).1
    | output hs' _ _ _ =>
      obtain ⟨rfl, -, -⟩ := Origin.mk.inj ho
      obtain ⟨hname, -, -⟩ := Origin.mk.inj ho'
      exact absurd hname (hdisjoint _ (by simp [hs]) _ (by simp [hs']))
  | output hs hb hl hi =>
    cases h' with
    | input hs' _ _ =>
      obtain ⟨rfl, -, -⟩ := Origin.mk.inj ho
      obtain ⟨hname, -, -⟩ := Origin.mk.inj ho'
      exact absurd hname.symm (hdisjoint _ (by simp [hs']) _ (by simp [hs]))
    | output hs' hb' hl' hi' =>
      obtain ⟨rfl, rfl, rfl⟩ := Origin.mk.inj ho
      obtain ⟨hname, rfl, rfl⟩ := Origin.mk.inj ho'
      obtain ⟨rfl, rfl⟩ := split_unique hnodes hs hs' hname
      obtain rfl := Except.ok.inj (hb.symm.trans hb')
      obtain ⟨he, -⟩ := Prod.mk.inj (hl.symm.trans hl')
      obtain rfl := Except.ok.inj he
      exact Option.some.inj (hi.symm.trans hi')

/-! ## Resolving a reference -/

/-- What a reference is resolved to for a node. -/
def resolve (scope : Scope) (user : String) (ref : Reference) : Except Error Lowered :=
  match scope.lookup ref.tensorName with
  | some lowered => .ok lowered
  | none => .error (.graph (.missingInput ref.tensorName user))

theorem resolve_eq_ok {scope : Scope} {user : String} {ref : Reference} {tensor : Lowered} :
    resolve scope user ref = .ok tensor ↔ scope.lookup ref.tensorName = some tensor := by
  unfold resolve
  cases scope.lookup ref.tensorName <;> simp

theorem resolveInputs_eq (scope : Scope) (node : Source.Node) :
    resolveInputs scope node = node.dataInputs.mapM (resolve scope node.name) := rfl

/-- What a reference means: the tensor that is the output or input of that name and number, or an
error where there is none. -/
def Means (registry : Registry) (options : Options) (source : Source.Graph)
    (nodes : List Source.Node) (user : String) (ref : Reference) : Except Error Lowered → Prop
  | .ok tensor => ∀ tensor',
      Produces registry options source nodes ⟨ref.node, ref.index, tensor'⟩ ↔ tensor' = tensor
  | .error e => e = .graph (.missingInput ref.tensorName user) ∧
      ∀ tensor, ¬Produces registry options source nodes ⟨ref.node, ref.index, tensor⟩

theorem lookup_entries (origins : List Origin) (key : String) :
    (origins.map Origin.entry).lookup key = (origins.find? (key == ·.key)).map (·.tensor) := by
  induction origins with
  | nil => rfl
  | cons o origins ih =>
    rw [List.map_cons, Origin.entry, List.lookup_cons, List.find?_cons]
    cases key == o.key with
    | true => rfl
    | false => exact ih

/-- A reference gets the latest tensor that is in scope under its name. -/
theorem Trace.resolve_eq (h : Trace registry options source nodes progress origins) (user : String)
    (ref : Reference) : resolve progress.scope user ref =
      match origins.find? (ref.tensorName == ·.key) with
      | some o => .ok o.tensor
      | none => .error (.graph (.missingInput ref.tensorName user)) := by
  rw [resolve, h.scope_eq, lookup_entries]
  cases origins.find? (ref.tensorName == ·.key) <;> rfl

/-- No output or input of the graph but the one that is meant has the name of the reference. -/
def Unambiguous (source : Source.Graph) (ref : Reference) : Prop :=
  ∀ name ∈ source.names, ∀ index,
    outputName name index = ref.tensorName → name = ref.node ∧ index = ref.index

/-- The latest tensor in scope under the name of a reference is what the reference means, if it is
an output or input of that name and number. -/
theorem Trace.means_iff (h : Trace registry options source nodes progress origins)
    (hn : (source.inputs.map (·.name) ++ nodes.map (·.name)).Nodup) (user : String)
    (ref : Reference) :
    Means registry options source nodes user ref (resolve progress.scope user ref) ↔
      ∀ o, origins.find? (ref.tensorName == ·.key) = some o →
        Produces registry options source nodes ⟨ref.node, ref.index, o.tensor⟩ := by
  rw [h.resolve_eq]
  cases hf : origins.find? (ref.tensorName == ·.key) with
  | none =>
    refine iff_of_true ⟨rfl, fun tensor hp => ?_⟩ (by simp)
    have := List.find?_eq_none.mp hf _ (h.mem_iff.mpr hp)
    exact this (beq_self_eq_true _)
  | some o =>
    simp only [Option.some.injEq, forall_eq']
    refine ⟨fun hm => (hm o.tensor).mpr rfl, fun hp tensor => ⟨fun hp' => hp'.unique hn hp, ?_⟩⟩
    rintro rfl
    exact hp

theorem Trace.means_of_unambiguous (h : Trace registry options source nodes progress origins)
    (hn : (source.inputs.map (·.name) ++ nodes.map (·.name)).Nodup)
    (hs : ∀ node ∈ nodes, node ∈ source.nodes) (user : String) {ref : Reference}
    (hu : Unambiguous source ref) :
    Means registry options source nodes user ref (resolve progress.scope user ref) := by
  refine (h.means_iff hn user ref).mpr fun o ho => ?_
  have hp := h.mem_iff.mp (List.mem_of_find?_eq_some ho)
  have hname : o.name ∈ source.names := by
    rcases List.mem_append.mp hp.mem_names with hm | hm
    · exact List.mem_append_left _ hm
    · obtain ⟨node, hnode, he⟩ := List.mem_map.mp hm
      exact List.mem_append_right _ (List.mem_map.mpr ⟨node, hs node hnode, he⟩)
  have hkey : ref.tensorName = o.key := by simpa using List.find?_some ho
  obtain ⟨h₁, h₂⟩ := hu o.name hname o.index hkey.symm
  rw [← h₁, ← h₂]
  exact hp

/-- Every reference is unambiguous in a valid graph of which no name has a colon. -/
theorem unambiguous_of_no_colon (hc : ∀ name ∈ source.names, ':' ∉ name.toList) {ref : Reference}
    (hr : ref.node ∈ source.names) : Unambiguous source ref := fun name hn _ h =>
  Source.outputName_inj (hc name hn) (hc ref.node hr) h

/-- When lowering of an accepted graph comes to a node, each reference of the node gets the tensor
that came into scope last under the name of the reference. That is what the reference means exactly
if this tensor is the output or input of that name and number, and it always is if no other output
of the graph has the name. -/
theorem resolve_exact {order : List Nat} {before after : List Source.Node} {node : Source.Node}
    (hv : source.validate = .ok ()) (ho : source.topologicalOrder = .ok order)
    (hn : source.ordered order = before ++ node :: after)
    (hp : progressAfter registry options source before = .ok progress) :
    lowerGraph registry options source = (do
      let last ← (node :: after).foldlM (Progress.step registry options.policy) progress
      let (outputs, g) ← collectOutputs options.policy last.scope source.outputs last.graph
      return ⟨g, outputs, last.failures⟩) ∧
    resolveInputs progress.scope node = node.dataInputs.mapM (resolve progress.scope node.name) ∧
    ∃ origins, Trace registry options source before progress origins ∧
      (∀ o, o ∈ origins ↔ Produces registry options source before o) ∧
      ∀ ref ∈ node.dataInputs,
        (resolve progress.scope node.name ref =
          match origins.find? (ref.tensorName == ·.key) with
          | some o => .ok o.tensor
          | none => .error (.graph (.missingInput ref.tensorName node.name))) ∧
        (Means registry options source before node.name ref
            (resolve progress.scope node.name ref) ↔
          ∀ o, origins.find? (ref.tensorName == ·.key) = some o →
            Produces registry options source before ⟨ref.node, ref.index, o.tensor⟩) ∧
        (Unambiguous source ref → Means registry options source before node.name ref
          (resolve progress.scope node.name ref)) := by
  have hnames := Source.Graph.nodup_names_of_validate hv ho
  rw [hn, List.map_append, ← List.append_assoc] at hnames
  have hnodup := (List.nodup_append.mp hnames).1
  have hsource : ∀ other ∈ before, other ∈ source.nodes := fun other hm =>
    Source.Graph.mem_nodes_of_mem_ordered (hn ▸ List.mem_append_left _ hm)
  obtain ⟨origins, ht⟩ := exists_trace hp
  exact ⟨lowerGraph_of_progressAfter hv ho hn hp, resolveInputs_eq _ _, origins, ht,
    fun o => ht.mem_iff, fun ref _ =>
      ⟨ht.resolve_eq _ ref, ht.means_iff hnodup _ ref, ht.means_of_unambiguous hnodup hsource _⟩⟩

/-- A node that passes its input on. -/
def passing (name input : String) : Source.Node :=
  ⟨name, "Identity", [input], []⟩

/-- Two nodes in a row. -/
def chain : Source.Graph where
  inputs := [⟨"x", .f32, .fixed [2]⟩]
  nodes := [passing "b" "a:0", passing "a" "x"]
  outputs := ["b"]

/-- The second node gets the output of the first one. -/
theorem chain_resolved :
    chain.validate = .ok () ∧ chain.topologicalOrder = .ok [1, 0] ∧
    ∃ progress, progressAfter .standard {} chain [passing "a" "x"] = .ok progress ∧
      ∀ ref ∈ (passing "b" "a:0").dataInputs, Means .standard {} chain [passing "a" "x"] "b" ref
        (resolve progress.scope "b" ref) := by
  have hv : chain.validate = .ok () := by decide +kernel
  have ho : chain.topologicalOrder = .ok [1, 0] := by decide +kernel
  refine ⟨hv, ho, ?_⟩
  cases hp : progressAfter .standard {} chain [passing "a" "x"] with
  | error e =>
    have hok : (progressAfter .standard {} chain [passing "a" "x"]).isOk = true := by
      decide +kernel
    rw [hp] at hok
    cases hok
  | ok progress =>
    obtain ⟨-, -, origins, -, -, h⟩ := resolve_exact hv ho
      (show chain.ordered [1, 0] = [passing "a" "x"] ++ passing "b" "a:0" :: [] from rfl) hp
    refine ⟨progress, rfl, fun ref hr => (h ref hr).2.2 (unambiguous_of_no_colon ?_ ?_)⟩
    · decide +kernel
    · revert ref
      decide +kernel

/-- An input whose name is that of a later output of a node. -/
def clash : Source.Graph where
  inputs := [⟨"x", .f32, .fixed [2]⟩, ⟨"a:1", .f32, .fixed [3]⟩]
  nodes := [passing "a" "x", passing "b" "a:1"]
  outputs := ["b"]

/-- The reference to output 1 of the node `a`, which has only one output, gets the input. -/
theorem clash_misresolved :
    clash.validate = .ok () ∧ clash.topologicalOrder = .ok [0, 1] ∧
    clash.ordered [0, 1] = [passing "a" "x"] ++ passing "b" "a:1" :: [] ∧
    (lowerGraph .standard {} clash).map (·.outputs) = .ok [("b", .plain 1)] ∧
    ∃ progress, progressAfter .standard {} clash [passing "a" "x"] = .ok progress ∧
      ⟨"a", 1, false⟩ ∈ (passing "b" "a:1").dataInputs ∧
      resolve progress.scope "b" ⟨"a", 1, false⟩ = .ok (.plain 1) ∧
      ¬Means .standard {} clash [passing "a" "x"] "b" ⟨"a", 1, false⟩
        (resolve progress.scope "b" ⟨"a", 1, false⟩) := by
  refine ⟨by decide +kernel, by decide +kernel, rfl, by decide +kernel, ?_⟩
  have hres : (progressAfter .standard {} clash [passing "a" "x"]).map
      (resolve ·.scope "b" ⟨"a", 1, false⟩) = .ok (.ok (.plain 1)) := by decide +kernel
  have hfirst : (progressAfter .standard {} clash []).map (fun progress =>
      (lowerNode .standard progress.scope progress.graph (passing "a" "x")).1) =
        .ok (.ok [.plain 0]) := by decide +kernel
  cases hp : progressAfter .standard {} clash [passing "a" "x"] with
  | error e => rw [hp] at hres; cases hres
  | ok progress =>
    rw [hp] at hres
    have hr : resolve progress.scope "b" ⟨"a", 1, false⟩ = .ok (.plain 1) := Except.ok.inj hres
    refine ⟨progress, rfl, by decide +kernel, hr, fun hm => ?_⟩
    rw [hr] at hm
    have hproduced := (hm (.plain 1)).mpr rfl
    generalize ho : (⟨"a", 1, .plain 1⟩ : Origin) = o at hproduced
    cases hproduced with
    | input _ _ _ => cases (Origin.mk.inj ho).2.1
    | output hs hb hl hi =>
      obtain ⟨-, rfl, rfl⟩ := Origin.mk.inj ho
      rcases concat_eq_append_cons (show [] ++ [passing "a" "x"] = _ from hs) with
        ⟨rfl, rfl⟩ | ⟨rest, hrest⟩
      · rw [hb] at hfirst
        have hlow := Except.ok.inj hfirst
        dsimp only at hlow
        rw [hl, Except.ok.injEq] at hlow
        rw [hlow] at hi
        cases hi
      · simp at hrest

end TensorLowering.Lowering
