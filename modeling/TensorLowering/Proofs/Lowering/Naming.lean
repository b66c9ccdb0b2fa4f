import TensorLowering.Proofs.Dataflow.Names
import TensorLowering.Proofs.Lowering.Effects
import TensorLowering.Proofs.Lowering.Scope

/-!
# Finding source nodes by name

The graph is searched for names in the order in which its nodes were added, and nothing keeps their
names apart. A run that does not abort names them in three ways (`names_of_progressAfter`): after an
input, after a source node that made the value its output, or with a name that is put together, as
the mark of a complex input or as a helper of a source node (`Auxiliary`). The names of the first
two kinds differ in a valid graph. So looking up a source node finds its output unless an auxiliary
name was the same before (`source_names_found`).
-/

namespace TensorLowering.Lowering

open Dataflow (ValueId Graph Folding)

variable {g g' : Graph} {scope : Scope} {node : Source.Node} {nodes : List Source.Node}
  {source : Source.Graph} {fold : Folding} {progress : Progress} {id : ValueId} {name : String}

/-- A helper has a longer name than the node that it helps. -/
theorem length_lt_helperName (name : String) (op : Op) (number : Nat) :
    name.length < (helperName name op number).length := by
  have hslash : (toString "/").length = 1 := rfl
  simp only [helperName, String.length_append]
  omega

/-! ## Inputs -/

/-- The name of the mark of a complex input. -/
def markName (input : String) : String :=
  input ++ "/complex"

/-- How the graph is named after the inputs were added: each value is called like an input, or it is
the mark of a complex one. -/
structure NamesInputs (inputs : List Source.Input) (scope : Scope) (g : Graph) : Prop where
  mark : ∀ name value, (name, .complex value) ∈ scope →
    g.name? value.marker = some (markName name)
  named : ∀ id name, g.name? id = some name → name ∈ inputs.map (·.name) ∨
    ∃ input ∈ inputs, input.dtype.isComplex = true ∧
      ∃ value, (input.name, .complex value) ∈ scope ∧ value.marker = id

/-- Values that were named before are as they were; what is left are the new ones. -/
theorem NamesInputs.add {inputs : List Source.Input} {input : Source.Input} {x : Lowered}
    (h : NamesInputs inputs scope g)
    (hkeep : ∀ id name, g.name? id = some name → g'.name? id = some name)
    (hmark : ∀ value, x = .complex value → g'.name? value.marker = some (markName input.name))
    (hnew : ∀ id name, g'.name? id = some name → g.name? id = some name ∨ name = input.name ∨
      input.dtype.isComplex = true ∧ ∃ value, x = .complex value ∧ value.marker = id) :
    NamesInputs (inputs ++ [input]) ((input.name, x) :: scope) g' where
  mark name value hmem := by
    rcases List.mem_cons.mp hmem with heq | hmem
    · obtain ⟨rfl, rfl⟩ := Prod.mk.inj heq
      exact hmark value rfl
    · exact hkeep _ _ (h.mark name value hmem)
  named id name hname := by
    rcases hnew id name hname with hold | rfl | ⟨hcomplex, value, rfl, hid⟩
    · rcases h.named id name hold with hinput | ⟨other, hother, hcomplex, value, hmem, hid⟩
      · exact .inl (by simp [hinput])
      · exact .inr ⟨other, List.mem_append_left _ hother, hcomplex, value, .tail _ hmem, hid⟩
    · exact .inl (by simp)
    · exact .inr ⟨input, by simp, hcomplex, value, .head _, hid⟩

theorem NamesInputs.addInput {inputs : List Source.Input} {input : Source.Input} {x : Lowered}
    (h : NamesInputs inputs scope g) (hadd : addInput g input = .ok (x, g')) :
    NamesInputs (inputs ++ [input]) ((input.name, x) :: scope) g' := by
  cases addInput_eq_ok.mp hadd with
  | real _ _ hparameter =>
    refine h.add (fun id name hold => ?_) nofun fun id name hnew => ?_
    · exact (Graph.name?_of_addParameter hparameter).mpr (.inl hold)
    · exact ((Graph.name?_of_addParameter hparameter).mp hnew).imp_right fun hnew => .inl hnew.2
  | complex hpart _ hparameter hmark =>
    refine h.add (fun id name hold => ?_) (fun value hvalue => ?_) fun id name hnew => ?_
    · have hpacked := (Graph.name?_of_addParameter hparameter).mpr (.inl hold)
      exact (Graph.name?_of_add hmark).mpr (.inl hpacked)
    · obtain rfl := Lowered.complex.inj hvalue
      exact (Graph.name?_of_add hmark).mpr (.inr ⟨rfl, rfl⟩)
    · rcases (Graph.name?_of_add hmark).mp hnew with hnew | ⟨rfl, -⟩
      · exact ((Graph.name?_of_addParameter hparameter).mp hnew).imp_right fun hnew => .inl hnew.2
      · exact .inr (.inr ⟨by rw [Source.DataType.isComplex, hpart]; rfl, _, rfl, rfl⟩)

theorem names_of_addInputs {inputs : List Source.Input}
    (h : addInputs { fold := fold } inputs = .ok (scope, g)) : NamesInputs inputs scope g := by
  induction inputs using List.reverseRecOn generalizing scope g with
  | nil =>
    obtain ⟨rfl, rfl⟩ := Prod.mk.inj (Except.ok.inj h)
    exact ⟨by simp, by simp [Graph.name?]⟩
  | append_singleton inputs input ih =>
    obtain ⟨_, _, _, _, hi, hadd, hr⟩ := addInputs_concat.mp h
    obtain ⟨rfl, rfl⟩ := Prod.mk.inj hr
    exact (ih hi).addInput hadd

/-! ## Source nodes -/

/-- How the graph is named after a source node was lowered to a tensor: its value is called like the
node if it is new, and the other new values like helpers of the node, in the order in which they
were added. -/
structure NamesNode (g : Graph) (node : Source.Node) (x : Lowered) (g' : Graph) : Prop where
  output : g.nodes.size ≤ x.value → g'.name? x.value = some node.name
  helper : ∀ id added, g.nodes.size ≤ id → id ≠ x.value → g'.nodes[id]? = some added →
    added.name = helperName node.name added.op (id - g.nodes.size)

theorem names_of_lowerNode {x : Lowered}
    (h : lowerNode .standard scope g node = (.ok [x], g')) : NamesNode g node x g' := by
  obtain ⟨inputs, rule, builder, -, hrule, hexec, hnamed⟩ := lowerNode_eq_ok.mp h
  have hanswers := (checksFirst_standard True).of_find? hrule ⟨node, inputs⟩
    ⟨g, node.name, node.opType, 0⟩ (fun _ _ _ => trivial) fun _ => trivial
  rw [Answers, hexec] at hanswers
  have hhelper : ∀ id added, g.nodes.size ≤ id → builder.graph.nodes[id]? = some added →
      added.name = helperName node.name added.op (id - g.nodes.size) := by
    intro id added hid hadded
    have hnumbered := hanswers.numbered id added hid hadded
    rwa [Nat.zero_add] at hnumbered
  rw [nameOutputs, List.zipIdx_singleton, List.foldlM_cons] at hnamed
  obtain ⟨named, hstep, hnamed⟩ := bind_eq_ok.mp hnamed
  obtain rfl := Except.ok.inj hnamed
  dsimp only at hstep
  split at hstep
  · obtain ⟨houtput, hothers⟩ := Graph.rename_spec (mapError_eq_ok.mp hstep)
    refine ⟨fun _ => houtput, fun id added hid hne hadded => hhelper id added hid ?_⟩
    rwa [hothers id hne] at hadded
  · rename_i hold
    obtain rfl := Except.ok.inj hstep
    exact ⟨fun hnew => absurd hnew hold, fun id added hid _ => hhelper id added hid⟩

/-- In the run over the nodes, the node is lowered to the tensor, from the first graph on to the
second. -/
inductive LowersTo (fold : Folding) (source : Source.Graph) (nodes : List Source.Node) :
    Source.Node → Lowered → Graph → Graph → Prop where
  | intro {before after : List Source.Node} {node : Source.Node} {progress : Progress}
      {x : Lowered} {g : Graph} :
      nodes = before ++ node :: after →
      progressAfter .standard ⟨.abort, fold⟩ source before = .ok progress →
      lowerNode .standard progress.scope progress.graph node = (.ok [x], g) →
      LowersTo fold source nodes node x progress.graph g

/-- Lowering the node creates the value that is its output. -/
inductive Creates (fold : Folding) (source : Source.Graph) (nodes : List Source.Node) :
    Source.Node → ValueId → Prop where
  | intro {node : Source.Node} {x : Lowered} {g g' : Graph} :
      LowersTo fold source nodes node x g g' → g.nodes.size ≤ x.value →
      Creates fold source nodes node x.value

/-- The values that get a name which is put together: the marks of complex inputs, and what is added
for a source node besides its output. -/
inductive Auxiliary (fold : Folding) (source : Source.Graph) (nodes : List Source.Node) :
    ValueId → String → Prop where
  | mark {scope : Scope} {g : Graph} {input : Source.Input} {value : ComplexValue} :
      addInputs { fold := fold } source.inputs = .ok (scope, g) →
      input ∈ source.inputs → input.dtype.isComplex = true →
      (input.name, .complex value) ∈ scope →
      Auxiliary fold source nodes value.marker (markName input.name)
  | helper {node : Source.Node} {x : Lowered} {g g' : Graph} {id : ValueId}
      {added : Dataflow.Node} :
      LowersTo fold source nodes node x g g' →
      g.nodes.size ≤ id → id ≠ x.value → g'.nodes[id]? = some added →
      Auxiliary fold source nodes id (helperName node.name added.op (id - g.nodes.size))

section Run

variable {x x' : Lowered} {last : Progress} {more : List Source.Node}

theorem LowersTo.append (h : LowersTo fold source nodes node x g g') :
    LowersTo fold source (nodes ++ more) node x g g' := by
  obtain ⟨rfl, hb, hl⟩ := h
  exact ⟨List.append_assoc .., hb, hl⟩

theorem Creates.append (h : Creates fold source nodes node id) :
    Creates fold source (nodes ++ more) node id := by
  obtain ⟨hl, hnew⟩ := h
  exact ⟨hl.append, hnew⟩

theorem Auxiliary.append (h : Auxiliary fold source nodes id name) :
    Auxiliary fold source (nodes ++ more) id name := by
  cases h with
  | mark hi hinput hcomplex hmem => exact .mark hi hinput hcomplex hmem
  | helper hl hid hne hadded => exact .helper hl.append hid hne hadded

theorem LowersTo.mem (h : LowersTo fold source nodes node x g g') : node ∈ nodes := by
  obtain ⟨rfl, -, -⟩ := h
  simp

/-- Where names differ, a node is lowered once. -/
theorem LowersTo.unique {node' : Source.Node} {g₁ g₁' : Graph}
    (hn : (nodes.map (·.name)).Nodup) (h : LowersTo fold source nodes node x g g')
    (h' : LowersTo fold source nodes node' x' g₁ g₁') (hname : node.name = node'.name) :
    x = x' := by
  obtain ⟨hs, hb, hl⟩ := h
  obtain ⟨hs', hb', hl'⟩ := h'
  obtain ⟨rfl, rfl⟩ := split_unique hn hs hs' hname
  obtain rfl := Except.ok.inj (hb.symm.trans hb')
  obtain ⟨hx, -⟩ := Prod.mk.inj (hl.symm.trans hl')
  exact List.singleton_inj.mp (Except.ok.inj hx)

/-- A run over nodes lowers each of them on the way. -/
theorem progressAfter_append_cons {before after : List Source.Node}
    (hlast : progressAfter .standard ⟨.abort, fold⟩ source (before ++ node :: after) = .ok last) :
    ∃ progress outputs g, progressAfter .standard ⟨.abort, fold⟩ source before = .ok progress ∧
      lowerNode .standard progress.scope progress.graph node = (.ok outputs, g) ∧
      g.Appended last.graph := by
  obtain ⟨progress, hb, hrest⟩ := progressAfter_append.mp hlast
  rw [List.foldlM_cons] at hrest
  obtain ⟨next, hstep, hrest⟩ := bind_eq_ok.mp hrest
  obtain ⟨outputs, g, hl, rfl⟩ := step_abort_eq_ok.mp hstep
  exact ⟨progress, outputs, g, hb, hl, appended_foldlM adds_standard hrest⟩

/-- The rest of the run only appends. -/
theorem LowersTo.appended (h : LowersTo fold source nodes node x g g')
    (hlast : progressAfter .standard ⟨.abort, fold⟩ source nodes = .ok last) :
    g'.Appended last.graph := by
  obtain ⟨rfl, hb, hl⟩ := h
  obtain ⟨progress, outputs, _, hb', hl', happended⟩ := progressAfter_append_cons hlast
  obtain rfl := Except.ok.inj (hb.symm.trans hb')
  obtain ⟨-, rfl⟩ := Prod.mk.inj (hl.symm.trans hl')
  exact happended

theorem exists_lowersTo (hlast : progressAfter .standard ⟨.abort, fold⟩ source nodes = .ok last)
    (hnode : node ∈ nodes) : ∃ x g g', LowersTo fold source nodes node x g g' := by
  obtain ⟨before, after, rfl⟩ := List.append_of_mem hnode
  obtain ⟨progress, outputs, g, hb, hl, -⟩ := progressAfter_append_cons hlast
  obtain ⟨x, rfl⟩ := exists_of_lowerNode_eq_ok (tagging_progressAfter hb) hl
  exact ⟨x, progress.graph, g, rfl, hb, hl⟩

theorem Creates.name? (h : Creates fold source nodes node id)
    (hlast : progressAfter .standard ⟨.abort, fold⟩ source nodes = .ok last) :
    last.graph.name? id = some node.name := by
  obtain ⟨hlowers, hnew⟩ := h
  have happended := hlowers.appended hlast
  obtain ⟨-, -, hl⟩ := hlowers
  exact happended.name?_eq_some ((names_of_lowerNode hl).output hnew)

theorem Auxiliary.name? (h : Auxiliary fold source nodes id name)
    (hlast : progressAfter .standard ⟨.abort, fold⟩ source nodes = .ok last) :
    last.graph.name? id = some name := by
  cases h with
  | @mark _ g input value hi _ _ hmem =>
    obtain ⟨⟨scope, g'⟩, hi', hrest⟩ := bind_eq_ok.mp hlast
    obtain ⟨rfl, rfl⟩ := Prod.mk.inj (Except.ok.inj (hi.symm.trans hi'))
    have happended := appended_foldlM adds_standard hrest
    exact happended.name?_eq_some ((names_of_addInputs hi).mark input.name value hmem)
  | @helper _ _ _ _ _ added hlowers hid hne hadded =>
    have happended := hlowers.appended hlast
    obtain ⟨-, -, hl⟩ := hlowers
    have hname := (names_of_lowerNode hl).helper id added hid hne hadded
    exact happended.name?_eq_some (Graph.name?_eq_some.mpr ⟨added, hadded, hname⟩)

/-- Where an auxiliary name comes from. -/
theorem Auxiliary.name_eq (h : Auxiliary fold source nodes id name) :
    (∃ input ∈ source.inputs, input.dtype.isComplex = true ∧ name = markName input.name) ∨
      ∃ node ∈ nodes, ∃ op number, name = helperName node.name op number := by
  cases h with
  | mark _ hinput hcomplex _ => exact .inl ⟨_, hinput, hcomplex, rfl⟩
  | helper hlowers _ _ _ => exact .inr ⟨_, hlowers.mem, _, _, rfl⟩

/-- At every state each value is called like an input, or like the source node that created it, or
it has an auxiliary name. By induction on the nodes from the last one on: lowering it leaves the
names before it alone. -/
theorem names_of_progressAfter
    (hlast : progressAfter .standard ⟨.abort, fold⟩ source nodes = .ok last)
    (hname : last.graph.name? id = some name) :
    name ∈ source.inputs.map (·.name) ∨
      (∃ node, Creates fold source nodes node id ∧ node.name = name) ∨
      Auxiliary fold source nodes id name := by
  induction nodes using List.reverseRecOn generalizing last with
  | nil =>
    obtain ⟨scope, g, hi, rfl⟩ := progressAfter_nil.mp hlast
    have hnames := names_of_addInputs hi
    rcases hnames.named id name hname with hinput | ⟨input, hinput, hcomplex, value, hmem, rfl⟩
    · exact .inl hinput
    · obtain rfl := Option.some.inj (hname.symm.trans (hnames.mark _ value hmem))
      exact .inr (.inr (.mark hi hinput hcomplex hmem))
  | append_singleton nodes node ih =>
    obtain ⟨before, hb, hstep⟩ := progressAfter_concat.mp hlast
    obtain ⟨outputs, g, hl, rfl⟩ := step_abort_eq_ok.mp hstep
    obtain ⟨x, rfl⟩ := exists_of_lowerNode_eq_ok (tagging_progressAfter hb) hl
    have hlowers : LowersTo fold source (nodes ++ [node]) node x before.graph g := ⟨rfl, hb, hl⟩
    rcases Nat.lt_or_ge id before.graph.nodes.size with hold | hnew
    · have happended := appended_lowerNode adds_standard before.scope before.graph node
      rw [hl] at happended
      have hbefore := (happended.name? hold).symm.trans hname
      rcases ih hb hbefore with hinput | ⟨other, hcreates, hother⟩ | haux
      · exact .inl hinput
      · exact .inr (.inl ⟨other, hcreates.append, hother⟩)
      · exact .inr (.inr haux.append)
    · obtain ⟨added, hadded, rfl⟩ := Graph.name?_eq_some.mp hname
      by_cases hid : id = x.value
      · subst hid
        have houtput := (names_of_lowerNode hl).output hnew
        have hcalled := Option.some.inj (houtput.symm.trans hname)
        exact .inr (.inl ⟨node, ⟨hlowers, hnew⟩, hcalled⟩)
      · rw [(names_of_lowerNode hl).helper id added hnew hid hadded]
        exact .inr (.inr (.helper hlowers hnew hid hadded))

/-- Where the names of inputs and nodes differ, only auxiliary values are called like the output of
a source node. -/
theorem Creates.eq_or_auxiliary {v : ValueId} (h : Creates fold source nodes node id)
    (hn : (source.inputs.map (·.name) ++ nodes.map (·.name)).Nodup)
    (hlast : progressAfter .standard ⟨.abort, fold⟩ source nodes = .ok last)
    (hname : last.graph.name? v = some node.name) :
    v = id ∨ Auxiliary fold source nodes v node.name := by
  obtain ⟨-, hnodes, hdisjoint⟩ := List.nodup_append.mp hn
  obtain ⟨hlowers, -⟩ := h
  rcases names_of_progressAfter hlast hname with hinput | ⟨other, ⟨hother, -⟩, hsame⟩ | haux
  · exact absurd rfl (hdisjoint _ hinput _ (List.mem_map_of_mem hlowers.mem))
  · rw [hlowers.unique hnodes hother hsame.symm]
    exact .inl rfl
  · exact .inr haux

/-- What a run lowers a node to tells whether the node creates its output. -/
theorem creates_of_run (before : List Source.Node) {after : List Source.Node} (start : Nat)
    (x : Lowered) (hs : nodes = before ++ node :: after)
    (h : (progressAfter .standard ⟨.abort, fold⟩ source before).map (fun progress =>
      (progress.graph.nodes.size, (lowerNode .standard progress.scope progress.graph node).1)) =
        .ok (start, .ok [x]))
    (hnew : start ≤ x.value) : Creates fold source nodes node x.value := by
  obtain ⟨progress, hb, hrun⟩ := map_eq_ok.mp h
  obtain ⟨rfl, houtputs⟩ := Prod.mk.inj hrun
  exact ⟨⟨hs, hb, Prod.ext houtputs rfl⟩, hnew⟩

end Run

/-! ## Whole graphs -/

/-- What looking up a source node finds that creates its output. The output is called like the node;
what else is called so has an auxiliary name. The first of them is found, which is the output where
the name of the node is none that could be put together. -/
structure FoundAs (fold : Folding) (source : Source.Graph) (nodes : List Source.Node) (g : Graph)
    (node : Source.Node) (id : ValueId) : Prop where
  named : g.name? id = some node.name
  only : ∀ v, g.name? v = some node.name → v = id ∨ Auxiliary fold source nodes v node.name
  found : ∃ found ≤ id, g.findByName node.name = .ok found ∧
    (found = id ∨ Auxiliary fold source nodes found node.name) ∧
    ∀ earlier < found, ¬Auxiliary fold source nodes earlier node.name
  apart : (∀ input ∈ source.inputs, input.dtype.isComplex = true →
      node.name ≠ markName input.name) →
    (∀ other ∈ source.nodes, other ≠ node → ∀ op number,
      node.name ≠ helperName other.name op number) →
    g.findByName node.name = .ok id

theorem name?_of_collectOutputs {policy : OnFailure} {references : List String}
    {collected : List (String × Lowered)}
    (h : collectOutputs policy scope references g = .ok (collected, g')) (id : ValueId) :
    g'.name? id = g.name? id := by
  induction references generalizing g collected with
  | nil =>
    obtain ⟨-, rfl⟩ := Prod.mk.inj (Except.ok.inj h)
    rfl
  | cons reference references ih =>
    rcases collectOutputs_cons_eq_ok.mp h with ⟨_, _, _, -, hadd, hrest, -⟩ | ⟨-, -, hrest⟩
    · rw [ih hrest, Graph.name?_of_addOutput hadd]
    · exact ih hrest

/-- In a graph that is lowered, every node is lowered to a tensor, and auxiliary values have the
names that are put together for them. Looking up a node that creates its output finds the output,
unless an auxiliary name before it is the same: no input and no other source node answers to the
name. -/
theorem source_names_found {model : Model} {order : List Nat}
    (h : lowerGraph .standard ⟨.abort, fold⟩ source = .ok model)
    (ho : source.topologicalOrder = .ok order) :
    (∀ node ∈ source.nodes, ∃ x g g', LowersTo fold source (source.ordered order) node x g g') ∧
    (∀ id name, Auxiliary fold source (source.ordered order) id name →
      model.graph.name? id = some name) ∧
    ∀ node id, Creates fold source (source.ordered order) node id →
      FoundAs fold source (source.ordered order) model.graph node id := by
  obtain ⟨hv, order', last, collected, g, ho', hlast, hcollect, rfl⟩ := lowerGraph_eq_ok.mp h
  obtain rfl := Except.ok.inj (ho.symm.trans ho')
  have hsame := name?_of_collectOutputs hcollect
  have haux : ∀ id name, Auxiliary fold source (source.ordered order) id name →
      g.name? id = some name := fun id name haux => by rw [hsame, haux.name? hlast]
  refine ⟨fun node hnode => ?_, haux, fun node id hcreates => ?_⟩
  · exact exists_lowersTo hlast ((Source.Graph.mem_ordered ho).mpr hnode)
  have hnamed : g.name? id = some node.name := by rw [hsame, hcreates.name? hlast]
  have honly : ∀ v, g.name? v = some node.name →
      v = id ∨ Auxiliary fold source (source.ordered order) v node.name := fun v hname =>
    hcreates.eq_or_auxiliary (Source.Graph.nodup_names_of_validate hv ho) hlast
      ((hsame v).symm.trans hname)
  obtain ⟨found, hle, hfound⟩ := Graph.exists_findByName hnamed
  obtain ⟨hcalled, hfirst⟩ := Graph.findByName_eq_ok.mp hfound
  refine ⟨hnamed, honly, ?_, fun hmarks hhelpers => ?_⟩
  · exact ⟨found, hle, hfound, honly found hcalled, fun earlier hlt hearlier =>
      hfirst earlier hlt (haux _ _ hearlier)⟩
  rcases honly found hcalled with rfl | hfound'
  · exact hfound
  obtain ⟨input, hinput, hcomplex, hname⟩ | ⟨other, hother, op, number, hname⟩ := hfound'.name_eq
  · exact absurd hname (hmarks input hinput hcomplex)
  · have hne : other ≠ node := fun heq => by
      have hlength := length_lt_helperName other.name op number
      rw [← hname, heq] at hlength
      exact Nat.lt_irrefl _ hlength
    have hmem := (Source.Graph.mem_ordered ho).mp hother
    exact absurd hname (hhelpers other hmem hne op number)

/-- One source node is called like a helper of another one, and one like the mark of an input. -/
def shadowed : Source.Graph where
  inputs := [⟨"x", .f32, .fixed [2]⟩, ⟨"z", .complex64, .fixed [2]⟩]
  nodes := [⟨"a", "AddN", ["x", "x", "x"], []⟩, ⟨"a/Add_0", "Add", ["a", "x"], []⟩,
    ⟨"z/complex", "Add", ["x", "x"], []⟩]
  outputs := ["a/Add_0", "z/complex"]

/-- The nodes of the graph in the order in which they are lowered, and the outputs that they create:
the values 3, 5 and 6. -/
theorem creates_shadowed : shadowed.topologicalOrder = .ok [2, 0, 1] ∧
    Creates {} shadowed (shadowed.ordered [2, 0, 1]) ⟨"z/complex", "Add", ["x", "x"], []⟩ 3 ∧
    Creates {} shadowed (shadowed.ordered [2, 0, 1]) ⟨"a", "AddN", ["x", "x", "x"], []⟩ 5 ∧
    Creates {} shadowed (shadowed.ordered [2, 0, 1]) ⟨"a/Add_0", "Add", ["a", "x"], []⟩ 6 := by
  have horder : shadowed.ordered [2, 0, 1] = [⟨"z/complex", "Add", ["x", "x"], []⟩,
    ⟨"a", "AddN", ["x", "x", "x"], []⟩, ⟨"a/Add_0", "Add", ["a", "x"], []⟩] := rfl
  rw [horder]
  refine ⟨by decide +kernel, ?_, ?_, ?_⟩
  · exact creates_of_run [] 3 (.plain 3) rfl (by decide +kernel) (by decide)
  · exact creates_of_run [_] 4 (.plain 5) rfl (by decide +kernel) (by decide)
  · exact creates_of_run [_, _] 6 (.plain 6) rfl (by decide +kernel) (by decide)

/-- The node "a" is found, and what is found for "a/Add_0" is not after its output. -/
theorem shadowed_found : ∃ model, lowerGraph .standard {} shadowed = .ok model ∧
    shadowed.topologicalOrder = .ok [2, 0, 1] ∧ model.graph.findByName "a" = .ok 5 ∧
    FoundAs {} shadowed (shadowed.ordered [2, 0, 1]) model.graph
      ⟨"a/Add_0", "Add", ["a", "x"], []⟩ 6 := by
  obtain ⟨ho, -, ha, hadd⟩ := creates_shadowed
  have hrun : (lowerGraph .standard {} shadowed).map (·.failures) = .ok [] := by decide +kernel
  obtain ⟨model, hm, -⟩ := map_eq_ok.mp hrun
  have hfound := (source_names_found hm ho).2.2
  refine ⟨model, hm, ho, (hfound _ 5 ha).apart (by decide) fun other hother _ op number heq => ?_,
    hfound _ 6 hadd⟩
  have hlength : ∀ node ∈ shadowed.nodes, 1 ≤ node.name.length := by decide
  have hlonger := length_lt_helperName other.name op number
  rw [← heq] at hlonger
  exact Nat.not_lt.mpr (hlength other hother) hlonger

/-- A helper of "a" is found for "a/Add_0", and the mark of the input "z" for "z/complex". -/
theorem shadowed_missed : ∃ model, lowerGraph .standard {} shadowed = .ok model ∧
    shadowed.topologicalOrder = .ok [2, 0, 1] ∧
    (Creates {} shadowed (shadowed.ordered [2, 0, 1]) ⟨"a/Add_0", "Add", ["a", "x"], []⟩ 6 ∧
      model.graph.findByName "a/Add_0" = .ok 4) ∧
    Creates {} shadowed (shadowed.ordered [2, 0, 1]) ⟨"z/complex", "Add", ["x", "x"], []⟩ 3 ∧
      model.graph.findByName "z/complex" = .ok 2 := by
  obtain ⟨ho, hmark, -, hadd⟩ := creates_shadowed
  have hrun : (lowerGraph .standard {} shadowed).map (fun model =>
      (model.graph.findByName "a/Add_0", model.graph.findByName "z/complex")) =
        .ok (.ok 4, .ok 2) := by decide +kernel
  obtain ⟨model, hm, hrun⟩ := map_eq_ok.mp hrun
  obtain ⟨hhelper, hinput⟩ := Prod.mk.inj hrun
  exact ⟨model, hm, ho, ⟨hadd, hhelper⟩, hmark, hinput⟩

end TensorLowering.Lowering
