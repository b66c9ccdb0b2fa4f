import TensorLowering.Proofs.Lowering.Alongside
import TensorLowering.Proofs.Lowering.Effects

/-!
# What happens when a node fails

Lowering goes the same way whether failures abort it or are skipped, up to the first node that
fails. There it ends if failures abort, and that failure is the first one that is recorded if they
are skipped. Both ways also differ at the end, where an output of the source graph that was not
produced is an error or left out. `policies_agree` says so of whole runs.
-/

namespace TensorLowering.Lowering

open Dataflow (ValueId Graph Folding)

variable {registry : Registry} {policy : OnFailure} {fold : Folding} {source : Source.Graph}
  {scope : Scope} {g g' : Graph} {node : Source.Node} {nodes : List Source.Node}
  {progress last : Progress} {e : Error} {references : List String}
  {collected : List (String × Lowered)}

/-! ## Nodes -/

theorem step_skip_of_abort (h : progress.step registry .abort node = .ok last) :
    progress.step registry .skip node = .ok last ∧ last.failures = progress.failures := by
  obtain ⟨outputs, g, hl, rfl⟩ := step_abort_eq_ok.mp h
  exact ⟨step_skip_eq_ok.mpr (.inl ⟨outputs, g, hl, rfl⟩), rfl⟩

/-- A step only adds to the failures. -/
theorem prefix_step_skip (h : progress.step registry .skip node = .ok last) :
    progress.failures <+: last.failures := by
  rcases step_skip_eq_ok.mp h with ⟨_, _, -, rfl⟩ | ⟨_, _, -, rfl⟩
  · exact List.prefix_rfl
  · exact List.prefix_append _ _

theorem step_abort_of_skip (h : progress.step registry .skip node = .ok last)
    (hf : last.failures = progress.failures) : progress.step registry .abort node = .ok last := by
  rcases step_skip_eq_ok.mp h with ⟨outputs, g, hl, rfl⟩ | ⟨_, _, -, rfl⟩
  · exact step_abort_eq_ok.mpr ⟨outputs, g, hl, rfl⟩
  · simp at hf

/-- Each of the nodes adds at most one failure, which has its name. -/
theorem exists_failures_foldlM
    (h : nodes.foldlM (Progress.step registry .skip) progress = .ok last) :
    ∃ added, last.failures = progress.failures ++ added ∧
      (added.map (·.node)).Sublist (nodes.map (·.name)) := by
  induction nodes generalizing progress with
  | nil =>
    obtain rfl := Except.ok.inj h
    exact ⟨[], (List.append_nil _).symm, .slnil⟩
  | cons node nodes ih =>
    rw [List.foldlM_cons] at h
    obtain ⟨next, hs, h⟩ := bind_eq_ok.mp h
    obtain ⟨added, hadded, hsub⟩ := ih h
    rcases step_skip_eq_ok.mp hs with ⟨_, _, -, rfl⟩ | ⟨e, _, -, rfl⟩
    · exact ⟨added, hadded, hsub.cons _⟩
    · refine ⟨⟨node.name, node.opType, e⟩ :: added, ?_, hsub.cons_cons _⟩
      rw [hadded, List.append_assoc, List.singleton_append]

theorem prefix_foldlM_skip (h : nodes.foldlM (Progress.step registry .skip) progress = .ok last) :
    progress.failures <+: last.failures := by
  obtain ⟨added, hadded, -⟩ := exists_failures_foldlM h
  exact ⟨added, hadded.symm⟩

/-- No step fails where failures are skipped. -/
theorem exists_foldlM_skip (nodes : List Source.Node) (progress : Progress) :
    ∃ last, nodes.foldlM (Progress.step registry .skip) progress = .ok last := by
  refine (exists_foldlM_eq_ok (P := fun _ => True) (fun progress node _ _ => ?_) trivial).imp
    fun _ h => h.1
  rcases hl : lowerNode registry progress.scope progress.graph node with ⟨_ | outputs, g⟩
  · exact ⟨_, step_skip_eq_ok.mpr (.inr ⟨_, g, hl, rfl⟩), trivial⟩
  · exact ⟨_, step_skip_eq_ok.mpr (.inl ⟨outputs, g, hl, rfl⟩), trivial⟩

/-- What was lowered without failures is lowered alike where they would be skipped. -/
theorem foldlM_skip_of_abort
    (h : nodes.foldlM (Progress.step registry .abort) progress = .ok last) :
    nodes.foldlM (Progress.step registry .skip) progress = .ok last ∧
      last.failures = progress.failures := by
  induction nodes generalizing progress with
  | nil =>
    obtain rfl := Except.ok.inj h
    exact ⟨rfl, rfl⟩
  | cons node nodes ih =>
    rw [List.foldlM_cons] at h ⊢
    obtain ⟨next, hs, h⟩ := bind_eq_ok.mp h
    obtain ⟨hs, hfailures⟩ := step_skip_of_abort hs
    obtain ⟨h, hrest⟩ := ih h
    exact ⟨by rw [hs, ok_bind, h], hrest.trans hfailures⟩

/-- And the other way round: failures are never taken back. -/
theorem foldlM_abort_of_skip (h : nodes.foldlM (Progress.step registry .skip) progress = .ok last)
    (hf : last.failures = progress.failures) :
    nodes.foldlM (Progress.step registry .abort) progress = .ok last := by
  induction nodes generalizing progress with
  | nil => exact h
  | cons node nodes ih =>
    rw [List.foldlM_cons] at h ⊢
    obtain ⟨next, hs, h⟩ := bind_eq_ok.mp h
    have hnext : next.failures = progress.failures :=
      (hf ▸ prefix_foldlM_skip h).eq_of_length_le (prefix_step_skip hs).length_le
    rw [step_abort_of_skip hs hnext, ok_bind]
    exact ih h (hf.trans hnext.symm)

theorem progressAfter_abort_of_skip
    (h : progressAfter registry ⟨.skip, fold⟩ source nodes = .ok last) (hf : last.failures = []) :
    progressAfter registry ⟨.abort, fold⟩ source nodes = .ok last := by
  obtain ⟨⟨scope, g⟩, hi, h⟩ := bind_eq_ok.mp h
  exact bind_eq_ok.mpr ⟨(scope, g), hi, foldlM_abort_of_skip h hf⟩

/-- Where failures abort, the first one does. -/
theorem foldlM_abort_eq_error :
    nodes.foldlM (Progress.step registry .abort) progress = .error e ↔
      ∃ before node after stopped g, nodes = before ++ node :: after ∧
        before.foldlM (Progress.step registry .abort) progress = .ok stopped ∧
        lowerNode registry stopped.scope stopped.graph node = (.error e, g) := by
  constructor
  · intro h
    induction nodes generalizing progress with
    | nil => cases h
    | cons node nodes ih =>
      rw [List.foldlM_cons, bind_eq_error] at h
      rcases h with h | ⟨next, hs, h⟩
      · rw [Progress.step] at h
        rcases hl : lowerNode registry progress.scope progress.graph node with ⟨e' | _, g⟩
        · rw [hl] at h
          obtain rfl := Except.error.inj h
          exact ⟨[], node, nodes, progress, g, rfl, rfl, hl⟩
        · rw [hl] at h
          cases h
      · obtain ⟨before, failing, after, stopped, g, rfl, hb, hl⟩ := ih h
        exact ⟨node :: before, failing, after, stopped, g, rfl,
          by rw [List.foldlM_cons, hs, ok_bind, hb], hl⟩
  · rintro ⟨before, node, after, stopped, g, rfl, hb, hl⟩
    rw [List.foldlM_append, hb, ok_bind, List.foldlM_cons, Progress.step, hl]
    rfl

/-! ## Tensors in scope -/

/-- All tensors in scope are in the graph. -/
def Progress.Present (progress : Progress) : Prop :=
  ∀ entry ∈ progress.scope, entry.2.value < progress.graph.nodes.size

/-- The outputs that a rule returns may be anything; naming them shows that they are there. -/
theorem present_lowerNode {S : Op → Prop} (hrules : registry.All (Rule.Adds S))
    {result : Except Error (List Lowered)}
    (hl : lowerNode registry scope g node = (result, g')) : g.Extends g' ∧
      ∀ outputs, result = .ok outputs → ∀ output ∈ outputs, output.value < g'.nodes.size := by
  have houtcome := nodeOutcome registry scope g node
  rw [hl] at houtcome
  cases houtcome with
  | unresolved _ => exact ⟨.refl g, nofun⟩
  | unknown _ _ => exact ⟨.refl g, nofun⟩
  | failed _ hrule hexec => exact ⟨(grows_of_exec hrules hrule hexec).toExtends, nofun⟩
  | unnamed _ hrule hexec _ => exact ⟨(grows_of_exec hrules hrule hexec).toExtends, nofun⟩
  | lowered _ hrule hexec hnamed =>
    have he := (grows_of_exec hrules hrule hexec).toExtends
    refine ⟨he.trans (alike_of_nameOutputs hnamed).forth, fun outputs ho => ?_⟩
    obtain rfl := Except.ok.inj ho
    exact lt_size_of_nameOutputs he.size_le hnamed

theorem present_step {S : Op → Prop} (hrules : registry.All (Rule.Adds S))
    (hp : progress.Present) (h : progress.step registry .skip node = .ok last) : last.Present := by
  have hold {g : Graph} (he : progress.graph.Extends g) :
      ∀ entry ∈ progress.scope, entry.2.value < g.nodes.size :=
    fun entry hentry => Nat.lt_of_lt_of_le (hp entry hentry) he.size_le
  rcases step_skip_eq_ok.mp h with ⟨outputs, g, hl, rfl⟩ | ⟨e, g, hl, rfl⟩
  · obtain ⟨he, hout⟩ := present_lowerNode hrules hl
    intro entry hentry
    rw [record_scope, List.mem_append, List.map_reverse, List.mem_reverse] at hentry
    rcases hentry with hentry | hentry
    · obtain ⟨o, ho, rfl⟩ := List.mem_map.mp hentry
      obtain ⟨⟨output, index⟩, hi, rfl⟩ := List.mem_map.mp ho
      exact hout outputs rfl output (List.fst_mem_of_mem_zipIdx hi)
    · exact hold he entry hentry
  · exact hold (present_lowerNode hrules hl).1

theorem present_foldlM {S : Op → Prop} (hrules : registry.All (Rule.Adds S)) (hp : progress.Present)
    (h : nodes.foldlM (Progress.step registry .skip) progress = .ok last) : last.Present :=
  of_foldlM (P := Progress.Present) (fun _ _ _ ih _ hs => present_step hrules ih hs) hp h

/-! ## Outputs -/

/-- The reference finds a tensor. -/
def Scope.finds (scope : Scope) (reference : String) : Bool :=
  (scope.lookup (Source.Reference.parse reference).tensorName).isSome

/-- Where failures are skipped, the outputs that there are are collected as if no others were asked
for. -/
theorem collectOutputs_skip (scope : Scope) (references : List String) (g : Graph) :
    collectOutputs .skip scope references g =
      collectOutputs .abort scope (references.filter scope.finds) g := by
  induction references generalizing g with
  | nil => rfl
  | cons reference references ih =>
    rw [List.filter_cons, Scope.finds]
    cases hx : scope.lookup (Source.Reference.parse reference).tensorName with
    | none =>
      rw [collectOutputs.eq_def]
      simp only [hx, ih, Option.isSome_none, Bool.false_eq_true, if_false]
    | some x =>
      rw [collectOutputs.eq_def, collectOutputs.eq_def .abort]
      simp only [hx, ih, Option.isSome_some, if_true]

theorem collectOutputs_skip_of_finds (h : ∀ reference ∈ references, scope.finds reference = true) :
    collectOutputs .skip scope references g = collectOutputs .abort scope references g := by
  rw [collectOutputs_skip, List.filter_eq_self.mpr h]

theorem map_fst_of_collectOutputs_abort
    (h : collectOutputs .abort scope references g = .ok (collected, g')) :
    collected.map (·.1) = references ∧ ∀ reference ∈ references, scope.finds reference = true := by
  induction references generalizing g collected with
  | nil =>
    obtain ⟨rfl, -⟩ := Prod.mk.inj (Except.ok.inj h)
    exact ⟨rfl, nofun⟩
  | cons reference references ih =>
    rcases collectOutputs_cons_eq_ok.mp h with ⟨x, _, others, hx, -, hrest, rfl⟩ | ⟨-, hpolicy, -⟩
    · obtain ⟨hmap, hfinds⟩ := ih hrest
      refine ⟨by rw [List.map_cons, hmap], List.forall_mem_cons.mpr ⟨?_, hfinds⟩⟩
      rw [Scope.finds, hx, Option.isSome_some]
    · cases hpolicy

/-- Outputs that are in the graph are collected, unless one is missing. -/
theorem collectOutputs_abort (references : List String)
    (hp : ∀ entry ∈ scope, entry.2.value < g.nodes.size) :
    match references.find? (!scope.finds ·) with
    | some reference =>
      collectOutputs .abort scope references g = .error (.graph (.missingOutput reference))
    | none => ∃ collected g', collectOutputs .abort scope references g = .ok (collected, g') := by
  induction references generalizing g with
  | nil => exact ⟨[], g, rfl⟩
  | cons reference references ih =>
    rw [List.find?_cons, Scope.finds]
    cases hx : scope.lookup (Source.Reference.parse reference).tensorName with
    | none =>
      rw [collectOutputs.eq_def]
      simp only [hx, Option.isSome_none, Bool.not_false]
    | some x =>
      obtain ⟨before, after, hs, -⟩ := List.lookup_eq_some_iff.mp hx
      have hmem : (_, x) ∈ scope := hs ▸ List.mem_append_right before (.head after)
      obtain ⟨g₁, hadd⟩ := Graph.exists_addOutput (hp (_, x) hmem)
      have halike := Graph.alike_of_addOutput hadd
      have hrest := ih fun entry hentry =>
        Nat.lt_of_lt_of_le (hp entry hentry) halike.forth.size_le
      rw [Option.isSome_some, Bool.not_true]
      dsimp only
      split at hrest <;> rename_i hfind
      · rw [hfind, collectOutputs.eq_def]
        simp only [hx, hadd, hrest, Except.mapError, ok_bind, error_bind]
      · obtain ⟨collected, g', hrest⟩ := hrest
        rw [hfind]
        exact ⟨_, _, collectOutputs_cons_eq_ok.mpr (.inl ⟨x, g₁, _, hx, hadd, hrest, rfl⟩)⟩

/-! ## Whole runs -/

/-- Lowering comes to the nodes, in this order, from this state on. -/
structure Starts (fold : Folding) (source : Source.Graph) (nodes : List Source.Node)
    (first : Progress) : Prop where
  valid : source.validate = .ok ()
  sorted : ∃ order, source.topologicalOrder = .ok order ∧ source.ordered order = nodes
  inputs : ∃ scope g, addInputs { fold := fold } source.inputs = .ok (scope, g) ∧
    first = ⟨g, scope, []⟩

/-- The source graph is not valid or has no order, or an input cannot be added. -/
inductive FailsToStart (fold : Folding) (source : Source.Graph) : Error → Prop where
  | invalid {cause : Source.Error} : source.validate = .error cause →
      FailsToStart fold source (.graph cause)
  | unordered {cause : Source.Error} : source.validate = .ok () →
      source.topologicalOrder = .error cause → FailsToStart fold source (.graph cause)
  | input {order : List Nat} {e : Error} : source.validate = .ok () →
      source.topologicalOrder = .ok order →
      addInputs { fold := fold } source.inputs = .error e → FailsToStart fold source e

/-- All nodes before this one are lowered, and this one fails. -/
inductive StopsAt (registry : Registry) (fold : Folding) (source : Source.Graph) :
    Source.Node → Error → Prop where
  | intro {before after : List Source.Node} {node : Source.Node} {first stopped : Progress}
      {e : Error} {g : Graph} : Starts fold source (before ++ node :: after) first →
      before.foldlM (Progress.step registry .abort) first = .ok stopped →
      lowerNode registry stopped.scope stopped.graph node = (.error e, g) →
      StopsAt registry fold source node e

/-- All nodes are lowered, and this is the first output that was not produced. -/
inductive Lacks (registry : Registry) (fold : Folding) (source : Source.Graph) : String → Prop where
  | intro {nodes : List Source.Node} {first last : Progress} {reference : String} :
      Starts fold source nodes first →
      nodes.foldlM (Progress.step registry .abort) first = .ok last →
      source.outputs.find? (!last.scope.finds ·) = some reference →
      Lacks registry fold source reference

variable {first : Progress} {model : Model}

theorem starts_or_failsToStart (fold : Folding) (source : Source.Graph) :
    (∃ nodes first, Starts fold source nodes first) ∨ ∃ e, FailsToStart fold source e := by
  cases hv : source.validate with
  | error cause => exact .inr ⟨_, .invalid hv⟩
  | ok u =>
    cases ho : source.topologicalOrder with
    | error cause => exact .inr ⟨_, .unordered hv ho⟩
    | ok order =>
      cases hi : addInputs { fold := fold } source.inputs with
      | error e => exact .inr ⟨e, .input hv ho hi⟩
      | ok added => exact .inl ⟨_, _, hv, ⟨order, ho, rfl⟩, added.1, added.2, hi, rfl⟩

theorem FailsToStart.lowerGraph (h : FailsToStart fold source e) (policy : OnFailure) :
    lowerGraph registry ⟨policy, fold⟩ source = .error e := by
  rw [lowerGraph_eq]
  cases h with
  | invalid hv => rw [hv]; rfl
  | unordered hv ho => rw [hv, ho]; rfl
  | input hv ho hi =>
    rw [mapError_eq_ok.mpr hv, ok_bind, mapError_eq_ok.mpr ho, ok_bind, progressAfter, hi]
    rfl

/-- From there on, lowering is a run over the nodes after which the outputs are collected. -/
theorem Starts.lowerGraph (h : Starts fold source nodes first) (policy : OnFailure) :
    lowerGraph registry ⟨policy, fold⟩ source = (do
      let last ← nodes.foldlM (Progress.step registry policy) first
      let (outputs, g) ← collectOutputs policy last.scope source.outputs last.graph
      return ⟨g, outputs, last.failures⟩) := by
  obtain ⟨hv, ⟨order, ho, rfl⟩, scope, g, hi, rfl⟩ := h
  rw [lowerGraph_eq, mapError_eq_ok.mpr hv, ok_bind, mapError_eq_ok.mpr ho, ok_bind, progressAfter,
    hi]
  rfl

theorem Starts.lowerGraph_eq_ok (h : Starts fold source nodes first) {policy : OnFailure} :
    Lowering.lowerGraph registry ⟨policy, fold⟩ source = .ok model ↔ ∃ last outputs g,
      nodes.foldlM (Progress.step registry policy) first = .ok last ∧
      collectOutputs policy last.scope source.outputs last.graph = .ok (outputs, g) ∧
      model = ⟨g, outputs, last.failures⟩ := by
  rw [h.lowerGraph]
  simp only [bind_eq_ok, Prod.exists, pure_eq_ok, Except.ok.injEq, @eq_comm _ model,
    exists_and_left]

theorem starts_of_lowerGraph_eq_ok (h : lowerGraph registry ⟨policy, fold⟩ source = .ok model) :
    ∃ nodes first, Starts fold source nodes first := by
  rcases starts_or_failsToStart fold source with hstarts | ⟨e, hfails⟩
  · exact hstarts
  · cases (hfails.lowerGraph policy).symm.trans h

theorem Starts.failures (h : Starts fold source nodes first) : first.failures = [] := by
  obtain ⟨_, _, -, rfl⟩ := h.inputs
  rfl

theorem Starts.present (h : Starts fold source nodes first) : first.Present := by
  obtain ⟨scope, g, hi, rfl⟩ := h.inputs
  have hplaced : placement.Holds g scope := placement_addInputs hi
  exact fun entry hentry => (hplaced.scope entry hentry).value

/-! ## The first failure -/

theorem StopsAt.abort (h : StopsAt registry fold source node e) :
    lowerGraph registry ⟨.abort, fold⟩ source = .error e := by
  obtain ⟨hstarts, hbefore, hl⟩ := h
  rw [hstarts.lowerGraph, foldlM_abort_eq_error.mpr ⟨_, _, _, _, _, rfl, hbefore, hl⟩, error_bind]

/-- The nodes before it leave no failures, and those after it only add to them. -/
theorem StopsAt.failures (h : StopsAt registry fold source node e)
    (hm : lowerGraph registry ⟨.skip, fold⟩ source = .ok model) :
    ∃ others, model.failures = ⟨node.name, node.opType, e⟩ :: others := by
  obtain ⟨hstarts, hbefore, hl⟩ := h
  obtain ⟨last, _, _, hlast, -, rfl⟩ := hstarts.lowerGraph_eq_ok.mp hm
  obtain ⟨hbefore, hnone⟩ := foldlM_skip_of_abort hbefore
  rw [List.foldlM_append, hbefore, ok_bind, List.foldlM_cons,
    step_skip_eq_ok.mpr (.inr ⟨_, _, hl, rfl⟩), ok_bind, hnone, hstarts.failures] at hlast
  obtain ⟨others, hothers⟩ := prefix_foldlM_skip hlast
  exact ⟨others, hothers.symm⟩

/-- Where rules only add operations, all tensors in scope can be marked as outputs. -/
theorem Starts.exists_model_skip (hrules : registry.All (Rule.Adds fun _ => True))
    (h : Starts fold source nodes first) :
    ∃ model, Lowering.lowerGraph registry ⟨.skip, fold⟩ source = .ok model := by
  obtain ⟨last, hlast⟩ := exists_foldlM_skip nodes first
  have hcollect := collectOutputs_abort (source.outputs.filter last.scope.finds)
    (present_foldlM hrules h.present hlast)
  have hnone : (source.outputs.filter last.scope.finds).find? (!last.scope.finds ·) = none := by
    simp
  rw [hnone] at hcollect
  obtain ⟨collected, g, hc⟩ := hcollect
  exact ⟨_, h.lowerGraph_eq_ok.mpr
    ⟨last, collected, g, hlast, (collectOutputs_skip _ _ _).trans hc, rfl⟩⟩

theorem abort_eq_ok_iff : lowerGraph registry ⟨.abort, fold⟩ source = .ok model ↔
    lowerGraph registry ⟨.skip, fold⟩ source = .ok model ∧ model.failures = [] ∧
      model.outputs.length = source.outputs.length := by
  constructor
  · intro hm
    obtain ⟨nodes, first, hstarts⟩ := starts_of_lowerGraph_eq_ok hm
    obtain ⟨last, collected, g, hlast, hc, rfl⟩ := hstarts.lowerGraph_eq_ok.mp hm
    obtain ⟨hlast, hfailures⟩ := foldlM_skip_of_abort hlast
    obtain ⟨hmap, hfinds⟩ := map_fst_of_collectOutputs_abort hc
    refine ⟨hstarts.lowerGraph_eq_ok.mpr ⟨last, collected, g, hlast, ?_, rfl⟩,
      hfailures.trans hstarts.failures, ?_⟩
    · exact (collectOutputs_skip_of_finds hfinds).trans hc
    · rw [← hmap, List.length_map]
  · rintro ⟨hm, hfailures, hlength⟩
    obtain ⟨nodes, first, hstarts⟩ := starts_of_lowerGraph_eq_ok hm
    obtain ⟨last, collected, g, hlast, hc, rfl⟩ := hstarts.lowerGraph_eq_ok.mp hm
    have hlast := foldlM_abort_of_skip hlast (hfailures.trans hstarts.failures.symm)
    rw [collectOutputs_skip] at hc
    -- As many outputs as references were collected, so none was left out.
    have hall : source.outputs.filter last.scope.finds = source.outputs := by
      refine List.filter_sublist.eq_of_length ?_
      rw [← hlength, ← (map_fst_of_collectOutputs_abort hc).1, List.length_map]
    rw [hall] at hc
    exact hstarts.lowerGraph_eq_ok.mpr ⟨last, collected, g, hlast, hc, rfl⟩

theorem Lacks.abort (hrules : registry.All (Rule.Adds fun _ => True)) {reference : String}
    (h : Lacks registry fold source reference) :
    lowerGraph registry ⟨.abort, fold⟩ source = .error (.graph (.missingOutput reference)) := by
  obtain ⟨hstarts, hlast, hfind⟩ := h
  have hcollect := collectOutputs_abort source.outputs
    (present_foldlM hrules hstarts.present (foldlM_skip_of_abort hlast).1)
  rw [hfind] at hcollect
  rw [hstarts.lowerGraph, hlast, ok_bind, hcollect, error_bind]

/-- From the nodes on, lowering stops at one of them, or an output is missing, or it succeeds. -/
theorem Starts.abort_cases (hrules : registry.All (Rule.Adds fun _ => True))
    (h : Starts fold source nodes first) :
    (∃ node e, StopsAt registry fold source node e) ∨
      (∃ reference, Lacks registry fold source reference) ∨
      ∃ model, Lowering.lowerGraph registry ⟨.abort, fold⟩ source = .ok model := by
  cases hlast : nodes.foldlM (Progress.step registry .abort) first with
  | error e =>
    obtain ⟨before, node, after, stopped, g, rfl, hbefore, hl⟩ := foldlM_abort_eq_error.mp hlast
    exact .inl ⟨node, e, h, hbefore, hl⟩
  | ok last =>
    refine .inr ?_
    cases hfind : source.outputs.find? (!last.scope.finds ·) with
    | some reference => exact .inl ⟨reference, h, hlast, hfind⟩
    | none =>
      have hcollect := collectOutputs_abort source.outputs
        (present_foldlM hrules h.present (foldlM_skip_of_abort hlast).1)
      rw [hfind] at hcollect
      obtain ⟨collected, g, hc⟩ := hcollect
      exact .inr ⟨_, h.lowerGraph_eq_ok.mpr ⟨last, collected, g, hlast, hc, rfl⟩⟩

theorem skip_eq_error_iff (hrules : registry.All (Rule.Adds fun _ => True)) :
    lowerGraph registry ⟨.skip, fold⟩ source = .error e ↔ FailsToStart fold source e := by
  refine ⟨fun he => ?_, fun h => h.lowerGraph .skip⟩
  rcases starts_or_failsToStart fold source with ⟨nodes, first, hstarts⟩ | ⟨e', hfails⟩
  · obtain ⟨model, hm⟩ := hstarts.exists_model_skip hrules
    cases he.symm.trans hm
  · rwa [Except.error.inj (he.symm.trans (hfails.lowerGraph .skip))]

theorem abort_eq_error_iff (hrules : registry.All (Rule.Adds fun _ => True)) :
    lowerGraph registry ⟨.abort, fold⟩ source = .error e ↔
      FailsToStart fold source e ∨ (∃ node, StopsAt registry fold source node e) ∨
        ∃ reference, Lacks registry fold source reference ∧
          e = .graph (.missingOutput reference) := by
  constructor
  · intro he
    rcases starts_or_failsToStart fold source with ⟨nodes, first, hstarts⟩ | ⟨e', hfails⟩
    · refine .inr ?_
      rcases hstarts.abort_cases hrules with ⟨node, e', h⟩ | ⟨reference, h⟩ | ⟨model, hm⟩
      · exact .inl ⟨node, Except.error.inj (he.symm.trans h.abort) ▸ h⟩
      · exact .inr ⟨reference, h, Except.error.inj (he.symm.trans (h.abort hrules))⟩
      · cases he.symm.trans hm
    · exact .inl (Except.error.inj (he.symm.trans (hfails.lowerGraph .abort)) ▸ hfails)
  · rintro (h | ⟨node, h⟩ | ⟨reference, h, rfl⟩)
    · exact h.lowerGraph .abort
    · exact h.abort
    · exact h.abort hrules

/-- Up to the first node that fails it makes no difference whether failures abort or are skipped.
For every registry, all options for folding and every source graph:

* what keeps lowering from getting to the nodes is an error both ways;
* the first node that fails ends lowering with its error if failures abort; if they are skipped and
  rules only add operations, which is all that a builder lets them do, then lowering succeeds and
  that node is the first one recorded, with the same error;
* lowering that aborts ends with a model exactly if skipping ends with that model, without failures
  and with as many outputs as the source graph asks for;
* there are no other errors: lowering that skips failures fails only before the nodes, and lowering
  that aborts also at a node or at an output that was not produced. -/
theorem policies_agree (registry : Registry) (fold : Folding) (source : Source.Graph) :
    (∀ e, FailsToStart fold source e →
      ∀ policy, lowerGraph registry ⟨policy, fold⟩ source = .error e) ∧
    (∀ node e, StopsAt registry fold source node e →
      lowerGraph registry ⟨.abort, fold⟩ source = .error e ∧
      (registry.All (Rule.Adds fun _ => True) → ∃ model others,
        lowerGraph registry ⟨.skip, fold⟩ source = .ok model ∧
          model.failures = ⟨node.name, node.opType, e⟩ :: others)) ∧
    (∀ model, lowerGraph registry ⟨.abort, fold⟩ source = .ok model ↔
      lowerGraph registry ⟨.skip, fold⟩ source = .ok model ∧ model.failures = [] ∧
        model.outputs.length = source.outputs.length) ∧
    (registry.All (Rule.Adds fun _ => True) → ∀ e,
      (lowerGraph registry ⟨.skip, fold⟩ source = .error e ↔ FailsToStart fold source e) ∧
      (lowerGraph registry ⟨.abort, fold⟩ source = .error e ↔
        FailsToStart fold source e ∨ (∃ node, StopsAt registry fold source node e) ∨
          ∃ reference, Lacks registry fold source reference ∧
            e = .graph (.missingOutput reference))) := by
  refine ⟨fun e h policy => h.lowerGraph policy, fun node e h => ⟨h.abort, fun hrules => ?_⟩,
    fun model => abort_eq_ok_iff,
    fun hrules e => ⟨skip_eq_error_iff hrules, abort_eq_error_iff hrules⟩⟩
  obtain ⟨model, hm⟩ : ∃ model, lowerGraph registry ⟨.skip, fold⟩ source = .ok model := by
    obtain ⟨hstarts, -, -⟩ := h
    exact hstarts.exists_model_skip hrules
  obtain ⟨others, hothers⟩ := h.failures hm
  exact ⟨model, others, hm, hothers⟩

/-- The selection fails after two nodes were lowered, and is the first failure that is recorded. -/
theorem halfway_stops : ∃ e model others,
    StopsAt .standard {} halfway countedChoice e ∧
    lowerGraph .standard ⟨.abort, {}⟩ halfway = .error e ∧
    lowerGraph .standard ⟨.skip, {}⟩ halfway = .ok model ∧
    model.failures = ⟨"chosen", "Select", e⟩ :: others := by
  have hrun : (do
      let added ← addInputs {} halfway.inputs
      let stopped ← [passing "same" "z", ⟨"sum", "Add", ["same", "z"], []⟩].foldlM
        (Progress.step .standard .abort) ⟨added.2, added.1, []⟩
      return (lowerNode .standard stopped.scope stopped.graph countedChoice).1.isOk) =
        .ok false := by decide +kernel
  obtain ⟨⟨scope, g⟩, hi, hrun⟩ := bind_eq_ok.mp hrun
  obtain ⟨stopped, hbefore, hrun⟩ := bind_eq_ok.mp hrun
  have hstarts : Starts {} halfway _ ⟨g, scope, []⟩ :=
    ⟨by decide +kernel, ⟨[2, 3, 1, 0], by decide +kernel, rfl⟩, scope, g, hi, rfl⟩
  rcases hl : lowerNode .standard stopped.scope stopped.graph countedChoice with ⟨e | _, g'⟩
  · have hstops : StopsAt .standard {} halfway countedChoice e := ⟨hstarts, hbefore, hl⟩
    obtain ⟨habort, hskip⟩ := (policies_agree .standard {} halfway).2.1 _ e hstops
    obtain ⟨model, others, hm, hfailures⟩ :=
      hskip (adds_standard.imp fun _ h => h.imp fun _ _ => trivial)
    exact ⟨e, model, others, hstops, habort, hm, hfailures⟩
  · rw [hl] at hrun
    cases hrun

end TensorLowering.Lowering
