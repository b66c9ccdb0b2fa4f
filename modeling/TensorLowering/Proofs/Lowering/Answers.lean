import TensorLowering.Proofs.Lowering.Checks
import TensorLowering.Proofs.Lowering.Emitting
import TensorLowering.Proofs.Lowering.Invariant

/-!
# What rules answer

A rule checks its node first and emits afterwards, whatever the tensors that it is given are. So it
fails in one of two ways: it rejects the node and leaves the graph as it was, or the graph rejects
something (`checksFirst_standard`). Complex marks come about only where an input of the node is
complex or the node makes a complex tensor of real ones. And where the inputs are tagged as the
graph has them, a rule that succeeds returns one tensor that is tagged likewise: a plain one is no
complex mark, and a complex one is a mark with its packed tensor (`answers_standard`).
-/

namespace TensorLowering

/-- The node makes a complex tensor of real ones, or embeds one. -/
def Source.Node.MakesComplex (node : Source.Node) : Prop :=
  node.opType = "Complex" ∨ node.opType = "Const" ∧ ∃ literal,
    node.findAttribute? "value" = some (.tensor literal) ∧ literal.dtype.isComplex = true

namespace Lowering

open Dataflow (ValueId Graph)

/-! ## Tags -/

/-- A plain tensor is no complex mark; a complex one, where marks may be, is a mark with its packed
tensor. -/
def Lowered.Tagged (marks : Prop) (g : Graph) : Lowered → Prop
  | plain value => g.Unmarked value
  | complex value => marks ∧ g.Has value.marker (.complexMark value.partType) [value.packed]

variable {marks : Prop} {g g' : Graph} {node : ResolvedNode} {b : Builder}

/-- So the tag can be read off the graph. -/
theorem Lowered.Tagged.classify {x : Lowered} (h : x.Tagged marks g) :
    Lowered.classify g x.value = .ok x := by
  cases x with
  | plain value =>
    obtain ⟨_, _, ⟨node, hnode, rfl, rfl⟩, hop⟩ := h
    show Lowered.classify g value = .ok (.plain value)
    rw [Lowered.classify, Graph.producer_eq_ok.mpr hnode, ok_bind]
    split
    · rename_i hmark _
      rw [hmark] at hop
      cases hop
    · rfl
  | complex value => exact classify_of_has h.2

theorem Lowered.Tagged.mono {x : Lowered} (h : x.Tagged marks g) (he : g.Extends g') :
    x.Tagged marks g' := by
  cases x with
  | plain value => exact Graph.Unmarked.mono h he
  | complex value => exact ⟨h.1, h.2.mono he⟩

theorem Lowered.Tagged.of_isComplex {x : Lowered} (h : x.Tagged marks g) (hx : x.isComplex = true) :
    marks := by
  cases x with
  | plain value => cases hx
  | complex value => exact h.1

/-- There is one output, and it is tagged as the graph has it. -/
def OneTagged (marks : Prop) (g : Graph) (outputs : List Lowered) : Prop :=
  ∃ output, outputs = [output] ∧ output.Tagged marks g

namespace Emits

theorem single {program : Build Lowered}
    (h : Emits marks b program fun g x => x.Tagged marks g) :
    Emits marks b (do return [← program]) (OneTagged marks) :=
  .bind h fun x _ _ hx => .pure ⟨x, rfl, hx⟩

theorem plain_single {program : Build ValueId}
    (h : Emits marks b program fun g id => g.Unmarked id) :
    Emits marks b (do return [Lowered.plain (← program)]) (OneTagged marks) :=
  .bind h fun id _ _ hid => .pure ⟨.plain id, rfl, hid⟩

theorem markComplex (hm : marks) (packed : ValueId) (partType : ElementType) :
    Emits marks b (markComplex packed partType) fun g x => x.Tagged marks g :=
  .bind (.emit hm) fun _ _ _ hmarker => .pure ⟨hm, hmarker⟩

theorem toComplex (hm : marks) (planes : Planes) (partType : ElementType) :
    Emits marks b (planes.toComplex partType) fun g x => x.Tagged marks g := by
  unfold Planes.toComplex Planes.pack
  simp only [bind_assoc]
  repeat refine .bind (.emit_unmarked trivial) fun _ _ _ _ => ?_
  exact .markComplex hm _ _

theorem complexProduct (hm : marks) (data : ComplexValue) (axes : ValueId) (keepDims : Bool) :
    Emits marks b (complexProduct data axes keepDims) fun g x => x.Tagged marks g := by
  refine .bind (.planes data) fun planes _ _ _ => ?_
  refine .bind (Q := fun _ _ => True) (.query fun _ _ => trivial) fun listed _ _ _ => ?_
  refine .bind (Q := fun _ _ => True) (.query fun _ _ => trivial) fun shape _ _ _ => ?_
  cases knownAxes? listed shape with
  | some known =>
    exact .bind (.productByHalving planes known keepDims) fun _ _ _ _ => .toComplex hm _ _
  | none => exact .bind (.productByAngles planes axes keepDims) fun _ _ _ _ => .toComplex hm _ _

theorem constantPad {data : Lowered} {paddings fill : ValueId}
    (hd : data.isComplex = true → marks) :
    Emits marks b (Rule.constantPad data paddings fill) fun g x => x.Tagged marks g := by
  refine .bind (.padCounts _ _) fun bounds _ _ _ => ?_
  refine .bind (.emit_unmarked trivial) fun padded _ _ hpadded => ?_
  cases data with
  | plain value => exact .pure hpadded
  | complex value => exact .markComplex (hd rfl) _ _

end Emits

/-! ## Checks before emitting -/

variable {α β : Type} {P : Prop} {Q : Graph → α → Prop} {R : Graph → β → Prop}

/-- An outcome of a run from the builder for the node. An error is one of the graph, or the node is
rejected and the graph is as it was. -/
structure Answered (marks : Prop) (node : ResolvedNode) (b : Builder) (Q : Graph → α → Prop)
    (outcome : Except Error α × Builder) : Prop where
  grows : b.graph.Grows (Op.IsEmitted marks) outcome.2.graph
  numbered : Numbered b outcome.2.graph
  post : ∀ a, outcome.1 = .ok a → Q outcome.2.graph a
  error : ∀ e, outcome.1 = .error e →
    (∃ cause, e = b.error cause) ∨ node.Rejects e ∧ outcome.2.graph = b.graph

/-- Run from the builder for the node, the program makes checks before it adds anything. -/
def Answers (marks : Prop) (node : ResolvedNode) (b : Builder) (program : Build α)
    (Q : Graph → α → Prop) : Prop :=
  Answered marks node b Q (program.exec b)

namespace Answers

theorem of_emits {program : Build α} (h : Emits marks b program Q) :
    Answers marks node b program Q :=
  ⟨h.grows, h.numbered, h.post, fun e he => .inl (h.error e he)⟩

theorem imp {program : Build α} {Q' : Graph → α → Prop} (h : Answers marks node b program Q)
    (hq : ∀ g a, Q g a → Q' g a) : Answers marks node b program Q' :=
  { h with post := fun a ha => hq _ a (h.post a ha) }

/-- What always holds of the result holds of it under a condition. -/
theorem always {program : Build α} (h : Emits marks b program Q) :
    Answers marks node b program fun g a => P → Q g a :=
  .imp (.of_emits h) fun _ _ hQ _ => hQ

theorem throw {e : Error} (he : node.Rejects e) : Answers marks node b (throw e : Build α) Q :=
  ⟨.refl, .self b, nofun, fun _ h => .inr ⟨Except.error.inj h ▸ he, rfl⟩⟩

theorem liftM_bind {x : Except Error α} {next : α → Build β} (hx : FailsOnly node.Rejects x)
    (h : ∀ a, x = .ok a → Answers marks node b (next a) R) :
    Answers marks node b ((MonadLiftT.monadLift x : Build α) >>= next) R := by
  rw [Answers, Build.exec_bind, Build.exec_liftM]
  cases x with
  | ok a => exact h a rfl
  | error e =>
    exact ⟨.refl, .self b, nofun, fun _ h => .inr ⟨Except.error.inj h ▸ hx.of_error e rfl, rfl⟩⟩

theorem query_bind {read : Graph → Except TensorLowering.Error α} {next : α → Build β}
    (h : ∀ a, read b.graph = .ok a → Answers marks node b (next a) R) :
    Answers marks node b (Build.query read >>= next) R := by
  rw [Answers, Build.exec_bind, Build.exec_query]
  cases hr : read b.graph with
  | ok a => exact h a hr
  | error cause =>
    exact ⟨.refl, .self b, nofun, fun _ h => .inl ⟨cause, (Except.error.inj h).symm⟩⟩

theorem single {program : Build Lowered}
    (h : Answers marks node b program fun g x => P → x.Tagged marks g) :
    Answers marks node b (do return [← program])
      fun g outputs => P → OneTagged marks g outputs := by
  rw [Answers] at h
  rw [Answers, Build.exec_bind]
  generalize program.exec b = outcome at h
  obtain ⟨_ | x, c⟩ := outcome
  · exact ⟨h.grows, h.numbered, nofun,
      fun e he => h.error e (congrArg Except.error (Except.error.inj he))⟩
  · exact ⟨h.grows, h.numbered, fun _ ho hP => ⟨x, (Except.ok.inj ho).symm, h.post x rfl hP⟩, nofun⟩

/-- The check that a rule begins with. -/
theorem check_bind {minInputs : Nat} {opTypes : List String} {allowComplex : Bool}
    {next : Unit → Build β} (h : node.opType ∈ opTypes → minInputs ≤ node.inputs.length →
      Answers marks node b (next ()) R) :
    Answers marks node b ((MonadLiftT.monadLift (node.check minInputs opTypes allowComplex) :
      Build Unit) >>= next) R :=
  .liftM_bind ResolvedNode.check_fails fun () hc =>
    have ⟨hop, hlen, _⟩ := ResolvedNode.check_eq_ok.mp hc
    h hop hlen

theorem input_bind {index : Nat} {next : Lowered → Build β}
    (h : ∀ x ∈ node.inputs, Answers marks node b (next x) R) :
    Answers marks node b ((MonadLiftT.monadLift (node.input index) : Build Lowered) >>= next) R :=
  .liftM_bind ResolvedNode.input_fails fun x hx => h x (ResolvedNode.mem_of_input hx)

theorem plainInput_bind {index : Nat} {fault : ComplexFault} {next : ValueId → Build β}
    (h : ∀ id, Answers marks node b (next id) R) :
    Answers marks node b
      ((MonadLiftT.monadLift (node.plainInput index fault) : Build ValueId) >>= next) R :=
  .liftM_bind ResolvedNode.plainInput_fails fun id _ => h id

/-- An operation on plain inputs, or on each of the planes of complex ones. -/
theorem planewise {inputs : List Lowered} {operation : List ValueId → Build ValueId}
    (hne : inputs ≠ []) (hsub : inputs ⊆ node.inputs)
    (hin : ∀ x ∈ node.inputs, x.isComplex = true → marks)
    (hop : ∀ values b, values ≠ [] → Emits marks b (operation values)
      fun g id => (∀ value ∈ values, b.graph.Unmarked value) → g.Unmarked id) :
    Answers marks node b (planewise node inputs operation)
      fun g x => (∀ x ∈ node.inputs, x.Tagged marks b.graph) → x.Tagged marks g := by
  refine .liftM_bind ResolvedNode.commonMarking_fails fun marking hm => ?_
  have hof := ResolvedNode.of_commonMarking hm
  cases marking with
  | plain values =>
    obtain rfl : inputs = values.map .plain := hof
    refine .of_emits (.bind (hop values b (by simpa using hne)) fun id _ _ hid => .pure ?_)
    exact fun htagged => hid fun value hv => htagged (.plain value) (hsub (List.mem_map_of_mem hv))
  | complex partType values =>
    obtain ⟨rfl, hvalues, -⟩ := hof
    obtain ⟨first, hfirst⟩ := List.exists_mem_of_ne_nil values hvalues
    have hmarks : marks := hin (.complex first) (hsub (List.mem_map_of_mem hfirst)) rfl
    refine .always (.bind (.mapM fun value _ => (Emits.planes value).imp fun _ _ _ _ => trivial) ?_)
    intro planes _ _ hlen
    have hplanes : planes ≠ [] := by
      rw [← List.length_pos_iff] at hvalues ⊢
      rwa [hlen]
    refine .bind (hop _ _ (by simpa using hplanes)) fun real _ _ _ => ?_
    refine .bind (hop _ _ (by simpa using hplanes)) fun imag _ _ _ => ?_
    exact .toComplex hmarks _ _

end Answers

/-! ## Rules -/

/-- The rule makes its checks before it adds anything. If the inputs are tagged as the graph has
them, it returns one tensor that is tagged likewise. -/
def Rule.ChecksFirst (marks : Prop) (rule : Rule) : Prop :=
  ∀ (node : ResolvedNode) (b : Builder), (∀ x ∈ node.inputs, x.isComplex = true → marks) →
    (node.source.MakesComplex → marks) →
    Lowering.Answers marks node b (rule.lower node) fun g outputs =>
      (∀ x ∈ node.inputs, x.Tagged marks b.graph) → OneTagged marks g outputs

/-- Where the inputs are tagged as the graph has them, the rule makes its checks before it adds
anything and returns one tensor that is tagged likewise. -/
def Rule.Answers (marks : Prop) (rule : Rule) : Prop :=
  ∀ (node : ResolvedNode) (b : Builder), (∀ x ∈ node.inputs, x.Tagged marks b.graph) →
    (node.source.MakesComplex → marks) →
    Lowering.Answers marks node b (rule.lower node) (OneTagged marks)

namespace Rule

open ResolvedNode (rejects_error attr_fails attrD_fails pairMarking_fails of_pairMarking)

theorem addN_checksFirst : addN.ChecksFirst marks := fun node _ hin _ => by
  refine .check_bind fun _ hlen => .single (.planewise ?_ (.refl _) hin ?_)
  · exact List.length_pos_iff.mp hlen
  · exact fun _ _ hne => .sumOf node hne

theorem perPlane_checksFirst (name : String) (opTypes : List String) {op : Op}
    (hop : op.IsEmitted False) : (perPlane name opTypes op).ChecksFirst marks := fun _ _ hin _ => by
  refine .check_bind fun _ _ => .input_bind fun x hx => .input_bind fun y hy => ?_
  refine .single (.planewise (List.cons_ne_nil _ _) ?_ hin fun _ _ _ => ?_)
  · exact List.cons_subset.mpr ⟨hx, List.cons_subset.mpr ⟨hy, List.nil_subset _⟩⟩
  · exact (Emits.emit_unmarked hop).imp fun _ _ _ hid _ => hid

theorem mul_checksFirst : mul.ChecksFirst marks := fun node b hin _ => by
  refine .check_bind fun _ _ => .input_bind fun x hx => .input_bind fun y _ => ?_
  refine .liftM_bind pairMarking_fails fun marking hm => .always ?_
  have hof := of_pairMarking hm
  cases marking with
  | plain x y => exact .plain_single (.emit_unmarked trivial)
  | complex partType x y =>
    obtain ⟨rfl, -, -⟩ := hof
    refine .bind (.planes x) fun lhs _ _ _ => .bind (.planes y) fun rhs _ _ _ => ?_
    exact .bind (.mul lhs rhs) fun _ _ _ _ => .single (.toComplex (hin _ hx rfl) _ _)

theorem complex_checksFirst : complex.ChecksFirst marks := fun node b _ hsource => by
  refine .check_bind fun hop _ => .input_bind fun real _ => .input_bind fun imag _ => ?_
  have hmarks : marks := hsource (.inl (List.mem_singleton.mp hop))
  refine .query_bind fun partType _ => ?_
  split
  · exact .always (.single (.toComplex hmarks _ _))
  · exact .throw (rejects_error _)

theorem real_checksFirst : real.ChecksFirst marks := fun _ _ _ _ => by
  refine .check_bind fun _ _ => .input_bind fun x hx => ?_
  cases x with
  | plain value => exact .of_emits (.pure fun htagged => ⟨.plain value, rfl, htagged _ hx⟩)
  | complex value =>
    exact .always (.bind (.planes value) fun _ _ _ hp => .pure ⟨.plain _, rfl, hp.1⟩)

theorem imag_checksFirst : imag.ChecksFirst marks := fun node b _ _ => by
  refine .check_bind fun _ _ => .input_bind fun x _ => .always ?_
  cases x with
  | plain value =>
    refine .bind (.zeroLike value) fun _ _ _ _ => .bind (.shapeOf value) fun _ _ _ _ => ?_
    exact .plain_single (.emit_unmarked trivial)
  | complex value => exact .bind (.planes value) fun _ _ _ hp => .pure ⟨.plain _, rfl, hp.2⟩

theorem complexAbs_checksFirst : complexAbs.ChecksFirst marks := fun node b _ _ => by
  refine .check_bind fun _ _ => .input_bind fun x _ => ?_
  cases x with
  | plain value => exact .query_bind fun _ _ => .throw (rejects_error _)
  | complex value =>
    exact .always (.bind (.planes value) fun _ _ _ _ => .plain_single (.magnitude _))

theorem pad_checksFirst : pad.ChecksFirst marks := fun node b hin _ => by
  refine .check_bind fun _ _ => .input_bind fun data hd => .plainInput_bind fun paddings => ?_
  exact .always (.bind (.zeroLike _) fun _ _ _ _ => .single (.constantPad (hin data hd)))

theorem padV2_checksFirst : padV2.ChecksFirst marks := fun _ _ hin _ =>
  .check_bind fun _ _ => .input_bind fun data hd => .plainInput_bind fun _ =>
    .plainInput_bind fun _ => .always (.single (.constantPad (hin data hd)))

theorem mirrorPad_checksFirst : mirrorPad.ChecksFirst marks := fun node b _ _ => by
  refine .check_bind fun _ _ => .liftM_bind attr_fails fun text _ => ?_
  refine .liftM_bind ResolvedNode.mirrorMode_fails fun mode _ => ?_
  refine .input_bind fun data _ => .input_bind fun paddings _ => .always ?_
  exact .bind (.padCounts _ _) fun _ _ _ _ => .plain_single (.emit_unmarked trivial)

theorem reduction_checksFirst (name : String) (kind : ReduceKind) :
    (reduction name kind).ChecksFirst marks := fun node b hin _ => by
  refine .check_bind fun _ _ => .liftM_bind attrD_fails fun keepDims _ => ?_
  refine .plainInput_bind fun axes => .input_bind fun data hd => .always ?_
  cases data with
  | plain data => exact .plain_single (.emit_unmarked trivial)
  | complex data => exact .single (.complexProduct (hin _ hd rfl) _ _ _)

theorem scatterNd_checksFirst : scatterNd.ChecksFirst marks := fun node b hin _ => by
  refine .check_bind fun _ _ => .plainInput_bind fun indices => .plainInput_bind fun shape => ?_
  refine .input_bind fun updates hu => .always ?_
  refine .bind (.zeroLike _) fun fill _ _ _ => .bind (.emit_unmarked trivial) fun shape _ _ _ => ?_
  refine .bind (.storedShape _ _) fun target _ _ _ => ?_
  refine .bind (.emit_unmarked trivial) fun zeros _ _ _ => ?_
  refine .bind (.emit_unmarked trivial) fun scattered _ _ hscattered => ?_
  cases updates with
  | plain value => exact .pure ⟨.plain scattered, rfl, hscattered⟩
  | complex value => exact .single (.markComplex (hin _ hu rfl) _ _)

theorem selection_checksFirst (name : String) {prepare : ValueId → ValueId → Build ValueId}
    (hprepare : ∀ condition x b, Emits marks b (prepare condition x) fun _ _ => True) :
    (selection name prepare).ChecksFirst marks := fun node b hin _ => by
  refine .check_bind fun _ _ => .plainInput_bind fun condition => ?_
  refine .input_bind fun x hx => .input_bind fun y _ => ?_
  refine .liftM_bind pairMarking_fails fun marking hm => .always ?_
  have hof := of_pairMarking hm
  cases marking with
  | plain x y =>
    exact .bind (hprepare _ _ _) fun _ _ _ _ => .plain_single (.emit_unmarked trivial)
  | complex partType x y =>
    obtain ⟨rfl, -, -⟩ := hof
    refine .bind (.planes x) fun x _ _ _ => .bind (.planes y) fun y _ _ _ => ?_
    refine .bind (hprepare _ _ _) fun condition _ _ _ => ?_
    refine .bind (.emit_unmarked trivial) fun real _ _ _ => ?_
    refine .bind (.emit_unmarked trivial) fun imag _ _ _ => ?_
    exact .single (.toComplex (hin _ hx rfl) _ _)

theorem const_checksFirst : const.ChecksFirst marks := fun node b _ hsource => by
  refine .check_bind fun hop _ => .liftM_bind attr_fails fun literal hliteral => ?_
  cases Tensor.ofLiteral literal with
  | error cause => exact .throw (rejects_error _)
  | ok value =>
    refine .always (.bind (.constant value) fun id _ _ hid => ?_)
    split
    · rename_i hcomplex
      obtain ⟨found, hfound, hread⟩ := ResolvedNode.attr_eq_ok.mp hliteral
      obtain rfl : found = .tensor literal := by
        cases found <;> cases hread
        rfl
      have hmarks : marks := hsource (.inr ⟨List.mem_singleton.mp hop, literal, hfound, hcomplex⟩)
      exact .single (.markComplex hmarks _ _)
    · exact .pure ⟨.plain id, rfl, hid⟩

theorem identity_checksFirst : identity.ChecksFirst marks := fun _ _ _ _ =>
  .check_bind fun _ _ => .input_bind fun x hx =>
    .of_emits (.pure fun htagged => ⟨x, rfl, htagged x hx⟩)

end Rule

/-- All rules of the library check their node first, whatever its inputs are. -/
theorem checksFirst_standard (marks : Prop) : Registry.standard.All (Rule.ChecksFirst marks) := by
  have hreduction := @Rule.reduction_checksFirst marks
  refine Registry.all_ofRules ⟨Rule.addN_checksFirst, Rule.pad_checksFirst, Rule.padV2_checksFirst,
    Rule.mirrorPad_checksFirst, hreduction _ _, hreduction _ _, hreduction _ _, hreduction _ _,
    hreduction _ _, hreduction _ _, hreduction _ _, hreduction _ _, Rule.scatterNd_checksFirst,
    Rule.selection_checksFirst _ ?_, Rule.selection_checksFirst _ fun _ _ _ => .pure trivial,
    Rule.perPlane_checksFirst _ _ trivial, Rule.perPlane_checksFirst _ _ trivial,
    Rule.mul_checksFirst, Rule.complex_checksFirst, Rule.real_checksFirst, Rule.imag_checksFirst,
    Rule.complexAbs_checksFirst, Rule.const_checksFirst, Rule.identity_checksFirst⟩
  exact fun condition x _ => (Emits.extendCondition condition x).imp fun _ _ _ _ => trivial

/-- All of them return one tensor that is tagged as the graph has it, given such tensors. -/
theorem answers_standard (marks : Prop) : Registry.standard.All (Rule.Answers marks) := by
  refine (checksFirst_standard marks).imp fun rule h node b hin hsource => ?_
  exact (h node b (fun x hx => (hin x hx).of_isComplex) hsource).imp fun _ _ hone => hone hin

end Lowering

end TensorLowering
