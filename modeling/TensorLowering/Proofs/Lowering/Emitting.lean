import TensorLowering.Lowering.Registry
import TensorLowering.Proofs.Lowering.Keeps

/-!
# What programs emit

The building blocks of the rules add operations one after the other, none of them a parameter, and
complex marks only where they may; the operations are named after the source node and numbered as
they come (`Numbered`). They fail only where the graph rejects an operation or a question about a
value. `Emits` says so of a run. Whatever adding such operations keeps is then kept
(`Keeps.of_emits`).
-/

namespace TensorLowering

/-- An operation that is no parameter, and a complex mark only where marks may be. -/
def Op.IsEmitted (marks : Prop) : Op → Prop
  | .parameter .. => False
  | .complexMark _ => marks
  | _ => True

theorem Op.IsEmitted.isComplexMark {op : Op} (h : op.IsEmitted False) :
    op.isComplexMark = false := by
  cases op <;> first | rfl | exact h.elim

theorem Op.IsEmitted.of_unmarked {marks : Prop} {op : Op} (h : op.IsEmitted False) :
    op.IsEmitted marks := by
  cases op <;> first | exact h | exact h.elim

namespace Lowering

open Dataflow (ValueId Graph)

variable {α β : Type} {marks : Prop} {b c : Builder} {Q : Graph → α → Prop} {R : Graph → β → Prop}

/-! ## Names -/

/-- The name of the operation of the given number that is added on behalf of a node. -/
def helperName (node : String) (op : Op) (number : Nat) : String :=
  let name := op.name
  node ++ s!"/{name}_{number}"

/-- The operations that the builder's graph does not have are named after the builder's node, with
the numbers that are next in the order in which they were added. -/
def Numbered (b : Builder) (g : Graph) : Prop :=
  ∀ id node, b.graph.nodes.size ≤ id → g.nodes[id]? = some node →
    node.name = helperName b.node node.op (b.counter + (id - b.graph.nodes.size))

theorem Numbered.self (b : Builder) : Numbered b b.graph := fun _ _ hid hnode =>
  absurd (Array.getElem?_eq_some_iff.mp hnode).1 (Nat.not_lt.mpr hid)

theorem Numbered.of_add {op : Op} {inputs : List ValueId} {id : ValueId} {g : Graph}
    (h : b.graph.add (b.nextName op) op inputs = .ok (id, g)) : Numbered b g := by
  obtain ⟨_, _, _, -, -, -, -, rfl, rfl⟩ := Graph.add_eq_ok.mp h
  intro v node hv hnode
  rw [Graph.push_nodes, Array.getElem?_push] at hnode
  split at hnode
  · rename_i hlast
    obtain rfl := Option.some.inj hnode
    rw [hlast, Nat.sub_self]
    rfl
  · exact absurd (Array.getElem?_eq_some_iff.mp hnode).1 (Nat.not_lt.mpr hv)

/-- The numbers go on where a run goes on. -/
theorem Numbered.trans {S : Op → Prop} {g : Graph} (h : Numbered b c.graph)
    (hnode : c.node = b.node)
    (hcounter : c.counter + b.graph.nodes.size = b.counter + c.graph.nodes.size)
    (hg : c.graph.Grows S g) (h' : Numbered c g) : Numbered b g := by
  intro id node hid hn
  rcases Nat.lt_or_ge id c.graph.nodes.size with hlt | hge
  · exact h id node hid (hg.getElem?_of_lt hlt ▸ hn)
  · rw [h' id node hge hn, hnode]
    congr 1
    omega

/-! ## Runs -/

/-- An outcome of a run from the builder: operations were added and numbered on behalf of the same
node, what was returned, if anything was, has the property, and any error is one of the graph. -/
structure Emitted (marks : Prop) (b : Builder) (Q : Graph → α → Prop)
    (outcome : Except Error α × Builder) : Prop where
  grows : b.graph.Grows (Op.IsEmitted marks) outcome.2.graph
  numbered : Numbered b outcome.2.graph
  node : outcome.2.node = b.node
  opType : outcome.2.opType = b.opType
  counter : ∀ a, outcome.1 = .ok a →
    outcome.2.counter + b.graph.nodes.size = b.counter + outcome.2.graph.nodes.size
  post : ∀ a, outcome.1 = .ok a → Q outcome.2.graph a
  error : ∀ e, outcome.1 = .error e → ∃ cause, e = b.error cause

/-- Run from the builder, the program only adds operations. -/
def Emits (marks : Prop) (b : Builder) (program : Build α) (Q : Graph → α → Prop) : Prop :=
  Emitted marks b Q (program.exec b)

namespace Emits

theorem imp {program : Build α} {Q' : Graph → α → Prop} (h : Emits marks b program Q)
    (hq : ∀ g a, b.graph.Extends g → Q g a → Q' g a) : Emits marks b program Q' :=
  { h with post := fun a ha => hq _ a h.grows.toExtends (h.post a ha) }

theorem pure {a : α} (hQ : Q b.graph a) : Emits marks b (pure a) Q where
  grows := .refl
  numbered := .self b
  node := rfl
  opType := rfl
  counter _ _ := rfl
  post _ ha := Except.ok.inj ha ▸ hQ
  error _ he := by cases he

theorem query {read : Graph → Except TensorLowering.Error α}
    (hQ : ∀ a, read b.graph = .ok a → Q b.graph a) : Emits marks b (Build.query read) Q := by
  rw [Emits, Build.exec_query]
  refine ⟨.refl, .self b, rfl, rfl, fun _ _ => rfl, fun a ha => ?_, fun e he => ?_⟩
  · dsimp only at ha
    split at ha
    · obtain rfl := Except.ok.inj ha
      exact hQ _ ‹_›
    · cases ha
  · dsimp only at he
    split at he
    · cases he
    · exact ⟨_, (Except.error.inj he).symm⟩

theorem emit {op : Op} {inputs : List ValueId} (hop : op.IsEmitted marks) :
    Emits marks b (Build.emit op inputs) fun g id => g.Has id op inputs := by
  rw [Emits, Build.exec_emit]
  cases hadd : b.graph.add (b.nextName op) op inputs with
  | ok added =>
    have hsize := Graph.size_of_add hadd
    refine ⟨.add .refl hop hadd, .of_add hadd, rfl, rfl, fun _ _ => ?_, fun id hid => ?_, nofun⟩
    · dsimp only
      omega
    · obtain rfl := Except.ok.inj hid
      exact Graph.has_of_add hadd
  | error cause =>
    exact ⟨.refl, .self b, rfl, rfl, nofun, nofun,
      fun e he => ⟨cause, (Except.error.inj he).symm⟩⟩

/-- Two programs in a row. -/
theorem bind {program : Build α} {next : α → Build β} (h : Emits marks b program Q)
    (hnext : ∀ a c, b.graph.Extends c.graph → Q c.graph a → Emits marks c (next a) R) :
    Emits marks b (program >>= next) R := by
  rw [Emits] at h
  rw [Emits, Build.exec_bind]
  generalize program.exec b = outcome at h
  obtain ⟨_ | a, c⟩ := outcome
  · exact ⟨h.grows, h.numbered, h.node, h.opType, nofun, nofun,
      fun e he => h.error e (congrArg Except.error (Except.error.inj he))⟩
  · have hc := hnext a c h.grows.toExtends (h.post a rfl)
    have hcounter := h.counter a rfl
    refine ⟨h.grows.trans hc.grows, ?_, hc.node.trans h.node, hc.opType.trans h.opType,
      fun y hy => ?_, hc.post, fun e he => ?_⟩
    · exact h.numbered.trans h.node hcounter hc.grows hc.numbered
    · have hcounter' := hc.counter y hy
      dsimp only at hcounter hcounter' ⊢
      omega
    · obtain ⟨cause, rfl⟩ := hc.error e he
      exact ⟨cause, congrArg₂ (Error.node · · (.target cause)) h.node h.opType⟩

/-- A loop that collects results returns one for each element. -/
theorem mapM {f : α → Build β} {xs : List α} (h : ∀ x b, Emits marks b (f x) fun _ _ => True) :
    Emits marks b (xs.mapM f) fun _ ys => ys.length = xs.length := by
  induction xs generalizing b with
  | nil => exact .pure rfl
  | cons x xs ih =>
    rw [List.mapM_cons]
    refine .bind (h x b) fun y _ _ _ => .bind ih fun ys _ _ hys => ?_
    exact .pure (by rw [List.length_cons, List.length_cons, hys])

/-- A loop with an accumulator. -/
theorem foldlM {f : β → α → Build β} {init : β} {xs : List α}
    (h : ∀ y x b, Emits marks b (f y x) fun _ _ => True) :
    Emits marks b (xs.foldlM f init) fun _ _ => True := by
  induction xs generalizing init b with
  | nil => exact .pure trivial
  | cons x xs ih =>
    rw [List.foldlM_cons]
    exact .bind (h init x b) fun _ _ _ _ => ih

/-! ## Operations other than marks -/

theorem emit_unmarked {op : Op} {inputs : List ValueId} (hop : op.IsEmitted False) :
    Emits marks b (Build.emit op inputs) fun g id => g.Unmarked id :=
  .imp (.emit hop.of_unmarked) fun _ _ _ hid => ⟨op, inputs, hid, hop.isComplexMark⟩

theorem constant (value : Tensor) :
    Emits marks b (Build.constant value) fun g id => g.Unmarked id :=
  .emit_unmarked trivial

theorem ints (values : List Int) : Emits marks b (Build.ints values) fun g id => g.Unmarked id :=
  .constant _

theorem int (value : Int) : Emits marks b (Build.int value) fun g id => g.Unmarked id :=
  .constant _

theorem zeroLike (id : ValueId) : Emits marks b (Build.zeroLike id) fun g id => g.Unmarked id :=
  .bind (.query (Q := fun _ _ => True) fun _ _ => trivial) fun _ _ _ _ => .constant _

theorem shapeOf (id : ValueId) : Emits marks b (Build.shapeOf id) fun g id => g.Unmarked id :=
  .emit_unmarked trivial

theorem rankOf (id : ValueId) : Emits marks b (Build.rankOf id) fun g id => g.Unmarked id :=
  .bind (.shapeOf id) fun _ _ _ _ => .shapeOf _

/-! ## Planes -/

theorem planes (value : ComplexValue) : Emits marks b value.planes fun g planes =>
    g.Unmarked planes.real ∧ g.Unmarked planes.imag := by
  unfold ComplexValue.planes
  refine .bind (.int 0) fun realIndex _ _ _ => .bind (.int 1) fun imagIndex _ _ _ => ?_
  refine .bind (.emit_unmarked trivial) fun real _ _ hreal => ?_
  refine .bind (.emit_unmarked trivial) fun imag _ hg himag => ?_
  exact .pure ⟨hreal.mono hg, himag⟩

theorem mul (lhs rhs : Planes) : Emits marks b (lhs.mul rhs) fun _ _ => True := by
  unfold Planes.mul
  repeat refine .bind (.emit_unmarked trivial) fun _ _ _ _ => ?_
  exact .pure trivial

theorem slice (planes : Planes) (axis start count : Nat) :
    Emits marks b (planes.slice axis start count) fun _ _ => True := by
  unfold Planes.slice
  refine .bind (Q := fun _ _ => True) (.query fun _ _ => trivial) fun listed _ _ _ => ?_
  refine .bind (.ints _) fun indices _ _ _ => ?_
  repeat refine .bind (.emit_unmarked trivial) fun _ _ _ _ => ?_
  exact .pure trivial

/-- By induction on the number of slices that are left. -/
theorem multiplyAlong (axis size : Nat) (planes : Planes) :
    Emits marks b (multiplyAlong axis size planes) fun _ _ => True := by
  induction size using Nat.strongRecOn generalizing planes b with
  | ind size ih =>
    rw [Lowering.multiplyAlong]
    split
    · exact .pure trivial
    · rename_i hsize
      have hless : size / 2 + size % 2 < size := by omega
      refine .bind (.slice planes axis _ _) fun lower _ _ _ => ?_
      refine .bind (.slice planes axis _ _) fun upper _ _ _ => ?_
      refine .bind (.mul lower upper) fun folded _ _ _ => ?_
      split
      · refine .bind (.slice planes axis _ _) fun last _ _ _ => ?_
        repeat refine .bind (.emit_unmarked trivial) fun _ _ _ _ => ?_
        exact ih _ hless _
      · exact ih _ hless folded

theorem productByHalving (planes : Planes) (known : List KnownAxis) (keepDims : Bool) :
    Emits marks b (productByHalving planes known keepDims) fun _ _ => True := by
  unfold Lowering.productByHalving
  refine .bind (.foldlM fun planes (k : KnownAxis) _ => .multiplyAlong k.axis k.size planes) ?_
  intro product _ _ _
  split
  · exact .pure trivial
  · repeat refine .bind (.emit_unmarked trivial) fun _ _ _ _ => ?_
    exact .pure trivial

theorem productByAngles (planes : Planes) (axes : ValueId) (keepDims : Bool) :
    Emits marks b (productByAngles planes axes keepDims) fun _ _ => True := by
  unfold Lowering.productByAngles
  repeat refine .bind (.emit_unmarked trivial) fun _ _ _ _ => ?_
  exact .pure trivial

theorem magnitude (planes : Planes) :
    Emits marks b (Rule.magnitude planes) fun g id => g.Unmarked id := by
  unfold Rule.magnitude
  repeat refine .bind (.emit_unmarked trivial) fun _ _ _ _ => ?_
  exact .emit_unmarked trivial

/-! ## Other building blocks -/

/-- The sum of a single value is that value. -/
theorem sum {values : List ValueId} {first : ValueId} :
    Emits marks b (values.foldlM (fun sum value => Build.emit .add [sum, value]) first)
      fun g id => b.graph.Unmarked first → g.Unmarked id := by
  induction values generalizing first b with
  | nil => exact .pure id
  | cons value values ih =>
    rw [List.foldlM_cons]
    exact .bind (.emit_unmarked trivial) fun _ _ _ hsum => ih.imp fun _ _ _ h _ => h hsum

theorem sumOf (node : ResolvedNode) {values : List ValueId} (hne : values ≠ []) :
    Emits marks b (Rule.sumOf node values)
      fun g id => (∀ value ∈ values, b.graph.Unmarked value) → g.Unmarked id := by
  cases values with
  | nil => exact absurd rfl hne
  | cons first others => exact sum.imp fun _ _ _ h hvalues => h (hvalues first (.head others))

theorem padCounts (paddings : ValueId) (isComplex : Bool) :
    Emits marks b (padCounts paddings isComplex) fun _ _ => True := by
  unfold Lowering.padCounts
  refine .bind (.emit_unmarked trivial) fun table _ _ _ => ?_
  refine .bind (.int 0) fun beforeColumn _ _ _ => .bind (.int 1) fun afterColumn _ _ _ => ?_
  repeat refine .bind (.emit_unmarked trivial) fun _ _ _ _ => ?_
  split
  · refine .bind (.ints _) fun untouched _ _ _ => ?_
    repeat refine .bind (.emit_unmarked trivial) fun _ _ _ _ => ?_
    exact .pure trivial
  · exact .pure trivial

theorem storedShape (updates : Lowered) (shape : ValueId) :
    Emits marks b (Rule.storedShape updates shape) fun _ _ => True := by
  unfold Rule.storedShape
  split
  · exact .bind (.ints _) fun _ _ _ _ => .imp (.emit_unmarked trivial) fun _ _ _ _ => trivial
  · exact .pure trivial

theorem extendCondition (condition x : ValueId) :
    Emits marks b (Rule.extendCondition condition x) fun g id => g.Unmarked id := by
  unfold Rule.extendCondition
  refine .bind (.shapeOf _) fun _ _ _ _ => .bind (.shapeOf _) fun _ _ _ _ => ?_
  refine .bind (.rankOf _) fun _ _ _ _ => .bind (.emit_unmarked trivial) fun _ _ _ _ => ?_
  refine .bind (.int 1) fun _ _ _ _ => ?_
  repeat refine .bind (.emit_unmarked trivial) fun _ _ _ _ => ?_
  exact .emit_unmarked trivial

end Emits

/-- Adding any operation that is no complex mark keeps the invariant. -/
def AbsorbsUnmarked (I : Graph → Prop) : Prop :=
  ∀ op : Op, (∀ partType, op ≠ .complexMark partType) →
    ∀ g name inputs id g', I g → g.add name op inputs = .ok (id, g') → I g'

/-- Programs that emit no marks keep such an invariant. -/
theorem Keeps.of_emits {I : Graph → Prop} {program : Build α} (hI : AbsorbsUnmarked I)
    (h : Emits False b program Q) (hb : I b.graph) : Keeps I b program Q where
  grows := h.grows.toExtends
  inv := h.grows.keeps (fun g name op inputs id g' hop =>
    hI op (fun partType hmark => by rw [hmark] at hop; exact hop) g name inputs id g') hb
  post := h.post

end Lowering

end TensorLowering
