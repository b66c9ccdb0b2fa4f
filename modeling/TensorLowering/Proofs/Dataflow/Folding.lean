import TensorLowering.Proofs.Dataflow.Typing

/-!
# Folding is transparent

The same steps build a graph with folding and one without. `Folds` relates the two: they have the
same nodes, but the folded one may know more about a value.

* `Folds.apply`, `Folds.applyAll`: a step, and a list of steps, that succeeds with folding succeeds
  without, and leaves the graphs related;
* `known_eq_compute`: what folding knows about a value is what the operation computes;
* `Folds.meaning`: so a value that has a meaning without folding has the same one with folding;
* `folding_transparent`: the statement about building and evaluating.
-/

namespace TensorLowering.Dataflow

/-- The same operation on the same values, of which the fine node may know more. -/
structure Node.Refines (fine coarse : Node) : Prop where
  name : fine.name = coarse.name
  op : fine.op = coarse.op
  inputs : fine.inputs = coarse.inputs
  operand : fine.operand.Refines coarse.operand

namespace Graph

/-- The graph that steps lead to, and what they return, if all of them succeed. -/
def applyAll (g : Graph) : List BuildStep → Except Error (List (Option ValueId) × Graph)
  | [] => .ok ([], g)
  | step :: steps => do
    let (id, g) ← g.apply step
    let (ids, g) ← g.applyAll steps
    return (id :: ids, g)

/-- The two graphs were built by the same steps; the second one did not fold. -/
structure Folds (folded plain : Graph) : Prop where
  size : folded.nodes.size = plain.nodes.size
  node : ∀ {id : Nat} {fine coarse : Node}, folded.nodes[id]? = some fine →
    plain.nodes[id]? = some coarse → fine.Refines coarse
  consumers : folded.consumers = plain.consumers
  parameters : folded.parameters = plain.parameters
  outputs : folded.outputs = plain.outputs
  disabled : plain.fold.enabled = false

variable {folded plain folded' : Graph} {feeds : Feeds}

theorem Folds.exists_node (h : Folds folded plain) {id : ValueId} {fine : Node}
    (hf : folded.nodes[id]? = some fine) :
    ∃ coarse, plain.nodes[id]? = some coarse ∧ fine.Refines coarse := by
  have hlt : id < plain.nodes.size := h.size ▸ (Array.getElem?_eq_some_iff.mp hf).1
  have hp := Array.getElem?_eq_getElem hlt
  exact ⟨_, hp, h.node hf hp⟩

theorem Folds.empty (fold : Folding) (limit : Nat) :
    Folds { fold := fold } { fold := ⟨false, limit⟩ } :=
  ⟨rfl, fun hf => by simp at hf, rfl, rfl, rfl, rfl⟩

/-! ## Adding a node -/

theorem checkMark_congr {name : String} {op : Op} {fines coarses : List Node}
    (h : List.Forall₂ Node.Refines fines coarses) :
    checkMark name op fines = checkMark name op coarses := by
  cases h with
  | nil => rfl
  | cons hn _ =>
    unfold checkMark
    rw [List.head?_cons, List.head?_cons, Option.any_some, Option.any_some, hn.op]

/-- Without folding only constants have known contents. -/
theorem knownContents_disabled {options : Folding} (h : options.enabled = false) (op : Op)
    (operands : List Operand) (shape : PartialShape) :
    (∃ value, op = .constant value ∧
        knownContents options op operands shape = .ok (some value)) ∨
      knownContents options op operands shape = .ok none := by
  unfold knownContents
  split
  · exact .inl ⟨_, rfl, rfl⟩
  · exact .inr rfl
  · refine .inr ?_
    unfold fold?
    rw [h, if_neg (by simp)]

/-- The new node refines the one that is added without folding. -/
theorem settle_refines {options : Folding} {op : Op} {fines : List Operand}
    {type type' : TensorType} {contents contents' : Option Tensor}
    (hs : ∀ x ∈ fines, x.Settled) (ht : op.infer fines = .ok type) (hr : type.Refines type')
    (hc : knownContents options op fines type.shape = .ok contents)
    (hc' : (∃ value, op = .constant value ∧ contents' = some value) ∨ contents' = none) :
    Operand.Refines ⟨settle type contents, contents⟩ ⟨settle type' contents', contents'⟩ := by
  have hknown : ∀ c, contents = some c → c.type.Refines type ∧ settle type contents = c.type := by
    rintro c rfl
    have h := known_sound hs ht hc
    exact ⟨h, congrArg (TensorType.mk · (.fixed c.shape)) h.elementType.symm⟩
  refine ⟨?_, fun value hv => ?_, fun c h => (hknown c h).2⟩
  · show (settle type contents).Refines (settle type' contents')
    rcases hc' with ⟨value, rfl, rfl⟩ | rfl
    · obtain rfl := Except.ok.inj hc
      exact ⟨hr.elementType, .refl _⟩
    · cases contents with
      | none => exact hr
      | some c =>
        rw [(hknown c rfl).2]
        exact (hknown c rfl).1.trans hr
  · rcases hc' with ⟨value', rfl, rfl⟩ | rfl
    · rw [← hv]
      exact (Except.ok.inj hc).symm
    · cases hv

theorem Folds.push (h : Folds folded plain) {fine coarse : Node} (hr : fine.Refines coarse) :
    Folds (folded.push fine) (plain.push coarse) where
  size := by rw [push_nodes, push_nodes, Array.size_push, Array.size_push, h.size]
  node {id x y} hx hy := by
    rw [push_nodes, Array.getElem?_push] at hx hy
    rw [h.size] at hx
    split at hx
    · rename_i hid
      rw [if_pos hid] at hy
      rwa [← Option.some.inj hx, ← Option.some.inj hy]
    · rename_i hid
      rw [if_neg hid] at hy
      exact h.node hx hy
  consumers := by
    unfold Graph.push
    rw [hr.inputs, h.consumers, h.size]
  parameters := h.parameters
  outputs := h.outputs
  disabled := h.disabled

theorem Folds.add (h : Folds folded plain) (hw : folded.WellFormed) {name : String} {op : Op}
    {inputs : List ValueId} {id : ValueId} (hadd : folded.add name op inputs = .ok (id, folded')) :
    ∃ plain', plain.add name op inputs = .ok (id, plain') ∧ Folds folded' plain' := by
  obtain ⟨fines, type, contents, hp, hm, ht, hc, rfl, rfl⟩ := add_eq_ok.mp hadd
  obtain ⟨coarses, hp'⟩ : ∃ coarses,
      List.Forall₂ (fun input node => plain.nodes[input]? = some node) inputs coarses := by
    refine exists_forall₂.mpr fun input hi => ?_
    obtain ⟨fine, -, hf⟩ := exists_of_forall₂_left hp hi
    obtain ⟨coarse, hcoarse, -⟩ := h.exists_node hf
    exact ⟨coarse, hcoarse⟩
  have hnodes : List.Forall₂ Node.Refines fines coarses :=
    forall₂_of_common hp hp' fun input fine coarse => h.node
  have hoperands : List.Forall₂ Operand.Refines (fines.map Node.operand)
      (coarses.map Node.operand) := by
    rw [List.forall₂_map_left_iff, List.forall₂_map_right_iff]
    exact hnodes.imp fun fine coarse hn => hn.operand
  obtain ⟨type', ht', hr⟩ := Op.infer_mono hoperands ht
  rw [checkMark_congr hnodes] at hm
  obtain ⟨contents', hk, hc'⟩ : ∃ contents',
      knownContents plain.fold op (coarses.map Node.operand) type'.shape = .ok contents' ∧
        ((∃ value, op = .constant value ∧ contents' = some value) ∨ contents' = none) := by
    rcases knownContents_disabled h.disabled op (coarses.map Node.operand) type'.shape with
      ⟨value, hop, hk⟩ | hk
    · exact ⟨_, hk, .inl ⟨value, hop, rfl⟩⟩
    · exact ⟨_, hk, .inr rfl⟩
  have hs : ∀ x ∈ fines.map Node.operand, x.Settled := by
    rw [List.forall_mem_map]
    intro fine hfine
    obtain ⟨input, -, hf⟩ := exists_of_forall₂_right hp hfine
    exact hw.settled (operand?_of_node hf)
  refine ⟨_, add_eq_ok.mpr ⟨coarses, type', contents', hp', hm, ht', hk, h.size, rfl⟩, ?_⟩
  exact h.push ⟨rfl, rfl, rfl, settle_refines hs ht hr hc hc'⟩

/-! ## Building -/

theorem Folds.producer (h : Folds folded plain) {id : ValueId} {fine : Node}
    (hf : folded.producer id = .ok fine) : ∃ coarse, plain.producer id = .ok coarse := by
  obtain ⟨coarse, hc, -⟩ := h.exists_node (producer_eq_ok.mp hf)
  exact ⟨coarse, producer_eq_ok.mpr hc⟩

theorem Folds.rename (h : Folds folded plain) {id : ValueId} {name : String}
    (hr : folded.rename id name = .ok folded') :
    ∃ plain', plain.rename id name = .ok plain' ∧ Folds folded' plain' := by
  obtain ⟨fine, hf, hr⟩ := bind_eq_ok.mp hr
  obtain ⟨coarse, hc⟩ := h.producer hf
  obtain rfl := Except.ok.inj hr
  refine ⟨_, bind_eq_ok.mpr ⟨coarse, hc, rfl⟩, ?_, ?_, h.consumers, h.parameters, h.outputs,
    h.disabled⟩
  · simpa using h.size
  · intro i x y hx hy
    simp only [Array.getElem?_modify] at hx hy
    split at hx
    · rename_i hi
      rw [if_pos hi] at hy
      obtain ⟨fine, hfine, rfl⟩ := Option.map_eq_some_iff.mp hx
      obtain ⟨coarse, hcoarse, rfl⟩ := Option.map_eq_some_iff.mp hy
      have hn := h.node hfine hcoarse
      exact ⟨rfl, hn.op, hn.inputs, hn.operand⟩
    · rename_i hi
      rw [if_neg hi] at hy
      exact h.node hx hy

theorem Folds.addOutput (h : Folds folded plain) {id : ValueId}
    (ho : folded.addOutput id = .ok folded') :
    ∃ plain', plain.addOutput id = .ok plain' ∧ Folds folded' plain' := by
  obtain ⟨fine, hf, ho⟩ := bind_eq_ok.mp ho
  obtain ⟨coarse, hc⟩ := h.producer hf
  obtain rfl := Except.ok.inj ho
  exact ⟨_, bind_eq_ok.mpr ⟨coarse, hc, rfl⟩, h.size, h.node, h.consumers, h.parameters,
    congrArg (· ++ [id]) h.outputs, h.disabled⟩

theorem Folds.addParameter (h : Folds folded plain) (hw : folded.WellFormed) {name : String}
    {elementType : ElementType} {shape : PartialShape} {id : ValueId}
    (hp : folded.addParameter name elementType shape = .ok (id, folded')) :
    ∃ plain', plain.addParameter name elementType shape = .ok (id, plain') ∧
      Folds folded' plain' := by
  obtain ⟨⟨value, after⟩, hadd, hp⟩ := bind_eq_ok.mp hp
  obtain ⟨rfl, rfl⟩ := Prod.mk.inj (Except.ok.inj hp)
  obtain ⟨after', hadd', hg⟩ := h.add hw hadd
  exact ⟨_, bind_eq_ok.mpr ⟨_, hadd', rfl⟩, hg.size, hg.node, hg.consumers,
    congrArg (· ++ [value]) hg.parameters, hg.outputs, hg.disabled⟩

/-- A step that succeeds with folding succeeds without. -/
theorem Folds.apply (h : Folds folded plain) (hw : folded.WellFormed) {step : BuildStep}
    {id : Option ValueId} (hs : folded.apply step = .ok (id, folded')) :
    ∃ plain', plain.apply step = .ok (id, plain') ∧ Folds folded' plain' := by
  cases step with
  | parameter name elementType shape =>
    obtain ⟨⟨value, after⟩, hp, hs⟩ := bind_eq_ok.mp hs
    obtain ⟨rfl, rfl⟩ := Prod.mk.inj (Except.ok.inj hs)
    obtain ⟨after', hp', hg⟩ := h.addParameter hw hp
    exact ⟨after', bind_eq_ok.mpr ⟨_, hp', rfl⟩, hg⟩
  | constant name tensor =>
    obtain ⟨value, hadd, rfl⟩ := apply_constant_eq_ok.mp hs
    obtain ⟨plain', hadd', hg⟩ := h.add hw hadd
    exact ⟨plain', apply_constant_eq_ok.mpr ⟨value, hadd', rfl⟩, hg⟩
  | op name op inputs =>
    obtain ⟨value, hadd, rfl⟩ := apply_op_eq_ok.mp hs
    obtain ⟨plain', hadd', hg⟩ := h.add hw hadd
    exact ⟨plain', apply_op_eq_ok.mpr ⟨value, hadd', rfl⟩, hg⟩
  | rename value name =>
    obtain ⟨hr, rfl⟩ := apply_rename_eq_ok.mp hs
    obtain ⟨plain', hr', hg⟩ := h.rename hr
    exact ⟨plain', apply_rename_eq_ok.mpr ⟨hr', rfl⟩, hg⟩
  | output value =>
    obtain ⟨ho, rfl⟩ := apply_output_eq_ok.mp hs
    obtain ⟨plain', ho', hg⟩ := h.addOutput ho
    exact ⟨plain', apply_output_eq_ok.mpr ⟨ho', rfl⟩, hg⟩

/-- The graph that steps lead to can be built. -/
theorem Reachable.applyAll {g g' : Graph} {steps : List BuildStep} {ids : List (Option ValueId)}
    (hg : Reachable g) (h : g.applyAll steps = .ok (ids, g')) : Reachable g' := by
  induction steps generalizing g ids with
  | nil => obtain ⟨-, rfl⟩ := Prod.mk.inj (Except.ok.inj h); exact hg
  | cons step steps ih =>
    obtain ⟨⟨id, after⟩, hs, h⟩ := bind_eq_ok.mp h
    obtain ⟨⟨rest, last⟩, hr, h⟩ := bind_eq_ok.mp h
    obtain ⟨-, rfl⟩ := Prod.mk.inj (Except.ok.inj h)
    exact ih (hg.apply hs) hr

/-- A list of steps that succeeds with folding succeeds without, by induction on the steps. -/
theorem Folds.applyAll (h : Folds folded plain) (hg : Reachable folded) {steps : List BuildStep}
    {ids : List (Option ValueId)} (hs : folded.applyAll steps = .ok (ids, folded')) :
    ∃ plain', plain.applyAll steps = .ok (ids, plain') ∧ Folds folded' plain' := by
  induction steps generalizing folded plain ids with
  | nil =>
    obtain ⟨rfl, rfl⟩ := Prod.mk.inj (Except.ok.inj hs)
    exact ⟨plain, rfl, h⟩
  | cons step steps ih =>
    obtain ⟨⟨id, after⟩, hstep, hs⟩ := bind_eq_ok.mp hs
    obtain ⟨⟨rest, last⟩, hrest, hs⟩ := bind_eq_ok.mp hs
    obtain ⟨rfl, rfl⟩ := Prod.mk.inj (Except.ok.inj hs)
    obtain ⟨after', hstep', hafter⟩ := h.apply hg.wellFormed hstep
    obtain ⟨last', hrest', hlast⟩ := ih hafter (hg.apply hstep) hrest
    exact ⟨last', bind_eq_ok.mpr ⟨_, hstep', bind_eq_ok.mpr ⟨_, hrest', rfl⟩⟩, hlast⟩

/-! ## Meanings -/

/-- What folding knows about a value is what the operation computes. -/
theorem known_eq_compute {options : Folding} {op : Op} {operands : List Operand}
    {shape : PartialShape} {values : List Tensor} {c v : Tensor}
    (h : List.Forall₂ (fun t x => t.operand.Refines x) values operands)
    (hc : knownContents options op operands shape = .ok (some c)) (hv : op.compute values = .ok v) :
    c = v := by
  rcases knownContents_eq_some hc with rfl | ⟨target, x, rest, dims, rfl, rfl, hx, rfl⟩ |
    ⟨known, hk, hcompute⟩
  · exact Except.ok.inj hv
  · -- the input was not computed, but its shape was known
    obtain ⟨t, rfl, hv⟩ := Op.unary_eq_ok.mp hv
    obtain ⟨hr, -⟩ := List.forall₂_cons.mp h
    have hshape : t.operand.shape = .fixed dims := hr.shape.fixed dims hx
    rw [← Except.ok.inj hv, ← PartialShape.fixed.inj hshape]
  · have hvalues : List.Forall₂ (· = ·) known values :=
      forall₂_of_common hk h.flip fun x c t hc hr => (Option.some.inj (hr.contents c hc)).symm
    rw [List.forall₂_eq_eq_eq] at hvalues
    rw [hvalues, hv] at hcompute
    exact (Except.ok.inj hcompute).symm

/-- A value that has a meaning without folding has the same one with folding, by induction along
the graph. -/
theorem Folds.meaning (h : Folds folded plain) (hw : folded.WellFormed) (hw' : plain.WellFormed)
    {id : Nat} {v : Tensor} (hv : plain.meaning feeds id = .ok v) :
    folded.meaning feeds id = .ok v := by
  induction id using Nat.strongRecOn generalizing v with
  | ind id ih =>
    obtain ⟨coarse, hcoarse⟩ : ∃ coarse, plain.nodes[id]? = some coarse := by
      cases hn : plain.nodes[id]? with
      | none => rw [Graph.meaning, hn] at hv; cases hv
      | some coarse => exact ⟨coarse, rfl⟩
    have hlt : id < folded.nodes.size := h.size ▸ (Array.getElem?_eq_some_iff.mp hcoarse).1
    have hfine : folded.nodes[id]? = some folded.nodes[id] := Array.getElem?_eq_getElem hlt
    have hnode := h.node hfine hcoarse
    obtain ⟨operands, type, hi, -, hc, -⟩ := hw id _ hfine
    rw [meaning_eq hw hfine, Node.value_eq_ok]
    rw [meaning_eq hw' hcoarse, Node.value_eq_ok, ← hnode.op, ← hnode.inputs] at hv
    rcases hv with hv | ⟨-, ⟨name, elementType, shape, hop, hfed, hfeed⟩ | ⟨vs, hvs, hcompute⟩⟩
    · exact .inl (hnode.operand.contents v hv)
    · rw [hop] at hc
      exact .inr ⟨(Except.ok.inj hc).symm, .inl ⟨name, elementType, shape, hop, hfed, hfeed⟩⟩
    · have hvs' : List.Forall₂ (fun input v => folded.meaning feeds input = .ok v)
          folded.nodes[id].inputs vs := by
        refine (forall₂_and_left hvs fun input hin => hw.input_lt hfine hin).imp ?_
        exact fun input v hr => ih input hr.2 hr.1
      cases hk : folded.nodes[id].contents with
      | none => exact .inr ⟨rfl, .inr ⟨vs, hvs', hcompute⟩⟩
      | some c =>
        rw [hk] at hc
        refine .inl (congrArg some (known_eq_compute ?_ hc hcompute))
        exact forall₂_of_common hvs' hi fun input t x ht hx => hw.meaning_refines hx.2 ht

/-! ## Transparency -/

/-- The graphs list the same nodes. -/
theorem Folds.listing (h : Folds folded plain) (id : Nat) :
    folded.nodes[id]?.map (fun node => (node.name, node.op, node.inputs)) =
      plain.nodes[id]?.map fun node => (node.name, node.op, node.inputs) := by
  cases hfine : folded.nodes[id]? with
  | none =>
    have hnone : plain.nodes[id]? = none := by
      rw [Array.getElem?_eq_none_iff] at hfine ⊢
      rwa [← h.size]
    rw [hnone]
  | some fine =>
    obtain ⟨coarse, hcoarse, hn⟩ := h.exists_node hfine
    rw [hcoarse, Option.map_some, Option.map_some, hn.name, hn.op, hn.inputs]

/-- Whatever the graph built without folding evaluates to, the folded graph evaluates to. -/
theorem Folds.evaluate (h : Folds folded plain) (hw : folded.WellFormed) (hw' : plain.WellFormed)
    {outputs : List ValueId} {vs : List Tensor} (hv : plain.evaluate feeds outputs = .ok vs) :
    folded.evaluate feeds outputs = .ok vs := by
  have hout' := lt_size_of_evaluate_eq_ok hv
  have hout : ∀ id ∈ outputs, id < folded.nodes.size := fun id hid => h.size ▸ hout' id hid
  rw [evaluate_eq_ok hw' hout'] at hv
  exact (evaluate_eq_ok hw hout).mpr (hv.imp fun id v => h.meaning hw hw')

/-- Folding is transparent. If all steps succeed with folding, they succeed without, with the same
results, and build a graph of the same names, operations and inputs. Whatever the graph built
without folding evaluates to, the folded graph evaluates to as well. -/
theorem folding_transparent {fold : Folding} {steps : List BuildStep} {ids : List (Option ValueId)}
    (h : applyAll { fold := fold } steps = .ok (ids, folded)) (limit : Nat) :
    ∃ plain, applyAll { fold := ⟨false, limit⟩ } steps = .ok (ids, plain) ∧
      (∀ id : Nat, folded.nodes[id]?.map (fun node => (node.name, node.op, node.inputs)) =
        plain.nodes[id]?.map fun node => (node.name, node.op, node.inputs)) ∧
      folded.consumers = plain.consumers ∧ folded.parameters = plain.parameters ∧
      folded.outputs = plain.outputs ∧
      ∀ feeds outputs vs, plain.evaluate feeds outputs = .ok vs →
        folded.evaluate feeds outputs = .ok vs := by
  obtain ⟨plain, hp, hf⟩ := (Folds.empty fold limit).applyAll (.empty fold) h
  have hw := ((Reachable.empty fold).applyAll h).wellFormed
  have hw' := ((Reachable.empty ⟨false, limit⟩).applyAll hp).wellFormed
  exact ⟨plain, hp, hf.listing, hf.consumers, hf.parameters, hf.outputs,
    fun feeds outputs vs => hf.evaluate hw hw'⟩

/-- A constant, a sum that folding computes, and a shape that it knows of a value that is fed. -/
def foldable : List BuildStep := [
  .parameter "x" .f32 (.fixed [2, 3]),
  .constant "c" (.ofInts [1, 2]),
  .op "twice" .add [1, 1],
  .op "dims" (.shapeOf .i64) [0],
  .op "sum" .add [2, 3],
  .rename 4 "result",
  .output 4]

/-- With and without folding the steps build graphs that evaluate alike. -/
theorem foldable_transparent : ∃ folded plain,
    applyAll {} foldable =
      .ok ([some 0, some 1, some 2, some 3, some 4, none, none], folded) ∧
    applyAll { fold := ⟨false, 0⟩ } foldable =
      .ok ([some 0, some 1, some 2, some 3, some 4, none, none], plain) ∧
    ∀ feeds outputs vs, plain.evaluate feeds outputs = .ok vs →
      folded.evaluate feeds outputs = .ok vs := by
  have hids : (applyAll {} foldable).map Prod.fst =
      .ok [some 0, some 1, some 2, some 3, some 4, none, none] := by decide +kernel
  cases h : applyAll {} foldable with
  | error e => rw [h] at hids; cases hids
  | ok built =>
    obtain ⟨ids, folded⟩ := built
    rw [h] at hids
    obtain rfl := Except.ok.inj hids
    obtain ⟨plain, hp, -, -, -, -, hv⟩ := folding_transparent h 0
    exact ⟨folded, plain, rfl, hp, hv⟩

end Graph

end TensorLowering.Dataflow
