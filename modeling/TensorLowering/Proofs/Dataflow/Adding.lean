import TensorLowering.Proofs.Dataflow.Extension
import TensorLowering.Proofs.Dataflow.Folding
import TensorLowering.Proofs.Op.Acceptance

/-!
# What added nodes mean

`Denotes` says which tensor a value of a graph stands for, or that it stands for none. A value that
is the result of an operation denotes what the operation makes of the denotations of its inputs
(`Has.denotes`), and an operation can be added to inputs that stand for tensors on which it is
accepted and computes something (`exists_add_of_compute`).

The tensor agrees with everything that is recorded about the value (`Fits`). That it is also the
meaning of the value may depend on an assumption of the `Scenario`: whether operations can be added
does not depend on it, so it can be shown without any feeds.
-/

namespace TensorLowering

namespace Dataflow.Graph

variable {g g' : Graph} {feeds : Feeds} {id : ValueId} {op : Op} {inputs : List ValueId}

/-! ## Tensors that fit -/

/-- The tensor agrees with what is recorded about the value. -/
def Fits (g : Graph) (id : ValueId) (v : Tensor) : Prop :=
  ∃ x, g.operand? id = some x ∧ v.operand.Refines x

theorem Extends.operand? {x : Operand} (he : g.Extends g') (hx : g.operand? id = some x) :
    g'.operand? id = some x := by
  obtain ⟨node, hnode, rfl⟩ := Option.map_eq_some_iff.mp hx
  obtain ⟨name, hnode'⟩ := he.node hnode
  exact (operand?_of_node hnode' :)

theorem Extends.contents? {v : Tensor} (he : g.Extends g') (hv : g.contents? id = some v) :
    g'.contents? id = some v := by
  obtain ⟨node, hnode, hv⟩ := Option.bind_eq_some_iff.mp hv
  obtain ⟨name, hnode'⟩ := he.node hnode
  exact (contents?_of_node hnode').trans hv

theorem Fits.mono {v : Tensor} (h : g.Fits id v) (he : g.Extends g') : g'.Fits id v := by
  obtain ⟨x, hx, hv⟩ := h
  exact ⟨x, he.operand? hx, hv⟩

theorem WellFormed.fits (hg : g.WellFormed) (hid : id < g.nodes.size) {v : Tensor}
    (hv : g.meaning feeds id = .ok v) : g.Fits id v :=
  have hx := operand?_of_node (Array.getElem?_eq_getElem hid)
  ⟨_, hx, hg.meaning_refines hx hv⟩

/-- What an operation computes of tensors that fit its inputs fits its result. -/
theorem Has.fits (h : g.Has id op inputs) (hg : g.WellFormed) {vs : List Tensor} {v : Tensor}
    (hin : List.Forall₂ g.Fits inputs vs) (hv : op.compute vs = .ok v) : g.Fits id v := by
  obtain ⟨node, hnode, rfl, rfl⟩ := h
  obtain ⟨operands, type, hoperands, ht, hknown, htype⟩ := hg id node hnode
  have hrefines : List.Forall₂ (fun v x => v.operand.Refines x) vs operands := by
    refine forall₂_of_common hin hoperands fun input v x hv hx => ?_
    obtain ⟨y, hy, hv⟩ := hv
    rwa [Option.some.inj (hx.2.symm.trans hy)]
  have hoperand := operand?_of_node hnode
  refine ⟨_, hoperand, ?_⟩
  cases hc : node.contents with
  | none =>
    have hnone : ∀ c, node.operand.contents = some c → v.operand.contents = some c :=
      fun c hc' => nomatch hc.symm.trans hc'
    refine ⟨?_, hnone, Tensor.operand_settled v⟩
    show v.type.Refines node.type
    rw [htype, hc]
    exact Op.compute_sound hrefines ht hv
  | some c =>
    have hsettled := hg.settled hoperand
    rw [hc] at hknown
    obtain rfl := known_eq_compute hrefines hknown hv
    exact operand_refines hsettled hc

/-- What is recorded about the result of an operation is at least what typing infers. -/
theorem Has.recorded (h : g.Has id op inputs) (hg : g.WellFormed) : ∃ operands type x,
    List.Forall₂ (fun input operand => g.operand? input = some operand) inputs operands ∧
      op.infer operands = .ok type ∧ g.operand? id = some x ∧ x.toTensorType.Refines type := by
  obtain ⟨node, hnode, rfl, rfl⟩ := h
  obtain ⟨operands, type, hoperands, ht, hknown, htype⟩ := hg id node hnode
  have hoperands := hoperands.imp fun _ _ h => h.2
  have hsettled : ∀ x ∈ operands, x.Settled := fun x hx => by
    obtain ⟨input, -, hinput⟩ := exists_of_forall₂_right hoperands hx
    exact hg.settled hinput
  refine ⟨operands, type, _, hoperands, ht, operand?_of_node hnode, ?_⟩
  show node.type.Refines type
  rw [htype]
  exact (settle_refines hsettled ht (.refl type) hknown (.inr rfl)).type

/-! ## Denotations -/

/-- Feeds, and an assumption about the run with them. -/
structure Scenario where
  feeds : Feeds
  assumption : Prop

variable {σ : Scenario}

/-- The value stands for the tensor: this fits, and is the meaning of the value under the feeds if
the assumption holds. Where there is no tensor, the value then has no meaning. -/
structure Denotes (σ : Scenario) (g : Graph) (id : ValueId) (x : Option Tensor) : Prop where
  lt_size : id < g.nodes.size
  fits : ∀ v, x = some v → g.Fits id v
  meaning : σ.assumption → (g.meaning σ.feeds id).toOption = x

theorem denotes_meaning (hg : g.WellFormed) (hid : id < g.nodes.size) :
    Denotes σ g id (g.meaning σ.feeds id).toOption where
  lt_size := hid
  fits _ hv := hg.fits hid (toOption_eq_some.mp hv)
  meaning _ := rfl

theorem Denotes.mono {x : Option Tensor} (h : Denotes σ g id x) (hg : g.WellFormed)
    (hg' : g'.WellFormed) (he : g.Extends g') : Denotes σ g' id x where
  lt_size := Nat.lt_of_lt_of_le h.lt_size he.size_le
  fits v hv := (h.fits v hv).mono he
  meaning hσ := by rw [he.meaning hg hg' σ.feeds h.lt_size, h.meaning hσ]

theorem Denotes.evaluate_iff {x : Option Tensor} (h : Denotes σ g id x) (hσ : σ.assumption)
    (hg : g.WellFormed) {v : Tensor} : g.evaluate σ.feeds [id] = .ok [v] ↔ x = some v := by
  have hout : ∀ i ∈ [id], i < g.nodes.size := fun i hi => List.mem_singleton.mp hi ▸ h.lt_size
  rw [evaluate_eq_ok hg hout, ← h.meaning hσ, toOption_eq_some]
  simp

/-- The graph knows the element type of the tensor. -/
theorem Denotes.exists_elementType {x : Option Tensor} (h : Denotes σ g id x) :
    ∃ e, g.elementType id = .ok e ∧ ∀ v, x = some v → v.elementType = e := by
  have hlt := h.lt_size
  have hnode := Array.getElem?_eq_getElem hlt
  refine ⟨_, elementType_of_node hnode, fun v hv => ?_⟩
  obtain ⟨operand, hoperand, hfits⟩ := h.fits v hv
  obtain rfl := Option.some.inj ((Graph.operand?_of_node hnode).symm.trans hoperand)
  exact hfits.elementType

/-- The meaning is what the operation computes, if it computes something, also where it was
folded. -/
theorem Has.meaning_of_compute (h : g.Has id op inputs) (hg : g.WellFormed) {vs : List Tensor}
    {v : Tensor} (hin : List.Forall₂ (fun input v => g.meaning feeds input = .ok v) inputs vs)
    (hv : op.compute vs = .ok v) : g.meaning feeds id = .ok v := by
  obtain ⟨node, hnode, rfl, rfl⟩ := h
  obtain ⟨operands, type, hoperands, -, hknown, -⟩ := hg id node hnode
  rw [meaning_eq hg hnode, Node.value_eq_ok]
  cases hc : node.contents with
  | none => exact .inr ⟨rfl, .inr ⟨vs, hin, hv⟩⟩
  | some c =>
    rw [hc] at hknown
    refine .inl (congrArg some (known_eq_compute ?_ hknown hv))
    exact forall₂_of_common hin hoperands fun input v x hv hx => hg.meaning_refines hx.2 hv

theorem forall₂_denotes_some {vs : List Tensor}
    (h : List.Forall₂ (Denotes σ g) inputs (vs.map some)) : List.Forall₂ g.Fits inputs vs ∧
      (σ.assumption → List.Forall₂ (fun input v => g.meaning σ.feeds input = .ok v) inputs vs) := by
  rw [List.forall₂_map_right_iff] at h
  exact ⟨h.imp fun _ v hv => hv.fits v rfl,
    fun hσ => h.imp fun _ _ hv => toOption_eq_some.mp (hv.meaning hσ)⟩

theorem Has.denotes_of_compute (h : g.Has id op inputs) (hg : g.WellFormed) {vs : List Tensor}
    {v : Tensor} (hin : List.Forall₂ (Denotes σ g) inputs (vs.map some))
    (hv : op.compute vs = .ok v) : Denotes σ g id (some v) := by
  obtain ⟨hfits, hmeaning⟩ := forall₂_denotes_some hin
  refine ⟨h.lt_size, fun w hw => ?_, fun hσ => ?_⟩
  · exact Option.some.inj hw ▸ h.fits hg hfits hv
  · exact toOption_eq_some.mpr (h.meaning_of_compute hg (hmeaning hσ) hv)

theorem Has.denotes (h : g.Has id op inputs) (hg : g.WellFormed) (hop : op.IsComputed)
    {xs : List (Option Tensor)} (hin : List.Forall₂ (Denotes σ g) inputs xs) :
    Denotes σ g id (op.result? xs) := by
  cases hx : op.result? xs with
  | some v =>
    obtain ⟨vs, rfl, hv⟩ := Op.result?_eq_some.mp hx
    exact h.denotes_of_compute hg hin hv
  | none =>
    refine ⟨h.lt_size, nofun, fun hσ => ?_⟩
    rw [Option.eq_none_iff_forall_ne_some]
    intro v hv
    obtain ⟨vs, hvs, hcompute⟩ := h.exists_compute_eq_ok hg hop (toOption_eq_some.mp hv)
    have hxs : xs = vs.map some := by
      rw [← List.forall₂_eq_eq_eq, List.forall₂_map_right_iff]
      exact forall₂_of_common hin hvs fun input x v hx hv => by
        rw [← hx.meaning hσ, toOption_eq_some.mpr hv]
    rw [hxs, Op.result?_of_compute hcompute] at hx
    cases hx

/-! ## Where operations can be added -/

theorem knownContents_eq_ok {options : Folding} {operands : List Operand} {shape : PartialShape}
    (h : ∀ vs, List.Forall₂ (fun x v => x.contents = some v) operands vs →
      ∃ v, op.compute vs = .ok v) :
    ∃ contents, knownContents options op operands shape = .ok contents := by
  unfold knownContents
  split
  · exact ⟨_, rfl⟩
  · exact ⟨_, rfl⟩
  · unfold fold?
    split
    · split
      · exact ⟨_, rfl⟩
      · cases hvs : operands.mapM (·.contents) with
        | none => exact ⟨_, rfl⟩
        | some vs =>
          obtain ⟨v, hv⟩ := h vs (mapM_eq_some.mp hvs)
          exact ⟨some v, by simp [hv]⟩
    · exact ⟨_, rfl⟩

/-- A value is marked only as the result of a complex mark. -/
theorem checkMark_of_unmarked {name : String} {producers : List Node}
    (hp : List.Forall₂ (fun input node => g.nodes[input]? = some node) inputs producers)
    (hmark : op.isComplexMark = true → ∀ input ∈ inputs, g.Unmarked input) :
    checkMark name op producers = .ok () := by
  refine if_neg fun ⟨hop, hany⟩ => ?_
  obtain _ | @⟨input, node, inputs, producers, hnode, -⟩ := hp
  · cases hany
  · obtain ⟨op', inputs', ⟨node', hnode', rfl, -⟩, hop'⟩ := hmark hop input List.mem_cons_self
    obtain rfl := Option.some.inj (hnode.symm.trans hnode')
    rw [List.head?_cons, Option.any_some, hop'] at hany
    cases hany

/-- An operation can be added to inputs that stand for tensors on which it is accepted and computes
something; a complex mark must not mark another one. -/
theorem exists_add_of_compute (name : String) {vs : List Tensor} {v : Tensor} {type : TensorType}
    (hin : List.Forall₂ g.Fits inputs vs)
    (hmark : op.isComplexMark = true → ∀ input ∈ inputs, g.Unmarked input)
    (ht : op.infer (vs.map Tensor.operand) = .ok type) (hv : op.compute vs = .ok v) :
    ∃ id g', g.add name op inputs = .ok (id, g') := by
  obtain ⟨producers, hp⟩ : ∃ producers,
      List.Forall₂ (fun input node => g.nodes[input]? = some node) inputs producers := by
    refine exists_forall₂.mpr fun input hi => ?_
    obtain ⟨v, -, x, hx, -⟩ := exists_of_forall₂_left hin hi
    obtain ⟨node, hnode, -⟩ := Option.map_eq_some_iff.mp hx
    exact ⟨node, hnode⟩
  have hrefines : List.Forall₂ (fun v x => v.operand.Refines x) vs (producers.map Node.operand) := by
    rw [List.forall₂_map_right_iff]
    refine forall₂_of_common hin hp fun input v node hv hn => ?_
    obtain ⟨x, hx, hv⟩ := hv
    rwa [Option.some.inj ((operand?_of_node hn).symm.trans hx)]
  obtain ⟨type', ht', -⟩ := Op.infer_mono (List.forall₂_map_left_iff.mpr hrefines) ht
  have hcompute : ∀ known, List.Forall₂ (fun (x : Operand) v => x.contents = some v)
      (producers.map Node.operand) known → ∃ v, op.compute known = .ok v := by
    intro known hknown
    have hsame : List.Forall₂ (· = ·) known vs :=
      forall₂_of_common hknown hrefines.flip fun x c v hc hr =>
        Option.some.inj (hr.contents c hc).symm
    rw [List.forall₂_eq_eq_eq] at hsame
    exact ⟨v, by rw [hsame, hv]⟩
  obtain ⟨contents, hc⟩ : ∃ contents, knownContents g.fold op (producers.map Node.operand)
      type'.shape = .ok contents := knownContents_eq_ok hcompute
  exact ⟨_, _, add_eq_ok.mpr ⟨producers, type', contents, hp, checkMark_of_unmarked hp hmark, ht', hc,
    rfl, rfl⟩⟩

end Dataflow.Graph

end TensorLowering
