import Mathlib.Algebra.Group.Nat.Defs
import TensorLowering.Proofs.Dataflow.Meaning
import TensorLowering.Proofs.Op.Soundness

/-!
# Evaluation respects the types of a graph

What is recorded about a value when its node is added holds of every tensor that the value turns out
to be. The invariant goes along the graph:

* `known_sound`: contents known before run time have the type that was inferred;
* `WellFormed.settled`: so the type recorded beside known contents is theirs;
* `WellFormed.meaning_refines`: the meaning of a value says all that its node records;
* `evaluate_conforms`: the same for evaluation, with the rank and the sizes spelled out.
-/

namespace TensorLowering.Dataflow.Graph

/-! ## Known contents -/

/-- Known contents are those of a constant, a shape that is fixed, or what the operation computes
from known contents. -/
theorem knownContents_eq_some {options : Folding} {op : Op} {operands : List Operand}
    {shape : PartialShape} {c : Tensor}
    (h : knownContents options op operands shape = .ok (some c)) :
    op = .constant c ∨
      (∃ target x rest dims, op = .shapeOf target ∧ operands = x :: rest ∧
        x.shape = .fixed dims ∧ c = .ofShape target dims) ∨
      ∃ values, List.Forall₂ (fun x t => x.contents = some t) operands values ∧
        op.compute values = .ok c := by
  unfold knownContents at h
  split at h
  · exact .inl (congrArg Op.constant (Option.some.inj (Except.ok.inj h)))
  · cases h
  · unfold fold? at h
    split at h
    · split at h
      · exact .inr (.inl ⟨_, _, _, _, rfl, rfl, rfl, (Option.some.inj (Except.ok.inj h)).symm⟩)
      · split at h
        · rename_i values hv
          obtain ⟨v, hc, h⟩ := bind_eq_ok.mp h
          obtain rfl := Option.some.inj (Except.ok.inj h)
          exact .inr (.inr ⟨values, mapM_eq_some.mp hv, hc⟩)
        · cases h
    · cases h

/-- A tensor that is known as the contents of an operand is one that the operand stands for. -/
theorem operand_refines {x : Operand} {t : Tensor} (hs : x.Settled) (hc : x.contents = some t) :
    t.operand.Refines x := by
  refine ⟨?_, fun value hv => ?_, Tensor.operand_settled t⟩
  · rw [hs t hc]
    exact .refl _
  · rw [← hv, hc]
    rfl

theorem known_sound {options : Folding} {op : Op} {operands : List Operand} {type : TensorType}
    {c : Tensor} (hs : ∀ x ∈ operands, x.Settled) (ht : op.infer operands = .ok type)
    (hc : knownContents options op operands type.shape = .ok (some c)) : c.type.Refines type := by
  rcases knownContents_eq_some hc with rfl | ⟨target, x, rest, dims, rfl, rfl, hx, rfl⟩ |
    ⟨values, hv, hcompute⟩
  · obtain ⟨-, ht⟩ := Op.nullary_eq_ok.mp ht
    rw [← Except.ok.inj ht]
    exact .refl _
  · obtain ⟨y, hy, ht⟩ := Op.unary_eq_ok.mp ht
    obtain ⟨rfl, rfl⟩ := List.cons.inj hy
    refine Op.inferShapeOf_sound ht fun rank hr => ?_
    rw [hx] at hr
    exact Option.some.inj hr
  · exact Op.compute_sound ((forall₂_and_right hv.flip hs).imp fun _ _ h =>
      operand_refines h.2 h.1) ht hcompute

variable {g : Graph} {feeds : Feeds}

/-- The type recorded beside known contents is theirs, by induction along the graph. -/
theorem WellFormed.settled (hg : g.WellFormed) {id : Nat} {x : Operand}
    (h : g.operand? id = some x) : x.Settled := by
  induction id using Nat.strongRecOn generalizing x with
  | ind id ih =>
    obtain ⟨node, hnode, rfl⟩ := Option.map_eq_some_iff.mp h
    obtain ⟨operands, type, hi, ht, hc, htype⟩ := hg id node hnode
    intro c hcontents
    have hs : ∀ x ∈ operands, x.Settled := fun x hx => by
      obtain ⟨input, -, hlt, hin⟩ := exists_of_forall₂_right hi hx
      exact ih input hlt hin
    replace hcontents : node.contents = some c := hcontents
    rw [hcontents] at hc htype
    have he := (known_sound hs ht hc).elementType
    show node.type = c.type
    rw [htype]
    exact congrArg (TensorType.mk · (.fixed c.shape)) he.symm

/-! ## Meanings -/

theorem acceptFeed_eq_ok {name : String} {elementType : ElementType} {shape : PartialShape}
    {fed : Tensor} : acceptFeed name elementType shape fed = .ok () ↔
      fed.type.Refines ⟨elementType, shape⟩ := by
  unfold acceptFeed
  by_cases he : fed.elementType = elementType
  · rw [if_neg (not_not.mpr he)]
    by_cases hs : shape.admits fed.shape = true
    · rw [if_pos hs]
      exact iff_of_true rfl ⟨he, PartialShape.admits_eq_true.mp hs⟩
    · rw [if_neg hs]
      exact iff_of_false (by simp) fun h => hs (PartialShape.admits_eq_true.mpr h.shape)
  · rw [if_pos he]
    exact iff_of_false (by simp) fun h => he h.elementType

/-- The meaning of a value is a tensor that its node stands for, by induction along the graph. -/
theorem WellFormed.meaning_refines (hg : g.WellFormed) {id : Nat} {x : Operand} {v : Tensor}
    (h : g.operand? id = some x) (hv : g.meaning feeds id = .ok v) : v.operand.Refines x := by
  induction id using Nat.strongRecOn generalizing x v with
  | ind id ih =>
    have hsettled := hg.settled h
    obtain ⟨node, hnode, rfl⟩ := Option.map_eq_some_iff.mp h
    obtain ⟨operands, type, hi, ht, -, htype⟩ := hg id node hnode
    rw [meaning_eq hg hnode, Node.value_eq_ok] at hv
    rcases hv with hc | ⟨hc, hv⟩
    · exact operand_refines hsettled hc
    have hv : v.type.Refines type := by
      rcases hv with ⟨name, elementType, shape, hop, -, hfeed⟩ | ⟨vs, hvs, hcompute⟩
      · rw [hop] at ht
        obtain ⟨-, ht⟩ := Op.nullary_eq_ok.mp ht
        rw [← Except.ok.inj ht]
        exact acceptFeed_eq_ok.mp hfeed
      · refine Op.compute_sound ?_ ht hcompute
        exact forall₂_of_common hvs hi fun input t x ht hx => ih input hx.1 hx.2 ht
    refine ⟨?_, fun c h => ?_, Tensor.operand_settled v⟩
    · show v.type.Refines node.type
      rw [htype, hc]
      exact hv
    · exact absurd (hc.symm.trans h) (by simp)

/-! ## Evaluation -/

theorem volume_eq_prod (shape : List Nat) : Shape.volume shape = shape.prod := by
  induction shape with
  | nil => rfl
  | cons size sizes ih => rw [Shape.volume_cons, List.prod_cons, ih]

/-- The value that evaluation gives has the element type recorded for it, a shape of the recorded
rank and sizes where these are known, as many elements as the shape has places, and is the known
contents where there are any. -/
theorem evaluate_conforms (hg : Reachable g) {id : ValueId} {v : Tensor}
    (h : g.evaluate feeds [id] = .ok [v]) :
    g.elementType id = .ok v.elementType ∧
    (∃ shape, g.shape id = .ok shape ∧
      (∀ rank, shape.rank? = some rank → v.shape.length = rank) ∧
      ∀ dims (i n : Nat), shape.dims? = some dims → dims[i]? = some (some n) →
        v.shape[i]? = some n) ∧
    v.data.size = v.shape.prod ∧
    ∀ c, g.contents? id = some c → v = c := by
  have hw := hg.wellFormed
  have hout := lt_size_of_evaluate_eq_ok h
  have hlt := hout id List.mem_cons_self
  have hnode : g.nodes[id]? = some g.nodes[id] := Array.getElem?_eq_getElem hlt
  obtain ⟨hm, -⟩ := List.forall₂_cons.mp ((evaluate_eq_ok hw hout).mp h)
  have hr := hw.meaning_refines (operand?_of_node hnode) hm
  refine ⟨?_, ⟨g.nodes[id].type.shape, ?_, fun rank hrank => ?_, fun dims i n hd hn => ?_⟩, ?_,
    fun c hc => ?_⟩
  · rw [elementType, producer_eq_ok.mpr hnode]
    exact congrArg Except.ok hr.elementType.symm
  · rw [shape, producer_eq_ok.mpr hnode]
    rfl
  · exact Option.some.inj (hr.shape.rank? hrank)
  · obtain ⟨dims', hd', hf⟩ := hr.dims dims hd
    obtain rfl := Option.some.inj hd'
    simpa using hf.getElem? hn
  · rw [v.size_data, volume_eq_prod]
  · have hcontents : g.nodes[id].contents = some c := by
      rwa [contents?, hnode, Option.bind_some] at hc
    exact Option.some.inj (hr.contents c hcontents)

/-- A vector of open length, followed by a tensor of which not even the rank is known. -/
def joined : Graph := build {} [
  .parameter "x" .i64 (.ranked [none]),
  .parameter "y" .i64 .unranked,
  .op "xy" (.concat 0) [0, 1]]

/-- Fed with vectors, the two make a vector, as recorded for it. -/
theorem joined_conforms :
    joined.evaluate [("x", .ofInts [1]), ("y", .ofInts [2, 3])] [2] = .ok [.ofInts [1, 2, 3]] ∧
    joined.elementType 2 = .ok (Tensor.ofInts [1, 2, 3]).elementType ∧
    ∃ shape, joined.shape 2 = .ok shape ∧
      ∀ rank, shape.rank? = some rank → (Tensor.ofInts [1, 2, 3]).shape.length = rank := by
  have hev : joined.evaluate [("x", .ofInts [1]), ("y", .ofInts [2, 3])] [2] =
      .ok [.ofInts [1, 2, 3]] := by decide +kernel
  obtain ⟨he, ⟨shape, hs, hrank, -⟩, -⟩ := evaluate_conforms (reachable_build {} _) hev
  exact ⟨hev, he, shape, hs, hrank⟩

end TensorLowering.Dataflow.Graph
