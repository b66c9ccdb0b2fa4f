import TensorLowering.Proofs.Dataflow.Denotation
import TensorLowering.Proofs.Dataflow.Typing

/-!
# Evaluation stays inside its tensors

`evaluate_inRange`: whatever is fed for open shapes, an evaluation accesses only elements that are
there, with one exception, and is answered unless a number overflows. A padding takes its fill value
from an operand that typing demands to be a scalar, but only if the rank of that operand is known; if
it is not, a tensor without elements can be fed for it (`EmptyFill`), and the first element is read
all the same. All other checks that typing puts off are made again by the kernels, so the exception
has to be traced to the typing rule: where the rank is known, it is the rank of the tensor
(`meaning_refines`), and a scalar has an element.
-/

namespace TensorLowering.Dataflow.Graph

variable {g : Graph} {feeds : Feeds}

/-- The value is a padding whose fill is of unknown rank and turns out to have no elements. -/
def EmptyFill (g : Graph) (feeds : Feeds) (id : ValueId) : Prop :=
  ∃ node data before after fill value, g.nodes[id]? = some node ∧ node.op = .pad .constant ∧
    node.inputs = [data, before, after, fill] ∧ g.shape fill = .ok .unranked ∧
    g.meaning feeds fill = .ok value ∧ value.data.size = 0

/-- A fill that lacks elements has an open rank, or else typing has made it a scalar. -/
theorem emptyFill_of_lacksFill (hg : g.WellFormed) {id : ValueId} {node : Node} {vs : List Tensor}
    (hnode : g.nodes[id]? = some node)
    (hvs : List.Forall₂ (fun input v => g.meaning feeds input = .ok v) node.inputs vs)
    (h : node.op.LacksFill vs) : g.EmptyFill feeds id := by
  obtain ⟨mode, _, _, _, value, hop, rfl, hsize⟩ := h
  obtain ⟨operands, type, hoperands, htype, -, -⟩ := hg id node hnode
  generalize hinputs : node.inputs = inputs at hvs hoperands
  obtain _ | ⟨-, _ | ⟨-, _ | ⟨-, _ | ⟨hfill, _ | _⟩⟩⟩⟩ := hvs
  obtain _ | ⟨-, _ | ⟨-, _ | ⟨-, _ | @⟨_, x, _, _, hx, _ | _⟩⟩⟩⟩ := hoperands
  -- Only constant mode is typed with a fill.
  obtain rfl : mode = .constant := by
    rw [hop] at htype
    cases mode with
    | constant => rfl
    | _ => cases htype
  rw [hop, Op.infer_pad_fill, Op.inferPad_eq_ok] at htype
  have hrank := (Op.checkFill_eq_ok.mp htype.2.2.1 x rfl).2
  have hrefines := hg.meaning_refines hx.2 hfill
  refine ⟨node, _, _, _, _, value, hnode, hop, hinputs, ?_, hfill, hsize⟩
  obtain ⟨producer, hproducer, rfl⟩ := Option.map_eq_some_iff.mp hx.2
  rw [shape_of_node hproducer]
  cases hr : producer.type.shape.rank? with
  | none =>
    refine congrArg Except.ok (?_ : producer.type.shape = _)
    unfold PartialShape.rank? at hr
    split at hr
    · cases hr
    · cases hr
    · assumption
  | some rank =>
    obtain rfl := hrank rank hr
    have hlen : value.shape.length = 0 := Option.some.inj (hrefines.shape.rank? hr)
    rw [value.size_data, List.length_eq_zero_iff.mp hlen] at hsize
    cases hsize

/-- An evaluation of a built graph is answered with values or an error, as long as no number overflows.
The one exception needs a padding whose fill is of unknown rank and is fed a tensor without elements:
it reads the first of these. -/
theorem evaluate_inRange (hg : Reachable g) {feeds : Feeds} {outputs : List ValueId}
    {cause : EvaluationError} (h : g.evaluate feeds outputs = .error (.evaluation cause))
    (hstops : cause.stops = true) : cause.Overflows ∨
      cause = .outOfRange 0 0 ∧ ∃ id, g.Needed outputs id ∧ g.EmptyFill feeds id := by
  have hw := hg.wellFormed
  by_cases hout : ∀ id ∈ outputs, id < g.nodes.size
  · rcases (evaluate_fails hw hout).of_error _ h with hc | ⟨heq, id, node, vs, hn, hnode, hvs, hl⟩
    · exact .inl (hc.overflows cause rfl hstops)
    · exact .inr ⟨Error.evaluation.inj heq, id, hn, emptyFill_of_lacksFill hw hnode hvs hl⟩
  · obtain ⟨id, he⟩ := evaluate_eq_error_of_not_lt feeds hout
    rw [h] at he
    cases he

/-- A vector of one element that is padded by one, with a fill of unknown rank. -/
def openlyFilled : Graph := build {} [
  .parameter "x" .f32 (.fixed [1]),
  .constant "b" (.ofInts [1]),
  .constant "e" (.ofInts [0]),
  .parameter "fill" .f32 .unranked,
  .op "p" (.pad .constant) [0, 1, 2, 3]]

/-- Feeds of the right types, of which the fill has no elements. -/
def noFill : Feeds :=
  [("x", ⟨.f32, [1], #[⟨0x3f800000⟩], rfl⟩), ("fill", ⟨.f32, [0], #[], rfl⟩)]

/-- The evaluation reads the first element of a tensor that has none. -/
theorem openlyFilled_outOfRange :
    openlyFilled.evaluate noFill [4] = .error (.evaluation (.outOfRange 0 0)) := by
  decide +kernel

theorem openlyFilled_emptyFill :
    Reachable openlyFilled ∧ ∃ id, openlyFilled.Needed [4] id ∧ openlyFilled.EmptyFill noFill id := by
  have hg : Reachable openlyFilled := reachable_build {} _
  refine ⟨hg, ?_⟩
  have hstop : openlyFilled.evaluate noFill [4] = .error (.evaluation (.outOfRange 0 0)) := by
    decide +kernel
  rcases evaluate_inRange hg hstop rfl with hover | ⟨-, hfill⟩
  · exact hover.elim
  · exact hfill

end TensorLowering.Dataflow.Graph
