import TensorLowering.Proofs.Dataflow.Typing
import TensorLowering.Proofs.Op.Determined

/-!
# What folding knows

A graph that folds knows the contents of the result of an operation in exactly two cases, up to the
limit on its elements (`add_folds`): if it knows those of all inputs, and if the operation asks for
the shape of a value whose shape is fixed. The limit is compared with the shape that typing infers,
before anything is computed. It decides about the result itself because typing leaves nothing open
where all operands are known (`Op.infer_isFixed`) and finds the shape that is computed
(`Op.compute_sound`); together this is `infer_known`.
-/

namespace TensorLowering.Dataflow.Graph

variable {g g' : Graph} {options : Folding} {op : Op} {operands : List Operand} {vs : List Tensor}
  {inputs : List ValueId} {producers : List Node} {type : TensorType} {contents : Option Tensor}

/-! ## Folding one node -/

theorem knownContents_eq_fold? (hparameter : ∀ name e shape, op ≠ .parameter name e shape)
    (hconstant : ∀ value, op ≠ .constant value) (shape : PartialShape) :
    knownContents options op operands shape = fold? options op operands shape := by
  unfold knownContents
  split
  · exact absurd rfl (hconstant _)
  · exact absurd rfl (hparameter _ _ _)
  · rfl

theorem infer_shapeOf_eq_ok {target : ElementType} :
    Op.infer (.shapeOf target) operands = .ok type ↔ ∃ x, operands = [x] ∧
      target.isInteger = true ∧ ⟨target, .ofSizes [x.shape.rank?]⟩ = type := by
  refine Op.unary_eq_ok.trans ?_
  simp only [Op.inferShapeOf_eq_ok]

theorem withinLimit_iff (he : options.enabled = true) {shape : PartialShape} {count : Nat}
    (h : shape.elementCount? = some count) :
    (options.enabled ∧ shape.elementCount?.any (· ≤ options.maxElements)) ↔
      count ≤ options.maxElements := by
  rw [h, Option.any_some, decide_eq_true_iff]
  exact and_iff_right he

/-- The shape of a value of fixed shape has one element for each axis. -/
theorem fold?_shapeOf (he : options.enabled = true) {target : ElementType} {x : Operand}
    {dims : List Nat} (hx : x.shape = .fixed dims)
    (ht : Op.infer (.shapeOf target) [x] = .ok type) :
    fold? options (.shapeOf target) [x] type.shape =
      .ok (if dims.length ≤ options.maxElements then some (.ofShape target dims) else none) := by
  obtain ⟨_, hsingle, -, htype⟩ := infer_shapeOf_eq_ok.mp ht
  obtain rfl := List.singleton_inj.mp hsingle
  obtain ⟨⟨elementType, shape⟩, contents⟩ := x
  obtain rfl : shape = .fixed dims := hx
  have hcount : type.shape.elementCount? = some dims.length := by
    rw [← htype]
    exact congrArg some (Nat.mul_one _)
  have hwithin := withinLimit_iff he hcount
  unfold fold?
  by_cases hlimit : dims.length ≤ options.maxElements
  · rw [if_pos (hwithin.mpr hlimit), if_pos hlimit]
  · rw [if_neg (mt hwithin.mp hlimit), if_neg hlimit]

/-- Of known operands typing infers the very shape that is computed. -/
theorem infer_known (hparameter : ∀ name e shape, op ≠ .parameter name e shape)
    (ht : op.infer (vs.map Tensor.operand) = .ok type) :
    ∃ sizes, type.shape = .fixed sizes ∧ ∀ v, op.compute vs = .ok v → v.shape = sizes := by
  obtain ⟨sizes, hsizes⟩ := Shape.exists_of_isFixed (Op.infer_isFixed hparameter ht)
  have hrefines : List.Forall₂ (fun t x => t.operand.Refines x) vs (vs.map Tensor.operand) := by
    rw [List.forall₂_map_right_iff, List.forall₂_same]
    exact fun t _ => operand_refines t.operand_settled rfl
  refine ⟨sizes, hsizes, fun v hv => ?_⟩
  exact PartialShape.fixed.inj ((Op.compute_sound hrefines ht hv).shape.fixed sizes hsizes)

/-- Known operands are computed with, unless the inferred shape has too many elements. -/
theorem fold?_known (he : options.enabled = true) {sizes : List Nat}
    (ht : op.infer (vs.map Tensor.operand) = .ok type) (hsizes : type.shape = .fixed sizes) :
    fold? options op (vs.map Tensor.operand) type.shape =
      if Shape.volume sizes ≤ options.maxElements then some <$> op.compute vs else .ok none := by
  have hcontents : (vs.map Tensor.operand).mapM (·.contents) = some vs := by
    rw [mapM_eq_some, List.forall₂_map_left_iff, List.forall₂_same]
    exact fun _ _ => rfl
  have hcount : type.shape.elementCount? = some (Shape.volume sizes) := by
    rw [hsizes]
    rfl
  have hwithin := withinLimit_iff he hcount
  unfold fold?
  by_cases hlimit : Shape.volume sizes ≤ options.maxElements
  · rw [if_pos (hwithin.mpr hlimit), if_pos hlimit]
    split
    · -- that the shape is taken without its operand makes no difference
      rename_i target _ dims _ _ hvs
      obtain ⟨t, rfl, -⟩ := Op.unary_operand ht
      obtain ⟨hx, -⟩ := List.cons.inj hvs
      obtain rfl : t.shape = dims := by cases hx; rfl
      rfl
    · rw [hcontents]
      rfl
  · rw [if_neg (mt hwithin.mp hlimit), if_neg hlimit]

/-- So the limit is one on the elements of what is computed. -/
theorem fold?_known_eq_ok (he : options.enabled = true) {sizes : List Nat}
    (ht : op.infer (vs.map Tensor.operand) = .ok type) (hsizes : type.shape = .fixed sizes)
    (hcompute : ∀ v, op.compute vs = .ok v → v.shape = sizes)
    (hk : fold? options op (vs.map Tensor.operand) type.shape = .ok contents) (v : Tensor) :
    contents = some v ↔ op.compute vs = .ok v ∧ v.data.size ≤ options.maxElements := by
  have hsize : ∀ v, op.compute vs = .ok v → v.data.size = Shape.volume sizes := fun v hv => by
    rw [v.size_data, hcompute v hv]
  rw [fold?_known he ht hsizes] at hk
  by_cases hlimit : Shape.volume sizes ≤ options.maxElements
  · rw [if_pos hlimit, map_eq_ok] at hk
    obtain ⟨w, hw, rfl⟩ := hk
    rw [hw, Option.some.injEq, Except.ok.injEq]
    refine ⟨fun h => ⟨h, ?_⟩, And.left⟩
    rwa [← h, hsize w hw]
  · rw [if_neg hlimit] at hk
    obtain rfl := Except.ok.inj hk
    exact iff_of_false nofun fun ⟨hv, hle⟩ => hlimit (hsize v hv ▸ hle)

/-- Nothing else is folded. -/
theorem fold?_unknown (hcontents : operands.mapM (·.contents) = none)
    (hshape : ∀ target dims, op = .shapeOf target →
      ¬ ∃ x rest, operands = x :: rest ∧ x.shape = .fixed dims) (shape : PartialShape) :
    fold? options op operands shape = .ok none := by
  unfold fold?
  split
  · split
    · exact absurd ⟨_, _, rfl, rfl⟩ (hshape _ _ rfl)
    · rw [hcontents]
  · rfl

/-! ## Adding a node -/

theorem mapM_contents
    (hp : List.Forall₂ (fun input node => g.nodes[input]? = some node) inputs producers) :
    (producers.map Node.operand).mapM (·.contents) = inputs.mapM g.contents? := by
  induction hp with
  | nil => rfl
  | cons hnode _ ih =>
    rw [List.map_cons, List.mapM_cons, List.mapM_cons, ih, contents?_of_node hnode]
    rfl

/-- Inputs of known contents are operands of which everything is known. -/
theorem operands_of_known (hg : g.WellFormed)
    (hp : List.Forall₂ (fun input node => g.nodes[input]? = some node) inputs producers)
    (hvs : inputs.mapM g.contents? = some vs) :
    producers.map Node.operand = vs.map Tensor.operand := by
  rw [← List.forall₂_eq_eq_eq, List.forall₂_map_left_iff, List.forall₂_map_right_iff]
  refine forall₂_of_common hp (mapM_eq_some.mp hvs) fun input node v hn hv => ?_
  have hcontents : node.contents = some v := (contents?_of_node hn).symm.trans hv
  have htype : node.type = v.type := hg.settled (operand?_of_node hn) v hcontents
  unfold Node.operand Tensor.operand
  rw [htype, hcontents]

/-- The operation asks for the shape of a value whose recorded shape is fixed. -/
def AsksFixed (g : Graph) (op : Op) (inputs : List ValueId) (target : ElementType)
    (dims : List Nat) : Prop :=
  op = .shapeOf target ∧ ∃ input, inputs = [input] ∧ g.shape input = .ok (.fixed dims)

/-- With folding, the contents of the result of an operation are known in the following cases and
in no other. If those of all inputs are known, the result is known unless it has too many elements;
its shape is fixed in any case, and is that of what the operation computes. If a shape is asked for
that is recorded to be fixed, it is known unless it has too many axes. -/
theorem add_folds (hg : Reachable g) (he : g.fold.enabled = true)
    (hparameter : ∀ name e shape, op ≠ .parameter name e shape)
    (hconstant : ∀ value, op ≠ .constant value) {name : String} {id : ValueId}
    (h : g.add name op inputs = .ok (id, g')) :
    (∀ vs, inputs.mapM g.contents? = some vs →
      (∀ v, g'.contents? id = some v ↔
        op.compute vs = .ok v ∧ v.data.size ≤ g.fold.maxElements) ∧
      ∃ sizes, g'.shape id = .ok (.fixed sizes) ∧
        ∀ v, op.compute vs = .ok v → v.shape = sizes) ∧
    (∀ target dims, g.AsksFixed op inputs target dims →
      g'.contents? id =
        if dims.length ≤ g.fold.maxElements then some (.ofShape target dims) else none) ∧
    (inputs.mapM g.contents? = none → (∀ target dims, ¬ g.AsksFixed op inputs target dims) →
      g'.contents? id = none) := by
  obtain ⟨producers, type, contents, hp, -, ht, hk, rfl, rfl⟩ := add_eq_ok.mp h
  rw [knownContents_eq_fold? hparameter hconstant] at hk
  have hnew : (g.push ⟨name, op, inputs, settle type contents, contents⟩).nodes[g.nodes.size]? =
      some ⟨name, op, inputs, settle type contents, contents⟩ := Array.getElem?_push_size
  rw [contents?_of_node hnew, shape_of_node hnew]
  refine ⟨fun vs hvs => ?_, ?_, fun hvs hno => ?_⟩
  · rw [operands_of_known hg.wellFormed hp hvs] at ht hk
    obtain ⟨sizes, hsizes, hcompute⟩ := infer_known hparameter ht
    have hiff := fold?_known_eq_ok he ht hsizes hcompute hk
    refine ⟨hiff, sizes, congrArg Except.ok ?_, hcompute⟩
    cases contents with
    | none => exact hsizes
    | some v => exact congrArg PartialShape.fixed (hcompute v ((hiff v).mp rfl).1)
  · rintro target dims ⟨rfl, input, rfl, hshape⟩
    obtain _ | ⟨hnode, _ | _⟩ := hp
    rw [shape_of_node hnode, Except.ok.injEq] at hshape
    exact Except.ok.inj (hk.symm.trans (fold?_shapeOf he hshape ht))
  · refine Except.ok.inj (hk.symm.trans (fold?_unknown ?_ ?_ _))
    · rw [mapM_contents hp, hvs]
    · rintro target dims rfl ⟨x, rest, hx, hdims⟩
      obtain ⟨_, hsingle, -, -⟩ := infer_shapeOf_eq_ok.mp ht
      obtain ⟨node, rfl, rfl⟩ := List.map_eq_singleton_iff.mp hsingle
      obtain ⟨rfl, -⟩ := List.cons.inj hx
      obtain _ | @⟨input, _, _, _, hnode, _ | _⟩ := hp
      refine hno target dims ⟨rfl, input, rfl, ?_⟩
      rw [shape_of_node hnode]
      exact congrArg Except.ok hdims

/-- Two constants, of which folding takes results of the size of the first only. -/
def limited : Graph := build ⟨true, 2⟩ [
  .constant "small" (.ofInts [1, 2]),
  .constant "large" (.ofInts [1, 2, 3])]

/-- The sum of the first one with itself is folded. Of that of the second one the shape is fixed,
but the contents are unknown. -/
theorem limited_folds :
    (∃ id g', limited.add "sum" .add [0, 0] = .ok (id, g') ∧
      g'.contents? id = some (.ofInts [2, 4])) ∧
    ∃ id g', limited.add "sum" .add [1, 1] = .ok (id, g') ∧
      g'.contents? id = none ∧ g'.shape id = .ok (.fixed [3]) := by
  have hg : Reachable limited := reachable_build ⟨true, 2⟩ _
  constructor
  · have hadd : (limited.add "sum" .add [0, 0]).map Prod.fst = .ok 2 := by decide +kernel
    obtain ⟨⟨id, g'⟩, h, -⟩ := map_eq_ok.mp hadd
    obtain ⟨hknown, -, -⟩ := add_folds hg (by decide +kernel) (by simp) (by simp) h
    obtain ⟨hcontents, -⟩ := hknown [.ofInts [1, 2], .ofInts [1, 2]] (by decide +kernel)
    exact ⟨id, g', h, (hcontents _).mpr (by decide +kernel)⟩
  · have hadd : (limited.add "sum" .add [1, 1]).map Prod.fst = .ok 2 := by decide +kernel
    have hsum : Op.compute .add [.ofInts [1, 2, 3], .ofInts [1, 2, 3]] =
        .ok (.ofInts [2, 4, 6]) := by decide +kernel
    obtain ⟨⟨id, g'⟩, h, -⟩ := map_eq_ok.mp hadd
    obtain ⟨hknown, -, -⟩ := add_folds hg (by decide +kernel) (by simp) (by simp) h
    obtain ⟨hcontents, sizes, hsizes, hcompute⟩ :=
      hknown [.ofInts [1, 2, 3], .ofInts [1, 2, 3]] (by decide +kernel)
    obtain rfl : [3] = sizes := hcompute _ hsum
    refine ⟨id, g', h, Option.eq_none_iff_forall_ne_some.mpr fun v hv => ?_, hsizes⟩
    obtain ⟨hv, hsize⟩ := (hcontents v).mp hv
    obtain rfl := Except.ok.inj (hsum.symm.trans hv)
    exact absurd hsize (by decide +kernel)

end TensorLowering.Dataflow.Graph
