import TensorLowering.Proofs.Op.ResultShape
import TensorLowering.Proofs.Shape.Precision

/-!
# Typing is monotone

`infer_mono`: where an operation is accepted on operands of which much is known, it is accepted on
the same operands with less known about them, and the result is a type that says less. Each rule is
a list of demands and a shape (`inferGather_eq_ok` and so on), and both are monotone.

`infer_admits` says the same in terms of the shapes that a partial shape stands for.
-/

namespace TensorLowering

open Shape

namespace Op

variable {op : Op} {x y z x' y' z' : Operand} {type : TensorType}

/-! ## What the rules demand -/

/-- The rule of functions of two elements of one type, which has to be among the accepted ones. -/
def inferElementwise (op : Op) (accepts : ElementType → Bool) (demand : Demand)
    (result : ElementType → ElementType) (x y : Operand) : Except Error TensorType := do
  let e ← op.commonType x [y]
  op.demand (accepts e) demand e
  return ⟨result e, ← broadcastAll [x, y]⟩

theorem inferArithmetic_eq :
    op.inferArithmetic = op.inferElementwise ElementType.isNumeric .numericInputs id := rfl

theorem inferLess_eq :
    op.inferLess = op.inferElementwise ElementType.isNumeric .numericInputs fun _ => .bool := rfl

theorem inferAtan2_eq :
    op.inferAtan2 = op.inferElementwise ElementType.isFloat .floatInputs id := rfl

theorem inferElementwise_eq_ok {accepts : ElementType → Bool} {demand : Demand}
    {result : ElementType → ElementType} :
    op.inferElementwise accepts demand result x y = .ok type ↔
      ∃ e, op.commonType x [y] = .ok e ∧ accepts e = true ∧
        ∃ shape, broadcastAll [x, y] = .ok shape ∧ ⟨result e, shape⟩ = type := by
  simp [inferElementwise]

theorem inferSelect_eq_ok : op.inferSelect x y z = .ok type ↔
    x.elementType = .bool ∧ ∃ e, op.commonType y [z] = .ok e ∧
      ∃ shape, broadcastAll [x, y, z] = .ok shape ∧ ⟨e, shape⟩ = type := by
  simp [inferSelect]

theorem inferFloat_eq_ok : op.inferFloat x = .ok type ↔
    x.elementType.isFloat = true ∧ x.toTensorType = type := by
  simp [inferFloat]

theorem inferGather_eq_ok {axis : Int} : op.inferGather axis x y = .ok type ↔
    y.elementType.isInteger = true ∧
      ∃ shape, gatherShape axis x.shape.dims? y.shape.dims? y.ints? = .ok shape ∧
        ⟨x.elementType, shape⟩ = type := by
  simp only [inferGather, gatherShape, bind_eq_ok, demand_eq_ok, exists_const]
  refine and_congr_right fun _ => ?_
  cases x.shape.dims? with
  | none => simp
  | some dims =>
    cases y.shape.dims? with
    | none => simp
    | some indexDims =>
      rcases ha : resolveAxis axis dims.length with _ | a
      · simp [ha]
      · rcases y.ints? with _ | values
        · simp [ha]
        · simp only [bind_eq_ok, ha, Except.ok.injEq, exists_eq_left', checkIndices]
          rcases dims[a]? with _ | _ | size <;> rcases values with _ | values <;> simp

theorem inferConcat_eq_ok {axis : Int} {others : List Operand} :
    op.inferConcat axis x others = .ok type ↔
      ∃ e, op.commonType x others = .ok e ∧
        ∃ shape, concatShape axis (x :: others) = .ok shape ∧ ⟨e, shape⟩ = type := by
  simp only [inferConcat, concatShape, bind_eq_ok]
  refine exists_congr fun e => and_congr_right fun _ => ?_
  rcases concatRanked axis (x :: others) with _ | _ | dims
  · simp
  · simp
  · simp only [Except.ok.injEq, exists_eq_left']
    split <;> simp

/-- The fill value of a padding is a scalar of the type of the data. -/
def checkFill (data : Operand) (fill : Option Operand) : Except Error Unit :=
  match fill with
  | some fill =>
    if fill.elementType ≠ data.elementType then
      .error (.type (.padFill fill.elementType data.elementType))
    else if fill.shape.rank?.any (· != 0) then .error (.shape .padFill)
    else .ok ()
  | none => .ok ()

theorem checkFill_eq_ok {fill : Option Operand} : checkFill x fill = .ok () ↔
    ∀ f, fill = some f → f.elementType = x.elementType ∧
      ∀ rank, f.shape.rank? = some rank → rank = 0 := by
  cases fill with
  | none => simp [checkFill]
  | some f =>
    by_cases he : f.elementType = x.elementType
    · cases hr : f.shape.rank? with
      | none => simp [checkFill, he, hr]
      | some rank => by_cases hz : rank = 0 <;> simp [checkFill, he, hr, hz]
    · simp [checkFill, he]

/-- The counts of a padding are as many as the data has axes. -/
def checkBounds (dims : List (Option Nat)) (bounds : List Operand) : Except Error Unit :=
  bounds.forM fun bound =>
    match bound.shape.firstSize? with
    | some length =>
      if length = dims.length then .ok () else .error (.shape (.padRank length dims.length))
    | none => .ok ()

theorem checkBounds_eq_ok {dims : List (Option Nat)} {bounds : List Operand} :
    checkBounds dims bounds = .ok () ↔
      ∀ bound ∈ bounds, ∀ n, bound.shape.firstSize? = some n → n = dims.length := by
  simp only [checkBounds, List.forM_eq_forM, forM_eq_ok]
  refine forall_congr' fun bound => imp_congr_right fun _ => ?_
  split <;> simp_all

theorem inferPad_eq {fill : Option Operand} : op.inferPad x y z fill = (do
    op.integerVector y "pads_begin" false
    op.integerVector z "pads_end" false
    checkFill x fill
    match x.shape.dims? with
    | none => return ⟨x.elementType, .unranked⟩
    | some dims => do
      checkBounds dims [y, z]
      return ⟨x.elementType, .ofSizes (← paddedDims (← y.ints?) (← z.ints?) dims)⟩) := by
  unfold inferPad checkFill
  cases fill with
  | none => rfl
  | some f =>
    by_cases he : f.elementType = x.elementType
    · by_cases hr : f.shape.rank?.any (· != 0) = true
      · simp [he, hr]
      · simp only [he, hr, ne_eq, not_true_eq_false, if_false]
        rfl
    · simp [he]

theorem inferPad_eq_ok {fill : Option Operand} : op.inferPad x y z fill = .ok type ↔
    op.integerVector y "pads_begin" false = .ok () ∧ op.integerVector z "pads_end" false = .ok () ∧
      checkFill x fill = .ok () ∧
      (∀ dims, x.shape.dims? = some dims → checkBounds dims [y, z] = .ok ()) ∧
      ∃ shape, padShape x.shape.dims? y.ints? z.ints? = .ok shape ∧
        ⟨x.elementType, shape⟩ = type := by
  simp only [inferPad_eq, bind_eq_ok, exists_unit]
  refine and_congr_right fun _ => and_congr_right fun _ => and_congr_right fun _ => ?_
  cases x.shape.dims? with
  | none => simp [padShape]
  | some dims => simp [padShape, and_assoc]

theorem inferReduce_eq_ok {kind : ReduceKind} {keepDims : Bool} :
    op.inferReduce kind keepDims x y = .ok type ↔
      (if kind.isLogical then x.elementType = .bool else x.elementType.isNumeric = true) ∧
        op.integerVector y "axes" true = .ok () ∧
        ∃ shape, reduceShape keepDims x.shape.dims? y.ints? = .ok shape ∧
          ⟨x.elementType, shape⟩ = type := by
  unfold inferReduce reduceShape
  simp only
  split <;> simp only [bind_eq_ok, demand_eq_ok, exists_const, exists_unit, beq_iff_eq] <;>
    refine and_congr_right fun _ => and_congr_right fun _ => ?_ <;>
    cases x.shape.dims? <;> rcases y.ints? with _ | _ | values <;> simp

theorem inferBroadcast_eq_ok : op.inferBroadcast x y = .ok type ↔
    op.integerVector y "target shape" false = .ok () ∧
      ∃ shape, broadcastShape x.shape.dims? y.ints? y.shape.firstSize? = .ok shape ∧
        ⟨x.elementType, shape⟩ = type := by
  simp only [inferBroadcast, broadcastShape, bind_eq_ok, exists_unit]
  refine and_congr_right fun _ => ?_
  cases x.shape.dims? <;> rcases y.ints? with _ | _ | values <;> try simp [and_assoc]
  cases y.shape.firstSize? <;> simp [openShape]

theorem inferReshape_eq_ok {specialZero : Bool} : op.inferReshape specialZero x y = .ok type ↔
    op.integerVector y "shape" false = .ok () ∧
      ∃ shape, reshapeShape specialZero x.shape.dims? y.ints? y.shape.firstSize? = .ok shape ∧
        ⟨x.elementType, shape⟩ = type := by
  simp only [inferReshape, reshapeShape, bind_eq_ok, exists_unit]
  refine and_congr_right fun _ => ?_
  rcases y.ints? with _ | _ | values <;> try simp
  cases y.shape.firstSize? <;> simp [openShape]

theorem inferSqueeze_eq_ok {axes : List Int} : inferSqueeze axes x = .ok type ↔
    ∃ shape, squeezeShape axes x.shape.dims? = .ok shape ∧ ⟨x.elementType, shape⟩ = type := by
  unfold inferSqueeze squeezeShape
  cases x.shape.dims? <;> simp

theorem inferUnsqueeze_eq_ok {axes : List Int} : inferUnsqueeze axes x = .ok type ↔
    ∃ shape, unsqueezeShape axes x.shape.dims? = .ok shape ∧ ⟨x.elementType, shape⟩ = type := by
  unfold inferUnsqueeze unsqueezeShape
  cases x.shape.dims? <;> simp

theorem inferShapeOf_eq_ok {target : ElementType} : op.inferShapeOf target x = .ok type ↔
    target.isInteger = true ∧ ⟨target, .ofSizes [x.shape.rank?]⟩ = type := by
  simp [inferShapeOf]

theorem inferScatter_eq_ok : op.inferScatter x y z = .ok type ↔
    y.elementType.isInteger = true ∧ z.elementType = x.elementType ∧ x.toTensorType = type ∧
      ∀ data indices updates, x.shape.fixed? = some data → y.shape.fixed? = some indices →
        z.shape.fixed? = some updates → updatesShape data indices = .ok updates := by
  simp only [inferScatter, bind_eq_ok, demand_eq_ok, exists_const]
  refine and_congr_right fun _ => ?_
  by_cases he : z.elementType = x.elementType
  · rw [if_neg (by simpa using he)]
    cases x.shape.fixed? with
    | none => simp [he]
    | some data =>
      cases y.shape.fixed? with
      | none => simp [he]
      | some indices =>
        cases z.shape.fixed? with
        | none => simp [he]
        | some updates =>
          rcases hs : updatesShape data indices with _ | expected
          · simp [hs]
          · by_cases hu : expected = updates <;> simp [he, hs, hu]
  · simp [he]

theorem inferComplexMark_eq_ok {partType : ElementType} :
    op.inferComplexMark partType x = .ok type ↔
      x.elementType = partType ∧ x.elementType.isFloat = true ∧ x.toTensorType = type ∧
        ∀ dims, x.shape.dims? = some dims →
          ∃ last, dims.getLast? = some last ∧ ∀ size, last = some size → size = 2 := by
  unfold inferComplexMark
  by_cases he : x.elementType = partType
  · simp only [he, ne_eq, not_true, if_false, bind_eq_ok, demand_eq_ok, exists_const, true_and]
    refine and_congr_right fun _ => ?_
    cases hd : x.shape.dims? with
    | none => simp
    | some dims =>
      simp only [Option.some.injEq, forall_eq']
      rcases hl : dims.getLast? with _ | _ | size
      · simp
      · simp
      · by_cases hs : size = 2 <;> simp [hs]
  · simp [he]

/-! ## The rules are monotone -/

theorem inferElementwise_mono {accepts : ElementType → Bool} {demand : Demand}
    {result : ElementType → ElementType} (hx : x.Narrows x') (hy : y.Narrows y')
    (hok : op.inferElementwise accepts demand result x y = .ok type) :
    ∃ type', op.inferElementwise accepts demand result x' y' = .ok type' ∧ type.Refines type' := by
  obtain ⟨e, he, ha, shape, hs, rfl⟩ := inferElementwise_eq_ok.mp hok
  rw [commonType_congr hx.elementType (.cons hy.elementType .nil)] at he
  obtain ⟨shape', hs', hf⟩ := broadcastAll_mono (.cons hx (.cons hy .nil)) hs
  exact ⟨_, inferElementwise_eq_ok.mpr ⟨e, he, ha, shape', hs', rfl⟩, rfl, hf⟩

theorem inferSelect_mono (hx : x.Narrows x') (hy : y.Narrows y') (hz : z.Narrows z')
    (hok : op.inferSelect x y z = .ok type) :
    ∃ type', op.inferSelect x' y' z' = .ok type' ∧ type.Refines type' := by
  obtain ⟨hb, e, he, shape, hs, rfl⟩ := inferSelect_eq_ok.mp hok
  rw [hx.elementType] at hb
  rw [commonType_congr hy.elementType (.cons hz.elementType .nil)] at he
  obtain ⟨shape', hs', hf⟩ := broadcastAll_mono (.cons hx (.cons hy (.cons hz .nil))) hs
  exact ⟨_, inferSelect_eq_ok.mpr ⟨hb, e, he, shape', hs', rfl⟩, rfl, hf⟩

theorem inferFloat_mono (hx : x.Narrows x') (hok : op.inferFloat x = .ok type) :
    ∃ type', op.inferFloat x' = .ok type' ∧ type.Refines type' := by
  obtain ⟨hf, rfl⟩ := inferFloat_eq_ok.mp hok
  rw [hx.elementType] at hf
  exact ⟨_, inferFloat_eq_ok.mpr ⟨hf, rfl⟩, hx.type⟩

theorem inferGather_mono {axis : Int} (hx : x.Narrows x') (hy : y.Narrows y')
    (hok : op.inferGather axis x y = .ok type) :
    ∃ type', op.inferGather axis x' y' = .ok type' ∧ type.Refines type' := by
  obtain ⟨hi, shape, hs, rfl⟩ := inferGather_eq_ok.mp hok
  rw [hy.elementType] at hi
  obtain ⟨shape', hs', hf⟩ := gatherShape_mono hx.dims hy.dims hy.ints hs
  exact ⟨_, inferGather_eq_ok.mpr ⟨hi, shape', hs', rfl⟩, hx.elementType, hf⟩

theorem inferConcat_mono {axis : Int} {others others' : List Operand} (hx : x.Narrows x')
    (ho : List.Forall₂ Operand.Narrows others others')
    (hok : op.inferConcat axis x others = .ok type) :
    ∃ type', op.inferConcat axis x' others' = .ok type' ∧ type.Refines type' := by
  obtain ⟨e, he, shape, hs, rfl⟩ := inferConcat_eq_ok.mp hok
  rw [commonType_congr hx.elementType (ho.imp fun _ _ => Operand.Narrows.elementType)] at he
  obtain ⟨shape', hs', hf⟩ := concatShape_mono (.cons hx ho) hs
  exact ⟨_, inferConcat_eq_ok.mpr ⟨e, he, shape', hs', rfl⟩, rfl, hf⟩

theorem checkBounds_mono (hx : x.Narrows x') {bounds bounds' : List Operand}
    (hb : List.Forall₂ Operand.Narrows bounds bounds')
    (h : ∀ dims, x.shape.dims? = some dims → checkBounds dims bounds = .ok ()) :
    ∀ dims, x'.shape.dims? = some dims → checkBounds dims bounds' = .ok () := by
  intro dims' hd'
  obtain ⟨dims, hd, hf⟩ := hx.dims dims' hd'
  rw [checkBounds_eq_ok]
  intro bound' hb' n hn
  obtain ⟨bound, hbound, hr⟩ := exists_of_forall₂_right hb hb'
  rw [← hf.length_eq]
  exact checkBounds_eq_ok.mp (h dims hd) bound hbound n (hr.shape.firstSize? hn)

theorem checkFill_mono (hx : x.Narrows x') {fill fill' : Option Operand}
    (hf : ∀ f', fill' = some f' → ∃ f, fill = some f ∧ f.Narrows f')
    (h : checkFill x fill = .ok ()) : checkFill x' fill' = .ok () := by
  rw [checkFill_eq_ok] at h ⊢
  intro f' hf'
  obtain ⟨f, hfill, hr⟩ := hf f' hf'
  rw [← hr.elementType, ← hx.elementType]
  exact ⟨(h f hfill).1, fun rank hrank => (h f hfill).2 rank (hr.shape.rank? hrank)⟩

theorem inferPad_mono {fill fill' : Option Operand} (hx : x.Narrows x') (hy : y.Narrows y')
    (hz : z.Narrows z') (hf : ∀ f', fill' = some f' → ∃ f, fill = some f ∧ f.Narrows f')
    (hok : op.inferPad x y z fill = .ok type) :
    ∃ type', op.inferPad x' y' z' fill' = .ok type' ∧ type.Refines type' := by
  obtain ⟨hb, ha, hfill, hlen, shape, hs, rfl⟩ := inferPad_eq_ok.mp hok
  obtain ⟨shape', hs', hss⟩ := padShape_mono hx.dims hy.ints hz.ints hs
  exact ⟨_, inferPad_eq_ok.mpr ⟨integerVector_mono hy hb, integerVector_mono hz ha,
    checkFill_mono hx hf hfill, checkBounds_mono hx (.cons hy (.cons hz .nil)) hlen, shape', hs',
    rfl⟩, hx.elementType, hss⟩

theorem inferReduce_mono {kind : ReduceKind} {keepDims : Bool} (hx : x.Narrows x')
    (hy : y.Narrows y') (hok : op.inferReduce kind keepDims x y = .ok type) :
    ∃ type', op.inferReduce kind keepDims x' y' = .ok type' ∧ type.Refines type' := by
  obtain ⟨he, hv, shape, hs, rfl⟩ := inferReduce_eq_ok.mp hok
  rw [hx.elementType] at he
  obtain ⟨shape', hs', hf⟩ := reduceShape_mono hx.dims hy.ints hs
  exact ⟨_, inferReduce_eq_ok.mpr ⟨he, integerVector_mono hy hv, shape', hs', rfl⟩,
    hx.elementType, hf⟩

theorem inferBroadcast_mono (hx : x.Narrows x') (hy : y.Narrows y')
    (hok : op.inferBroadcast x y = .ok type) :
    ∃ type', op.inferBroadcast x' y' = .ok type' ∧ type.Refines type' := by
  obtain ⟨hv, shape, hs, rfl⟩ := inferBroadcast_eq_ok.mp hok
  have hv' := integerVector_mono hy hv
  obtain ⟨shape', hs', hf⟩ := broadcastShape_mono hx.dims hy.ints (finerLength hy hv') hs
  exact ⟨_, inferBroadcast_eq_ok.mpr ⟨hv', shape', hs', rfl⟩, hx.elementType, hf⟩

theorem inferReshape_mono {specialZero : Bool} (hx : x.Narrows x') (hy : y.Narrows y')
    (hok : op.inferReshape specialZero x y = .ok type) :
    ∃ type', op.inferReshape specialZero x' y' = .ok type' ∧ type.Refines type' := by
  obtain ⟨hv, shape, hs, rfl⟩ := inferReshape_eq_ok.mp hok
  have hv' := integerVector_mono hy hv
  obtain ⟨shape', hs', hf⟩ := reshapeShape_mono hx.dims hy.ints (finerLength hy hv') hs
  exact ⟨_, inferReshape_eq_ok.mpr ⟨hv', shape', hs', rfl⟩, hx.elementType, hf⟩

theorem inferSqueeze_mono {axes : List Int} (hx : x.Narrows x')
    (hok : inferSqueeze axes x = .ok type) :
    ∃ type', inferSqueeze axes x' = .ok type' ∧ type.Refines type' := by
  obtain ⟨shape, hs, rfl⟩ := inferSqueeze_eq_ok.mp hok
  obtain ⟨shape', hs', hf⟩ := squeezeShape_mono hx.dims hs
  exact ⟨_, inferSqueeze_eq_ok.mpr ⟨shape', hs', rfl⟩, hx.elementType, hf⟩

theorem inferUnsqueeze_mono {axes : List Int} (hx : x.Narrows x')
    (hok : inferUnsqueeze axes x = .ok type) :
    ∃ type', inferUnsqueeze axes x' = .ok type' ∧ type.Refines type' := by
  obtain ⟨shape, hs, rfl⟩ := inferUnsqueeze_eq_ok.mp hok
  obtain ⟨shape', hs', hf⟩ := unsqueezeShape_mono hx.dims hs
  exact ⟨_, inferUnsqueeze_eq_ok.mpr ⟨shape', hs', rfl⟩, hx.elementType, hf⟩

theorem inferShapeOf_mono {target : ElementType} (hx : x.Narrows x')
    (hok : op.inferShapeOf target x = .ok type) :
    ∃ type', op.inferShapeOf target x' = .ok type' ∧ type.Refines type' := by
  obtain ⟨ht, rfl⟩ := inferShapeOf_eq_ok.mp hok
  exact ⟨_, inferShapeOf_eq_ok.mpr ⟨ht, rfl⟩, rfl, .ofSizes (.cons (fun _ => hx.shape.rank?) .nil)⟩

/-- The one rule that asks whether a shape is fixed: here a fixed shape has to stay one. -/
theorem inferScatter_mono (hx : x.Narrows x') (hy : y.Narrows y') (hz : z.Narrows z')
    (hok : op.inferScatter x y z = .ok type) :
    ∃ type', op.inferScatter x' y' z' = .ok type' ∧ type.Refines type' := by
  obtain ⟨hi, he, rfl, hs⟩ := inferScatter_eq_ok.mp hok
  rw [hy.elementType] at hi
  rw [hz.elementType, hx.elementType] at he
  refine ⟨_, inferScatter_eq_ok.mpr ⟨hi, he, rfl, fun data indices updates hd hi hu => ?_⟩, hx.type⟩
  exact hs data indices updates (hx.shape.fixed? hd) (hy.shape.fixed? hi) (hz.shape.fixed? hu)

theorem inferComplexMark_mono {partType : ElementType} (hx : x.Narrows x')
    (hok : op.inferComplexMark partType x = .ok type) :
    ∃ type', op.inferComplexMark partType x' = .ok type' ∧ type.Refines type' := by
  obtain ⟨he, hf, rfl, hlast⟩ := inferComplexMark_eq_ok.mp hok
  rw [hx.elementType] at he hf
  refine ⟨_, inferComplexMark_eq_ok.mpr ⟨he, hf, rfl, fun dims' hd' => ?_⟩, hx.type⟩
  obtain ⟨dims, hd, hdd⟩ := hx.dims dims' hd'
  obtain ⟨last, hl, h2⟩ := hlast dims hd
  rw [List.getLast?_eq_getElem?, hdd.length_eq] at hl
  obtain ⟨last', hl', hll⟩ := getElem?_of_forall₂ hdd hl
  refine ⟨last', by rw [List.getLast?_eq_getElem?, hl'], fun size hs => h2 size ?_⟩
  rw [hs] at hll
  exact finer_some.mp hll

/-! ## All operations -/

section Arity

variable {fines coarses : List Operand} (h : List.Forall₂ Operand.Narrows fines coarses)
include h

theorem nullary_mono {next : Except Error TensorType} (hok : op.nullary fines next = .ok type) :
    ∃ type', op.nullary coarses next = .ok type' ∧ type.Refines type' := by
  obtain ⟨rfl, hok⟩ := nullary_eq_ok.mp hok
  cases h
  exact ⟨type, nullary_eq_ok.mpr ⟨rfl, hok⟩, .refl _⟩

theorem unary_mono {rule : Operand → Except Error TensorType}
    (hr : ∀ {x x'}, x.Narrows x' → rule x = .ok type →
      ∃ type', rule x' = .ok type' ∧ type.Refines type')
    (hok : op.unary fines rule = .ok type) :
    ∃ type', op.unary coarses rule = .ok type' ∧ type.Refines type' := by
  obtain ⟨x, rfl, hok⟩ := unary_eq_ok.mp hok
  obtain _ | ⟨hx, _ | _⟩ := h
  exact hr hx hok

theorem binary_mono {rule : Operand → Operand → Except Error TensorType}
    (hr : ∀ {x x' y y'}, x.Narrows x' → y.Narrows y' → rule x y = .ok type →
      ∃ type', rule x' y' = .ok type' ∧ type.Refines type')
    (hok : op.binary fines rule = .ok type) :
    ∃ type', op.binary coarses rule = .ok type' ∧ type.Refines type' := by
  obtain ⟨x, y, rfl, hok⟩ := binary_eq_ok.mp hok
  obtain _ | ⟨hx, _ | ⟨hy, _ | _⟩⟩ := h
  exact hr hx hy hok

theorem ternary_mono {rule : Operand → Operand → Operand → Except Error TensorType}
    (hr : ∀ {x x' y y' z z'}, x.Narrows x' → y.Narrows y' → z.Narrows z' → rule x y z = .ok type →
      ∃ type', rule x' y' z' = .ok type' ∧ type.Refines type')
    (hok : op.ternary fines rule = .ok type) :
    ∃ type', op.ternary coarses rule = .ok type' ∧ type.Refines type' := by
  obtain ⟨x, y, z, rfl, hok⟩ := ternary_eq_ok.mp hok
  obtain _ | ⟨hx, _ | ⟨hy, _ | ⟨hz, _ | _⟩⟩⟩ := h
  exact hr hx hy hz hok

omit h in
theorem infer_pad (mode : PadMode) (x y z : Operand) :
    (pad mode).infer [x, y, z] = (pad mode).inferPad x y z none := by
  cases mode <;> rfl

omit h in
theorem infer_pad_fill (x y z f : Operand) : (pad .constant).infer [x, y, z, f] =
    (pad .constant).inferPad x y z (some f) := rfl

/-- Where an operation is accepted on operands, it is accepted where less is known about them, and
less is known about the result. -/
theorem infer_of_narrows (hok : op.infer fines = .ok type) :
    ∃ type', op.infer coarses = .ok type' ∧ type.Refines type' := by
  cases op with
  | parameter name elementType shape => exact nullary_mono h hok
  | constant value => exact nullary_mono h hok
  | convert target =>
    refine unary_mono h (fun hx hok => ?_) hok
    obtain rfl := Except.ok.inj hok
    exact ⟨_, rfl, rfl, hx.shape⟩
  | add => exact binary_mono h inferElementwise_mono hok
  | subtract => exact binary_mono h inferElementwise_mono hok
  | multiply => exact binary_mono h inferElementwise_mono hok
  | less => exact binary_mono h inferElementwise_mono hok
  | sqrt => exact unary_mono h inferFloat_mono hok
  | cos => exact unary_mono h inferFloat_mono hok
  | sin => exact unary_mono h inferFloat_mono hok
  | atan2 => exact binary_mono h inferElementwise_mono hok
  | gather axis => exact binary_mono h inferGather_mono hok
  | concat axis =>
    cases h with
    | nil => cases hok
    | cons hx ho => exact inferConcat_mono hx ho hok
  | pad mode =>
    rcases h with _ | ⟨hx, _ | ⟨hy, _ | ⟨hz, _ | ⟨hf, _ | _⟩⟩⟩⟩
    · cases mode <;> cases hok
    · cases mode <;> cases hok
    · cases mode <;> cases hok
    · rw [infer_pad] at hok ⊢
      exact inferPad_mono hx hy hz (by simp) hok
    · cases mode with
      | constant =>
        rw [infer_pad_fill] at hok ⊢
        exact inferPad_mono hx hy hz (by simpa using hf) hok
      | _ => cases hok
    · cases mode <;> cases hok
  | reduce kind keepDims => exact binary_mono h inferReduce_mono hok
  | broadcast => exact binary_mono h inferBroadcast_mono hok
  | scatterNdUpdate => exact ternary_mono h inferScatter_mono hok
  | select => exact ternary_mono h inferSelect_mono hok
  | reshape specialZero => exact binary_mono h inferReshape_mono hok
  | squeeze axes => exact unary_mono h inferSqueeze_mono hok
  | unsqueeze axes => exact unary_mono h inferUnsqueeze_mono hok
  | shapeOf outputType => exact unary_mono h inferShapeOf_mono hok
  | complexMark partType => exact unary_mono h inferComplexMark_mono hok

end Arity

/-- The same for operands of which the fine ones are settled. -/
theorem infer_mono {fines coarses : List Operand} (h : List.Forall₂ Operand.Refines fines coarses)
    (hok : op.infer fines = .ok type) :
    ∃ type', op.infer coarses = .ok type' ∧ type.Refines type' :=
  infer_of_narrows (h.imp fun _ _ => Operand.Refines.narrows) hok

end Op

/-! ## The shapes that are allowed -/

/-- Fewer shapes match the fine operand, it is fixed where the coarse one is, and it keeps the
contents that are known there. Where its contents are known, they have its shape. -/
structure Operand.Sharpens (fine coarse : Operand) : Prop where
  elementType : fine.elementType = coarse.elementType
  admits : ∀ sizes, fine.shape.admits sizes = true → coarse.shape.admits sizes = true
  fixed : coarse.shape.isFixed = true → fine.shape.isFixed = true
  contents : ∀ value, coarse.contents = some value → fine.contents = some value
  sized : ∀ value, fine.contents = some value → fine.shape = .fixed value.shape

theorem Operand.Sharpens.narrows {fine coarse : Operand} (h : fine.Sharpens coarse) :
    fine.Narrows coarse :=
  ⟨⟨h.elementType, refines_of_admits h.admits h.fixed⟩, h.contents, h.sized⟩

namespace Op

/-- Where an operation is accepted on operands, it is accepted where less is known about them, with
a result of the same element type that all shapes match which match the sharper result. -/
theorem infer_admits {op : Op} {fines coarses : List Operand} {e : ElementType}
    {shape : PartialShape} (h : List.Forall₂ Operand.Sharpens fines coarses)
    (hok : op.infer fines = .ok ⟨e, shape⟩) :
    ∃ shape', op.infer coarses = .ok ⟨e, shape'⟩ ∧
      ∀ sizes, shape.admits sizes = true → shape'.admits sizes = true := by
  obtain ⟨⟨e', shape'⟩, hok', he, hs⟩ :=
    infer_of_narrows (h.imp fun _ _ => Operand.Sharpens.narrows) hok
  obtain rfl : e = e' := he
  exact ⟨shape', hok', finerShape_iff_admits.mp hs.dims⟩

/-- Six elements in two rows: the shape stays open where neither the number of elements nor the
target is known. -/
theorem infer_admits_reshape :
    let fines : List Operand :=
      [⟨⟨.f32, .fixed [6]⟩, none⟩, ⟨⟨.i64, .fixed [2]⟩, some (.ofInts [2, -1])⟩]
    let coarses : List Operand := [⟨⟨.f32, .ranked [none]⟩, none⟩, ⟨⟨.i64, .fixed [2]⟩, none⟩]
    List.Forall₂ Operand.Sharpens fines coarses ∧
      (reshape false).infer fines = .ok ⟨.f32, .fixed [2, 3]⟩ ∧
      ∃ shape', (reshape false).infer coarses = .ok ⟨.f32, shape'⟩ ∧
        ∀ sizes, (PartialShape.fixed [2, 3]).admits sizes = true → shape'.admits sizes = true := by
  intro fines coarses
  have hsharp : List.Forall₂ Operand.Sharpens fines coarses := by
    refine .cons ⟨rfl, fun sizes hs => ?_, nofun, nofun, nofun⟩
      (.cons ⟨rfl, fun _ hs => hs, id, nofun, ?_⟩ .nil)
    · rw [PartialShape.admits_eq_true, PartialShape.refines_fixed] at hs ⊢
      exact hs.trans (finerShape_some.mpr ⟨_, rfl, .cons (finer_none _) .nil⟩)
    · rintro value ⟨⟩
      rfl
  exact ⟨hsharp, by decide, infer_admits hsharp (by decide)⟩

end Op

end TensorLowering
