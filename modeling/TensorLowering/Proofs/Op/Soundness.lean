import TensorLowering.Proofs.Op.Monotone
import TensorLowering.Proofs.Op.ResultType

/-!
# Typing is sound

`compute_sound`: a tensor that an operation computes has the type that was inferred from what was
known about the operands. A tensor is an operand of which everything is known (`Tensor.operand`), so
what a tensor stands for as an operand is again a question of refinement. The shape rule, run on
what is known about the tensors themselves, gives exactly the shape of the result, and rules are
monotone.
-/

namespace TensorLowering

open Shape

namespace Tensor

/-- A tensor as an operand of which everything is known. -/
def operand (t : Tensor) : Operand :=
  { t.type with contents := some t }

theorem ints?_operand {t : Tensor} {values : List Int} (h : t.ints = .ok values) :
    t.operand.ints? = .ok (some values) := by
  dsimp only [operand, Operand.ints?]
  rw [h]
  rfl

theorem dims?_operand (t : Tensor) : t.operand.shape.dims? = some (t.shape.map some) := rfl

theorem operand_settled (t : Tensor) : t.operand.Settled := fun value h => by
  obtain rfl := Option.some.inj h
  rfl

end Tensor

namespace Op

variable {op : Op} {x y z : Operand} {t u w v : Tensor} {type : TensorType}

/-! ## Shape rules on tensors -/

theorem joinDims_known {left right shape : List Nat} {t : Tensor} (ht : t.shape = right)
    (h : Shape.broadcast left right = .ok shape) :
    joinDims (some (left.map some)) t.operand = .ok (some (shape.map some)) := by
  subst ht
  show (some <$> broadcastPartial (left.map some) (t.shape.map some)) = _
  rw [broadcast_eq_ok h]
  rfl

theorem joinDims_nil (t : Tensor) :
    joinDims (some []) t.operand = .ok (some (t.shape.map some)) := by
  show (some <$> broadcastPartial [] (t.shape.map some)) = _
  rw [broadcastPartial_nil]
  rfl

theorem broadcastAll_known {shape : List Nat} (h : Shape.broadcast t.shape u.shape = .ok shape) :
    broadcastAll [t.operand, u.operand] = .ok (.fixed shape) := by
  rw [broadcastAll_eq]
  simp only [List.foldlM_cons, List.foldlM_nil, joinDims_nil, ok_bind, joinDims_known rfl h]
  exact congrArg Except.ok (PartialShape.ofSizes_map_some shape)

theorem broadcastAll_known₃ {inner shape : List Nat}
    (hi : Shape.broadcast t.shape u.shape = .ok inner)
    (hs : Shape.broadcast inner w.shape = .ok shape) :
    broadcastAll [t.operand, u.operand, w.operand] = .ok (.fixed shape) := by
  rw [broadcastAll_eq]
  simp only [List.foldlM_cons, List.foldlM_nil, joinDims_nil, ok_bind, joinDims_known rfl hi,
    joinDims_known rfl hs]
  exact congrArg Except.ok (PartialShape.ofSizes_map_some shape)

/-! ### Joining -/

/-- A list is known from its length, one element and the others. -/
theorem eq_set_of_eraseIdx {shape first : List Nat} {axis : Nat}
    (hlen : shape.length = first.length) (he : shape.eraseIdx axis = first.eraseIdx axis) :
    shape = first.set axis (shape.getD axis 0) := by
  induction shape generalizing first axis with
  | nil => rw [List.length_eq_zero_iff.mp hlen.symm]; rfl
  | cons size shape ih =>
    cases first with
    | nil => cases hlen
    | cons size' first =>
      cases axis with
      | zero => exact congrArg (size :: ·) he
      | succ axis =>
        obtain ⟨rfl, hrest⟩ := List.cons.inj he
        exact congrArg (size :: ·) (ih (Nat.succ.inj hlen) hrest)

theorem concatDims_known {axis m n : Nat} (shape : List Nat) :
    concatDims axis ((shape.set axis m).map some) ((shape.set axis n).map some) =
      .ok ((shape.set axis (m + n)).map some) := by
  refine concatDims_eq_ok.mpr ⟨by simp, mapM_eq_ok.mpr (List.forall₂_iff_get.mpr ⟨by simp, ?_⟩)⟩
  intro i hi hi'
  simp only [List.get_eq_getElem, List.getElem_zipIdx, Nat.zero_add, List.getElem_zip,
    List.getElem_map, List.getElem_set, joinedDim, @eq_comm _ i axis]
  split
  · rfl
  · simp [concatOtherDim]

/-- The parts that follow a part of length `n` along the axis add their lengths to it. -/
theorem concatRanked_known {axis : Int} {a : Nat} {shape : List Nat}
    (ha : resolveAxis axis shape.length = .ok a) {others : List Tensor}
    (ho : ∀ other ∈ others, other.shape.length = shape.length ∧
      other.shape.eraseIdx a = shape.eraseIdx a) (n : Nat) :
    (others.map Tensor.operand).foldlM
        (fun joined operand => joinRanked axis joined operand.shape.dims?)
        (some ((shape.set a n).map some)) =
      .ok (some ((shape.set a
        (n + others.foldr (fun part length => part.shape.getD a 0 + length) 0)).map some)) := by
  induction others generalizing n with
  | nil => rfl
  | cons other others ih =>
    obtain ⟨hlen, he⟩ := ho other List.mem_cons_self
    have hjoin : joinRanked axis (some ((shape.set a n).map some)) other.operand.shape.dims? =
        .ok (some ((shape.set a (n + other.shape.getD a 0)).map some)) := by
      show (resolveAxis axis (other.shape.map some).length >>= fun a => some <$> concatDims a _
        (other.shape.map some)) = _
      rw [List.length_map, hlen, ha, ok_bind, eq_set_of_eraseIdx hlen he, concatDims_known,
        ← eq_set_of_eraseIdx hlen he]
      rfl
    rw [List.map_cons, List.foldlM_cons, hjoin, ok_bind,
      ih (fun part hp => ho part (List.mem_cons_of_mem _ hp)), List.foldr_cons, Nat.add_assoc]

theorem concatShape_known {axis : Int} {others : List Tensor} {a : Nat}
    (ha : resolveAxis axis t.shape.length = .ok a)
    (ho : ∀ other ∈ others, other.shape.length = t.shape.length ∧
      other.shape.eraseIdx a = t.shape.eraseIdx a) :
    concatShape axis ((t :: others).map Tensor.operand) = .ok (.fixed (t.shape.set a
      ((t :: others).foldr (fun part length => part.shape.getD a 0 + length) 0))) := by
  have hfirst : joinRanked axis none t.operand.shape.dims? =
      .ok (some ((t.shape.set a (t.shape.getD a 0)).map some)) := by
    rw [← eq_set_of_eraseIdx rfl rfl]
    show (resolveAxis axis (t.shape.map some).length >>= fun _ => pure _) = _
    rw [List.length_map, ha]
    rfl
  have hall : ((t :: others).map Tensor.operand).all (·.shape.rank?.isSome) = true := by
    rw [List.all_map, List.all_eq_true]
    exact fun _ _ => rfl
  unfold concatShape
  rw [concatRanked_eq, List.map_cons, List.foldlM_cons, hfirst, ok_bind, concatRanked_known ha ho,
    ok_bind]
  dsimp only
  rw [← List.map_cons, if_pos hall, PartialShape.ofSizes_map_some]
  rfl

/-! ### Padding -/

/-- The counts for the axes from the given one on. -/
theorem mapM_paddedDim {before after befores afters : List Int} {sizes shape : List Nat} {k : Nat}
    (hb : before.drop k = befores) (ha : after.drop k = afters)
    (hlb : befores.length = sizes.length) (hla : afters.length = sizes.length)
    (h : Tensor.paddedShape sizes befores afters = .ok shape) :
    ((sizes.map some).zipIdx k).mapM (fun p => paddedDim (some before) (some after) p.1 p.2) =
      .ok (shape.map some) := by
  induction sizes generalizing befores afters shape k with
  | nil => rw [← Except.ok.inj h]; rfl
  | cons size sizes ih =>
    obtain ⟨b, befores, rfl⟩ := List.exists_cons_of_length_eq_add_one hlb
    obtain ⟨a, afters, rfl⟩ := List.exists_cons_of_length_eq_add_one hla
    obtain ⟨padded, hp, h⟩ := bind_eq_ok.mp h
    obtain ⟨rest, hr, h⟩ := bind_eq_ok.mp h
    have hhead : paddedDim (some before) (some after) (some size) k = .ok (some padded) := by
      have hbk : before[k]? = some b := by rw [← List.head?_drop, hb, List.head?_cons]
      have hak : after[k]? = some a := by rw [← List.head?_drop, ha, List.head?_cons]
      unfold paddedDim
      rw [Option.bind_some, Option.bind_some, hbk, hak]
      dsimp only
      rw [hp, ok_bind, pure_eq_ok]
    have htail := ih (by rw [← List.tail_drop, hb, List.tail_cons])
      (by rw [← List.tail_drop, ha, List.tail_cons]) (Nat.succ.inj hlb) (Nat.succ.inj hla) hr
    rw [← Except.ok.inj h, List.map_cons, List.zipIdx_cons, List.mapM_cons, hhead, ok_bind, htail,
      ok_bind, pure_eq_ok, List.map_cons]

theorem padShape_known {before after : List Int} {shape : List Nat}
    (hb : u.ints = .ok before) (ha : w.ints = .ok after) (hlb : before.length = t.shape.length)
    (hla : after.length = t.shape.length)
    (h : Tensor.paddedShape t.shape before after = .ok shape) :
    padShape t.operand.shape.dims? u.operand.ints? w.operand.ints? = .ok (.fixed shape) := by
  rw [Tensor.ints?_operand hb, Tensor.ints?_operand ha]
  show (PartialShape.ofSizes <$> paddedDims (some before) (some after) (t.shape.map some)) = _
  rw [paddedDims_eq, mapM_paddedDim List.drop_zero List.drop_zero hlb hla h]
  exact congrArg Except.ok (PartialShape.ofSizes_map_some shape)

/-! ### Gathering and reducing -/

theorem gatherShape_known {axis : Int} {a : Nat} {values : List Int} {positions : List Nat}
    (ha : resolveAxis axis t.shape.length = .ok a) (hv : u.ints = .ok values)
    (hp : values.mapM (resolveIndex · (t.shape.getD a 0)) = .ok positions) :
    gatherShape axis t.operand.shape.dims? u.operand.shape.dims? u.operand.ints? =
      .ok (.fixed (t.shape.take a ++ u.shape ++ t.shape.drop (a + 1))) := by
  have hcheck : checkIndices (t.shape.map some)[a]? (some values) = .ok () := by
    rw [checkIndices_eq_ok]
    intro n is hn his i hi
    obtain rfl := Option.some.inj his
    have hsize : t.shape[a]? = some n := by simpa using hn
    obtain ⟨position, -, h⟩ := exists_of_forall₂_left (mapM_eq_ok.mp hp) hi
    exact ⟨position, by rw [← h, List.getD_eq_getElem?_getD, hsize, Option.getD_some]⟩
  rw [Tensor.ints?_operand hv, Tensor.dims?_operand, Tensor.dims?_operand]
  simp only [gatherShape, List.length_map, ha, ok_bind, hcheck, ← List.map_take, ← List.map_drop,
    ← List.map_append, PartialShape.ofSizes_map_some, pure_eq_ok]

theorem reduceShape_known {keepDims : Bool} {values : List Int} {positions : List Nat}
    (hv : u.ints = .ok values) (hp : resolveAxes values t.shape.length = .ok positions) :
    reduceShape keepDims t.operand.shape.dims? u.operand.ints? =
      .ok (.fixed (collapse 1 keepDims positions t.shape)) := by
  rw [Tensor.ints?_operand hv, Tensor.dims?_operand]
  simp only [reduceShape, ok_bind, List.length_map, hp, pure_eq_ok]
  rw [collapse_map some fun _ => rfl, PartialShape.ofSizes_map_some]

/-! ### Reshaping -/

theorem broadcastShape_known {length : Option Nat} {values : List Int} {sizes shape : List Nat}
    (hv : u.ints = .ok values) (hs : values.mapM sizeOfInt = .ok sizes)
    (h : Shape.broadcast t.shape sizes = .ok shape) :
    broadcastShape t.operand.shape.dims? u.operand.ints? length = .ok (.fixed shape) := by
  rw [Tensor.ints?_operand hv, Tensor.dims?_operand]
  simp only [broadcastShape, ok_bind, hs, broadcast_eq_ok h, PartialShape.ofSizes_map_some,
    pure_eq_ok]

theorem reshapeShape_known {specialZero : Bool} {length : Option Nat} {values : List Int}
    {shape : List Nat} (hv : u.ints = .ok values)
    (h : Shape.reshape (some (t.shape.map some)) values specialZero = .ok (shape.map some)) :
    reshapeShape specialZero t.operand.shape.dims? u.operand.ints? length =
      .ok (.fixed shape) := by
  rw [Tensor.ints?_operand hv, Tensor.dims?_operand]
  simp only [reshapeShape, ok_bind, h, PartialShape.ofSizes_map_some, pure_eq_ok]

theorem squeezeShape_known {axes : List Int} {shape : List Nat}
    (h : Shape.squeeze (t.shape.map some) axes = .ok (some (shape.map some))) :
    squeezeShape axes t.operand.shape.dims? = .ok (.fixed shape) := by
  simp only [squeezeShape, Tensor.dims?_operand, h, ok_bind, pure_eq_ok]
  exact congrArg Except.ok (PartialShape.ofSizes_map_some shape)

theorem unsqueezeShape_known {axes : List Int} {shape : List Nat}
    (h : Shape.unsqueeze 1 t.shape axes = .ok shape) :
    unsqueezeShape axes t.operand.shape.dims? = .ok (.fixed shape) := by
  simp only [unsqueezeShape, Tensor.dims?_operand, unsqueeze_map some h, ok_bind,
    PartialShape.ofSizes_map_some, pure_eq_ok]

/-! ## The rules are sound -/

section Rules

variable (hx : t.operand.Refines x) (hy : u.operand.Refines y) (hz : w.operand.Refines z)

include hx in
theorem inferFloat_sound {operation : {α : Type} → Trigonometry α → α → α}
    (ht : op.inferFloat x = .ok type) (h : t.mapFloat operation = .ok v) :
    v.type.Refines type := by
  obtain ⟨-, rfl⟩ := inferFloat_eq_ok.mp ht
  rw [Tensor.type_mapFloat h]
  exact hx.type

include hx hy

theorem inferElementwise_sound {accepts : ElementType → Bool} {demand : Demand}
    {result : ElementType → ElementType}
    (ht : op.inferElementwise accepts demand result x y = .ok type)
    (h : ∃ shape, Shape.broadcast t.shape u.shape = .ok shape ∧
      v.type = ⟨result t.elementType, .fixed shape⟩) : v.type.Refines type := by
  obtain ⟨e, he, -, s, hs, rfl⟩ := inferElementwise_eq_ok.mp ht
  obtain ⟨shape, hb, hv⟩ := h
  rw [hv, elementType_of_commonType he]
  exact ⟨congrArg result hx.elementType,
    of_exists_eq_ok (broadcastAll_mono (.cons hx.narrows (.cons hy.narrows .nil))
      (broadcastAll_known hb)) hs⟩

theorem inferArithmetic_sound {operation : {α : Type} → Arithmetic α → α → α → α}
    (ht : op.inferArithmetic x y = .ok type) (h : t.arithmetic operation u = .ok v) :
    v.type.Refines type :=
  inferElementwise_sound hx hy (inferArithmetic_eq ▸ ht) (Tensor.type_arithmetic h)

theorem inferLess_sound (ht : op.inferLess x y = .ok type) (h : t.less u = .ok v) :
    v.type.Refines type :=
  inferElementwise_sound hx hy (inferLess_eq ▸ ht) (Tensor.type_less h)

theorem inferAtan2_sound (ht : op.inferAtan2 x y = .ok type) (h : t.atan2 u = .ok v) :
    v.type.Refines type :=
  inferElementwise_sound hx hy (inferAtan2_eq ▸ ht) (Tensor.type_atan2 h)

include hz in
theorem inferSelect_sound (ht : op.inferSelect x y z = .ok type) (h : t.select u w = .ok v) :
    v.type.Refines type := by
  obtain ⟨-, e, he, s, hs, rfl⟩ := inferSelect_eq_ok.mp ht
  obtain ⟨inner, shape, hi, hb, hv⟩ := Tensor.type_select h
  rw [hv, elementType_of_commonType he]
  exact ⟨hy.elementType, of_exists_eq_ok
    (broadcastAll_mono (.cons hx.narrows (.cons hy.narrows (.cons hz.narrows .nil)))
      (broadcastAll_known₃ hi hb)) hs⟩

theorem inferGather_sound {axis : Int} (ht : op.inferGather axis x y = .ok type)
    (h : t.gather axis u = .ok v) : v.type.Refines type := by
  obtain ⟨-, s, hs, rfl⟩ := inferGather_eq_ok.mp ht
  obtain ⟨a, values, positions, ha, hi, hp, hv⟩ := Tensor.type_gather h
  rw [hv]
  exact ⟨hx.elementType, of_exists_eq_ok
    (gatherShape_mono hx.dims hy.dims hy.ints (gatherShape_known ha hi hp)) hs⟩

theorem inferReduce_sound {kind : ReduceKind} {keepDims : Bool}
    (ht : op.inferReduce kind keepDims x y = .ok type) (h : t.reduce kind keepDims u = .ok v) :
    v.type.Refines type := by
  obtain ⟨he, -, s, hs, rfl⟩ := inferReduce_eq_ok.mp ht
  obtain ⟨values, positions, hi, hp, hv⟩ := Tensor.type_reduce h
  rw [hv]
  refine ⟨?_, of_exists_eq_ok (reduceShape_mono hx.dims hy.ints (reduceShape_known hi hp)) hs⟩
  show (if kind.isLogical then ElementType.bool else t.elementType) = x.elementType
  split
  · rename_i hk
    rw [if_pos hk] at he
    exact he.symm
  · exact hx.elementType

theorem inferBroadcast_sound (ht : op.inferBroadcast x y = .ok type)
    (h : t.broadcast u = .ok v) : v.type.Refines type := by
  obtain ⟨hvec, s, hs, rfl⟩ := inferBroadcast_eq_ok.mp ht
  obtain ⟨values, sizes, shape, hi, hn, hb, hv⟩ := Tensor.type_broadcast h
  rw [hv]
  exact ⟨hx.elementType, of_exists_eq_ok (broadcastShape_mono hx.dims hy.ints
    (finerLength hy.narrows hvec) (broadcastShape_known hi hn hb)) hs⟩

theorem inferReshape_sound {specialZero : Bool} (ht : op.inferReshape specialZero x y = .ok type)
    (h : t.reshapeTo specialZero u = .ok v) : v.type.Refines type := by
  obtain ⟨hvec, s, hs, rfl⟩ := inferReshape_eq_ok.mp ht
  obtain ⟨values, shape, hi, hr, hv⟩ := Tensor.type_reshapeTo h
  rw [hv]
  exact ⟨hx.elementType, of_exists_eq_ok (reshapeShape_mono hx.dims hy.ints
    (finerLength hy.narrows hvec) (reshapeShape_known hi hr)) hs⟩

include hz in
theorem inferPad_sound {mode : PadMode} {fill : Option Tensor} {fill' : Option Operand}
    (ht : op.inferPad x y z fill' = .ok type) (h : Tensor.pad mode t u w fill = .ok v) :
    v.type.Refines type := by
  obtain ⟨-, -, -, -, s, hs, rfl⟩ := inferPad_eq_ok.mp ht
  obtain ⟨before, after, shape, hb, ha, hlb, hla, hp, hv⟩ := Tensor.type_pad h
  rw [hv]
  exact ⟨hx.elementType, of_exists_eq_ok
    (padShape_mono hx.dims hy.ints hz.ints (padShape_known hb ha hlb hla hp)) hs⟩

omit hy

theorem inferScatter_sound {y z : Operand} (ht : op.inferScatter x y z = .ok type)
    (h : t.scatter u w = .ok v) : v.type.Refines type := by
  obtain ⟨-, -, rfl, -⟩ := inferScatter_eq_ok.mp ht
  rw [Tensor.type_scatter h]
  exact hx.type

theorem inferConcat_sound {axis : Int} {others : List Tensor} {others' : List Operand}
    (ho : List.Forall₂ (fun t x => t.operand.Refines x) others others')
    (ht : op.inferConcat axis x others' = .ok type) (h : Tensor.concat axis t others = .ok v) :
    v.type.Refines type := by
  obtain ⟨e, he, s, hs, rfl⟩ := inferConcat_eq_ok.mp ht
  obtain ⟨a, ha, hm, hv⟩ := Tensor.type_concat h
  have hall : List.Forall₂ Operand.Narrows ((t :: others).map Tensor.operand) (x :: others') :=
    List.forall₂_map_left_iff.mpr (.cons hx.narrows (ho.imp fun _ _ => Operand.Refines.narrows))
  rw [hv, elementType_of_commonType he]
  exact ⟨hx.elementType, of_exists_eq_ok (concatShape_mono hall (concatShape_known ha hm)) hs⟩

theorem inferSqueeze_sound {axes : List Int} (ht : inferSqueeze axes x = .ok type)
    (h : t.squeeze axes = .ok v) : v.type.Refines type := by
  obtain ⟨s, hs, rfl⟩ := inferSqueeze_eq_ok.mp ht
  obtain ⟨shape, hq, hv⟩ := Tensor.type_squeeze h
  rw [hv]
  exact ⟨hx.elementType, of_exists_eq_ok (squeezeShape_mono hx.dims (squeezeShape_known hq)) hs⟩

theorem inferUnsqueeze_sound {axes : List Int} (ht : inferUnsqueeze axes x = .ok type)
    (h : t.unsqueeze axes = .ok v) : v.type.Refines type := by
  obtain ⟨s, hs, rfl⟩ := inferUnsqueeze_eq_ok.mp ht
  obtain ⟨shape, hq, hv⟩ := Tensor.type_unsqueeze h
  rw [hv]
  exact ⟨hx.elementType,
    of_exists_eq_ok (unsqueezeShape_mono hx.dims (unsqueezeShape_known hq)) hs⟩

omit hx in
theorem inferShapeOf_sound {target : ElementType} {dims : List Nat}
    (ht : op.inferShapeOf target x = .ok type)
    (hd : ∀ rank, x.shape.rank? = some rank → dims.length = rank) :
    (Tensor.ofShape target dims).type.Refines type := by
  obtain ⟨-, rfl⟩ := inferShapeOf_eq_ok.mp ht
  refine ⟨rfl, ?_⟩
  have hlen : (Tensor.ofShape target dims).type.shape = .ofSizes [some dims.length] := by
    show PartialShape.fixed [(dims.map Int.ofNat).length] = _
    rw [List.length_map]
    rfl
  rw [hlen]
  exact .ofSizes (.cons (fun rank hr => congrArg some (hd rank hr)) .nil)

theorem inferComplexMark_sound {partType : ElementType}
    (ht : op.inferComplexMark partType x = .ok type) : t.type.Refines type := by
  obtain ⟨-, -, rfl, -⟩ := inferComplexMark_eq_ok.mp ht
  exact hx.type

end Rules

/-! ## All operations -/

section Arity

variable {values : List Tensor} {operands : List Operand}
  (h : List.Forall₂ (fun t x => t.operand.Refines x) values operands)
include h

theorem unary_sound {rule : Operand → Except Error TensorType}
    {kernel : Tensor → Except Error Tensor}
    (hr : ∀ {t x}, t.operand.Refines x → rule x = .ok type → kernel t = .ok v →
      v.type.Refines type)
    (ht : op.unary operands rule = .ok type) (hv : op.unary values kernel = .ok v) :
    v.type.Refines type := by
  obtain ⟨t, rfl, hv⟩ := unary_eq_ok.mp hv
  obtain _ | ⟨hx, _ | _⟩ := h
  exact hr hx ht hv

theorem binary_sound {rule : Operand → Operand → Except Error TensorType}
    {kernel : Tensor → Tensor → Except Error Tensor}
    (hr : ∀ {t u x y}, t.operand.Refines x → u.operand.Refines y → rule x y = .ok type →
      kernel t u = .ok v → v.type.Refines type)
    (ht : op.binary operands rule = .ok type) (hv : op.binary values kernel = .ok v) :
    v.type.Refines type := by
  obtain ⟨t, u, rfl, hv⟩ := binary_eq_ok.mp hv
  obtain _ | ⟨hx, _ | ⟨hy, _ | _⟩⟩ := h
  exact hr hx hy ht hv

theorem ternary_sound {rule : Operand → Operand → Operand → Except Error TensorType}
    {kernel : Tensor → Tensor → Tensor → Except Error Tensor}
    (hr : ∀ {t u w x y z}, t.operand.Refines x → u.operand.Refines y → w.operand.Refines z →
      rule x y z = .ok type → kernel t u w = .ok v → v.type.Refines type)
    (ht : op.ternary operands rule = .ok type) (hv : op.ternary values kernel = .ok v) :
    v.type.Refines type := by
  obtain ⟨t, u, w, rfl, hv⟩ := ternary_eq_ok.mp hv
  obtain _ | ⟨hx, _ | ⟨hy, _ | ⟨hz, _ | _⟩⟩⟩ := h
  exact hr hx hy hz ht hv

/-- What an operation computes has the type that was inferred from what was known about the
operands. -/
theorem compute_sound (ht : op.infer operands = .ok type) (hv : op.compute values = .ok v) :
    v.type.Refines type := by
  cases op with
  | parameter name elementType shape => cases hv
  | constant value =>
    obtain rfl := Except.ok.inj hv
    obtain ⟨-, ht⟩ := nullary_eq_ok.mp ht
    rw [← Except.ok.inj ht]
    exact .refl _
  | convert target =>
    refine unary_sound h (fun hx ht hv => ?_) ht hv
    obtain rfl := Except.ok.inj hv
    rw [← Except.ok.inj ht]
    exact ⟨rfl, hx.shape⟩
  | add => exact binary_sound h (fun hx hy => inferArithmetic_sound hx hy) ht hv
  | subtract => exact binary_sound h (fun hx hy => inferArithmetic_sound hx hy) ht hv
  | multiply => exact binary_sound h (fun hx hy => inferArithmetic_sound hx hy) ht hv
  | less => exact binary_sound h (fun hx hy => inferLess_sound hx hy) ht hv
  | sqrt => exact unary_sound h (fun hx => inferFloat_sound hx) ht hv
  | cos => exact unary_sound h (fun hx => inferFloat_sound hx) ht hv
  | sin => exact unary_sound h (fun hx => inferFloat_sound hx) ht hv
  | atan2 => exact binary_sound h (fun hx hy => inferAtan2_sound hx hy) ht hv
  | gather axis => exact binary_sound h (fun hx hy => inferGather_sound hx hy) ht hv
  | concat axis =>
    cases h with
    | nil => cases ht
    | cons hx ho => exact inferConcat_sound hx ho ht hv
  | pad mode =>
    rcases h with _ | ⟨hx, _ | ⟨hy, _ | ⟨hz, _ | ⟨hf, _ | _⟩⟩⟩⟩
    · cases hv
    · cases hv
    · cases hv
    · rw [infer_pad] at ht
      exact inferPad_sound hx hy hz ht hv
    · cases mode with
      | constant => exact inferPad_sound hx hy hz (infer_pad_fill .. ▸ ht) hv
      | _ => cases ht
    · cases hv
  | reduce kind keepDims => exact binary_sound h (fun hx hy => inferReduce_sound hx hy) ht hv
  | broadcast => exact binary_sound h (fun hx hy => inferBroadcast_sound hx hy) ht hv
  | scatterNdUpdate => exact ternary_sound h (fun hx _ _ => inferScatter_sound hx) ht hv
  | select => exact ternary_sound h (fun hx hy hz => inferSelect_sound hx hy hz) ht hv
  | reshape specialZero => exact binary_sound h (fun hx hy => inferReshape_sound hx hy) ht hv
  | squeeze axes => exact unary_sound h (fun hx => inferSqueeze_sound hx) ht hv
  | unsqueeze axes => exact unary_sound h (fun hx => inferUnsqueeze_sound hx) ht hv
  | shapeOf outputType =>
    refine unary_sound h (fun hx ht hv => ?_) ht hv
    rw [← Except.ok.inj hv]
    exact inferShapeOf_sound ht fun _ hr => Option.some.inj (hx.shape.rank? hr)
  | complexMark partType =>
    refine unary_sound h (fun hx ht hv => ?_) ht hv
    rw [← Except.ok.inj hv]
    exact inferComplexMark_sound hx ht

end Arity

end Op

end TensorLowering
