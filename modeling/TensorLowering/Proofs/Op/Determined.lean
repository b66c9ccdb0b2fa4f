import TensorLowering.Proofs.Op.Acceptance
import TensorLowering.Proofs.Shape.Known

/-!
# Results of known tensors have known shapes

`infer_isFixed`: the type that is inferred for an operation on tensors of which everything is known
has a fixed shape. Each shape rule, where it accepts known tensors, gives the shape that computing
needs (`gatherShape_operand`, `concatShape_operand` and so on); this is the converse of the lemmas
by which typing is sound.
-/

namespace TensorLowering

open Shape

/-- The integers that a known operand holds are those of the tensor. -/
theorem Tensor.exists_ints {t : Tensor} {known : Option (List Int)}
    (h : t.operand.ints? = .ok known) : ∃ values, t.ints = .ok values ∧ known = some values := by
  obtain ⟨values, hv, h⟩ := bind_eq_ok.mp h
  exact ⟨values, hv, (Except.ok.inj h).symm⟩

namespace Op

variable {op : Op} {t u w : Tensor} {type : TensorType} {shape : PartialShape}

/-! ## Broadcasting -/

theorem joinDims_operand {left : List Nat} {joined : Option (List (Option Nat))}
    (h : joinDims (some (left.map some)) t.operand = .ok joined) :
    ∃ sizes, Shape.broadcast left t.shape = .ok sizes ∧ joined = some (sizes.map some) := by
  obtain ⟨dims, hd, h⟩ := bind_eq_ok.mp h
  obtain ⟨sizes, hs, rfl⟩ := exists_broadcast_of_partial hd
  exact ⟨sizes, hs, (Except.ok.inj h).symm⟩

theorem broadcastAll_operand (h : broadcastAll [t.operand, u.operand] = .ok shape) :
    ∃ sizes, Shape.broadcast t.shape u.shape = .ok sizes ∧ shape = .fixed sizes := by
  rw [broadcastAll_eq] at h
  simp only [List.foldlM_cons, List.foldlM_nil, joinDims_nil, ok_bind, bind_pure] at h
  obtain ⟨joined, hj, rfl⟩ := map_eq_ok.mp h
  obtain ⟨sizes, hs, rfl⟩ := joinDims_operand hj
  exact ⟨sizes, hs, PartialShape.ofSizes_map_some sizes⟩

theorem broadcastAll_operand₃ (h : broadcastAll [t.operand, u.operand, w.operand] = .ok shape) :
    ∃ inner sizes, Shape.broadcast t.shape u.shape = .ok inner ∧
      Shape.broadcast inner w.shape = .ok sizes ∧ shape = .fixed sizes := by
  rw [broadcastAll_eq] at h
  simp only [List.foldlM_cons, List.foldlM_nil, joinDims_nil, ok_bind, bind_pure] at h
  obtain ⟨joined, hj, rfl⟩ := map_eq_ok.mp h
  obtain ⟨first, hf, hj⟩ := bind_eq_ok.mp hj
  obtain ⟨inner, hi, rfl⟩ := joinDims_operand hf
  obtain ⟨sizes, hs, rfl⟩ := joinDims_operand hj
  exact ⟨inner, sizes, hi, hs, PartialShape.ofSizes_map_some sizes⟩

/-! ## Joining -/

/-- Known parts that are joined have the same sizes off the axis. -/
theorem eraseIdx_eq_of_concatDims {axis : Nat} {left right : List Nat} {dims : List (Option Nat)}
    (h : concatDims axis (left.map some) (right.map some) = .ok dims) :
    right.length = left.length ∧ right.eraseIdx axis = left.eraseIdx axis := by
  have hlen : right.length = left.length := by simpa using (concatDims_eq_ok.mp h).1.symm
  have hd := length_concatDims h
  refine ⟨hlen, ?_⟩
  have hset : right = left.set axis (right.getD axis 0) := by
    refine List.ext_getElem? fun i => ?_
    rw [List.getElem?_set]
    by_cases hi : axis = i
    · subst hi
      by_cases hlt : axis < left.length
      · rw [if_pos rfl, if_pos hlt, List.getD_eq_getElem?_getD,
          List.getElem?_eq_getElem (hlen ▸ hlt), Option.getD_some]
      · rw [if_pos rfl, if_neg hlt, List.getElem?_eq_none (by omega)]
    · rw [if_neg hi]
      by_cases hlt : i < left.length
      · obtain ⟨x, y, hx, hy, hj⟩ := getElem?_concatDims h
          (List.getElem?_eq_getElem (by rw [hd, List.length_map]; exact hlt))
        obtain ⟨m, hm, rfl⟩ := Option.map_eq_some_iff.mp ((List.getElem?_map ..).symm.trans hx)
        obtain ⟨n, hn, rfl⟩ := Option.map_eq_some_iff.mp ((List.getElem?_map ..).symm.trans hy)
        rw [joinedDim, if_neg (Ne.symm hi)] at hj
        dsimp only [concatOtherDim] at hj
        split at hj
        · rename_i hmn
          rw [hm, hn, hmn]
        · cases hj
      · rw [List.getElem?_eq_none (by omega), List.getElem?_eq_none (by omega)]
  rw [hset, List.eraseIdx_set_eq]

/-- All parts have the sizes of the first one off the axis. -/
theorem shapes_of_concatRanked {axis : Int} {a : Nat} {first : List Nat}
    (ha : resolveAxis axis first.length = .ok a) {others : List Tensor} {n : Nat}
    {joined : Option (List (Option Nat))}
    (h : (others.map Tensor.operand).foldlM
        (fun joined operand => joinRanked axis joined operand.shape.dims?)
        (some ((first.set a n).map some)) = .ok joined) :
    ∀ other ∈ others, other.shape.length = first.length ∧
      other.shape.eraseIdx a = first.eraseIdx a := by
  induction others generalizing n with
  | nil => exact nofun
  | cons other others ih =>
    rw [List.map_cons, List.foldlM_cons] at h
    obtain ⟨next, hnext, h⟩ := bind_eq_ok.mp h
    obtain ⟨a', ha', hnext⟩ := bind_eq_ok.mp hnext
    obtain ⟨dims, hdims, hnext⟩ := bind_eq_ok.mp hnext
    obtain rfl := Except.ok.inj hnext
    obtain rfl : a' = a := by
      have hlen := (concatDims_eq_ok.mp hdims).1
      rw [List.length_map, List.length_set] at hlen
      rw [← hlen, ha] at ha'
      exact (Except.ok.inj ha').symm
    obtain ⟨hlen, herase⟩ := eraseIdx_eq_of_concatDims hdims
    rw [List.length_set] at hlen
    rw [List.eraseIdx_set_eq] at herase
    rw [eq_set_of_eraseIdx hlen herase, concatDims_known] at hdims
    obtain rfl := Except.ok.inj hdims
    exact List.forall_mem_cons.mpr ⟨⟨hlen, herase⟩, ih h⟩

theorem concatShape_operand {axis : Int} {others : List Tensor}
    (h : concatShape axis ((t :: others).map Tensor.operand) = .ok shape) :
    ∃ a, resolveAxis axis t.shape.length = .ok a ∧
      (∀ other ∈ others, other.shape.length = t.shape.length ∧
        other.shape.eraseIdx a = t.shape.eraseIdx a) ∧
      shape = .fixed (t.shape.set a
        ((t :: others).foldr (fun part length => part.shape.getD a 0 + length) 0)) := by
  obtain ⟨joined, hj, -⟩ := bind_eq_ok.mp h
  rw [concatRanked_eq, List.map_cons, List.foldlM_cons] at hj
  obtain ⟨first, hf, hj⟩ := bind_eq_ok.mp hj
  obtain ⟨a, ha, hf⟩ := bind_eq_ok.mp (hf : joinRanked axis none (some (t.shape.map some)) = .ok first)
  obtain rfl := Except.ok.inj hf
  rw [List.length_map] at ha
  have hset : t.shape = t.shape.set a (t.shape.getD a 0) := eq_set_of_eraseIdx rfl rfl
  rw [hset] at hj
  have hothers := shapes_of_concatRanked ha hj
  exact ⟨a, ha, hothers, Except.ok.inj (h.symm.trans (concatShape_known ha hothers))⟩

/-! ## Padding -/

theorem paddedShape_of_mapM {before after befores afters : List Int} {sizes : List Nat} {k : Nat}
    {dims : List (Option Nat)} (hb : before.drop k = befores) (ha : after.drop k = afters)
    (hlb : befores.length = sizes.length) (hla : afters.length = sizes.length)
    (h : ((sizes.map some).zipIdx k).mapM
      (fun p => paddedDim (some before) (some after) p.1 p.2) = .ok dims) :
    ∃ padded, Tensor.paddedShape sizes befores afters = .ok padded := by
  induction sizes generalizing befores afters dims k with
  | nil => exact ⟨[], rfl⟩
  | cons size sizes ih =>
    obtain ⟨b, befores, rfl⟩ := List.exists_cons_of_length_eq_add_one hlb
    obtain ⟨a, afters, rfl⟩ := List.exists_cons_of_length_eq_add_one hla
    rw [List.map_cons, List.zipIdx_cons, List.mapM_cons] at h
    obtain ⟨dim, hdim, h⟩ := bind_eq_ok.mp h
    obtain ⟨rest, hrest, -⟩ := bind_eq_ok.mp h
    have hbk : before[k]? = some b := by rw [← List.head?_drop, hb, List.head?_cons]
    have hak : after[k]? = some a := by rw [← List.head?_drop, ha, List.head?_cons]
    unfold paddedDim at hdim
    rw [Option.bind_some, Option.bind_some, hbk, hak] at hdim
    obtain ⟨padded, hp, -⟩ := bind_eq_ok.mp hdim
    obtain ⟨later, hl⟩ := ih (by rw [← List.tail_drop, hb, List.tail_cons])
      (by rw [← List.tail_drop, ha, List.tail_cons]) (Nat.succ.inj hlb) (Nat.succ.inj hla) hrest
    exact ⟨padded :: later, bind_eq_ok.mpr ⟨padded, hp, bind_eq_ok.mpr ⟨later, hl, rfl⟩⟩⟩

/-- As many counts are known as the data has axes. -/
theorem length_ints_of_checkBounds {role : String} {dims : List (Option Nat)}
    {bounds : List Operand} {values : List Int} (hvec : op.integerVector u.operand role false = .ok ())
    (hcheck : checkBounds dims bounds = .ok ()) (hu : u.operand ∈ bounds)
    (hv : u.ints = .ok values) : values.length = dims.length := by
  have hrank : u.operand.shape.rank? = some u.shape.length := rfl
  have hone : u.shape.length = 1 := by simpa using (integerVector_eq_ok.mp hvec).2 _ hrank
  obtain ⟨n, hn⟩ := List.length_eq_one_iff.mp hone
  have hfirst : u.operand.shape.firstSize? = some n := by
    simp [Tensor.operand, Tensor.type, PartialShape.firstSize?, hn]
  rw [← checkBounds_eq_ok.mp hcheck _ hu n hfirst, Tensor.length_ints hv, hn, volume_cons,
    volume_nil, Nat.mul_one]

theorem padShape_operand {before after : List Int} (hb : u.ints = .ok before)
    (ha : w.ints = .ok after) (hlb : before.length = t.shape.length)
    (hla : after.length = t.shape.length)
    (h : padShape t.operand.shape.dims? u.operand.ints? w.operand.ints? = .ok shape) :
    ∃ sizes, Tensor.paddedShape t.shape before after = .ok sizes ∧ shape = .fixed sizes := by
  have hp := h
  rw [Tensor.ints?_operand hb, Tensor.ints?_operand ha, Tensor.dims?_operand] at hp
  simp only [padShape, ok_bind] at hp
  obtain ⟨dims, hd, -⟩ := bind_eq_ok.mp hp
  rw [paddedDims_eq] at hd
  obtain ⟨sizes, hs⟩ := paddedShape_of_mapM List.drop_zero List.drop_zero hlb hla hd
  exact ⟨sizes, hs, Except.ok.inj (h.symm.trans (padShape_known hb ha hlb hla hs))⟩

/-! ## Gathering and reducing -/

theorem gatherShape_operand {axis : Int}
    (h : gatherShape axis t.operand.shape.dims? u.operand.shape.dims? u.operand.ints? = .ok shape) :
    ∃ a values named, resolveAxis axis t.shape.length = .ok a ∧ u.ints = .ok values ∧
      values.mapM (resolveIndex · (t.shape.getD a 0)) = .ok named ∧
      shape = .fixed (t.shape.take a ++ u.shape ++ t.shape.drop (a + 1)) := by
  have hg := h
  rw [Tensor.dims?_operand, Tensor.dims?_operand] at hg
  simp only [gatherShape, List.length_map, bind_eq_ok, exists_unit] at hg
  obtain ⟨a, ha, known, hk, hcheck, -⟩ := hg
  obtain ⟨values, hv, rfl⟩ := Tensor.exists_ints hk
  have hsize : (t.shape.map some)[a]? = some (some (t.shape.getD a 0)) := by
    have hlt := resolveAxis_lt ha
    simp [List.getElem?_eq_getElem hlt, List.getD_eq_getElem?_getD]
  obtain ⟨named, hn⟩ := exists_mapM_eq_ok.mpr (checkIndices_eq_ok.mp hcheck _ _ hsize rfl)
  exact ⟨a, values, named, ha, hv, hn, Except.ok.inj (h.symm.trans (gatherShape_known ha hv hn))⟩

theorem reduceShape_operand {keepDims : Bool}
    (h : reduceShape keepDims t.operand.shape.dims? u.operand.ints? = .ok shape) :
    ∃ values positions, u.ints = .ok values ∧
      resolveAxes values t.shape.length = .ok positions ∧
      shape = .fixed (collapse 1 keepDims positions t.shape) := by
  obtain ⟨known, hk, hr⟩ := bind_eq_ok.mp h
  obtain ⟨values, hv, rfl⟩ := Tensor.exists_ints hk
  obtain ⟨positions, hp, -⟩ := bind_eq_ok.mp
    (hr : (resolveAxes values (t.shape.map some).length >>= fun positions =>
      pure (.ofSizes (collapse (some 1) keepDims positions (t.shape.map some)))) = .ok shape)
  rw [List.length_map] at hp
  exact ⟨values, positions, hv, hp, Except.ok.inj (h.symm.trans (reduceShape_known hv hp))⟩

/-! ## Reshaping -/

theorem broadcastShape_operand {length : Option Nat}
    (h : broadcastShape t.operand.shape.dims? u.operand.ints? length = .ok shape) :
    ∃ values sizes result, u.ints = .ok values ∧ values.mapM sizeOfInt = .ok sizes ∧
      Shape.broadcast t.shape sizes = .ok result ∧ shape = .fixed result := by
  obtain ⟨known, hk, hb⟩ := bind_eq_ok.mp h
  obtain ⟨values, hv, rfl⟩ := Tensor.exists_ints hk
  obtain ⟨sizes, hs, hb⟩ := bind_eq_ok.mp hb
  obtain ⟨dims, hd, -⟩ := bind_eq_ok.mp hb
  obtain ⟨result, hr, -⟩ := exists_broadcast_of_partial hd
  exact ⟨values, sizes, result, hv, hs, hr, Except.ok.inj (h.symm.trans (broadcastShape_known hv hs hr))⟩

theorem reshapeShape_operand {specialZero : Bool} {length : Option Nat}
    (h : reshapeShape specialZero t.operand.shape.dims? u.operand.ints? length = .ok shape) :
    ∃ (values : List Int) (sizes : List Nat), u.ints = .ok values ∧
      Shape.reshape (some (t.shape.map some)) values specialZero = .ok (sizes.map some) ∧
      Word.unsigned (volume sizes) = Word.unsigned (volume t.shape) ∧ shape = .fixed sizes := by
  obtain ⟨known, hk, hr⟩ := bind_eq_ok.mp h
  obtain ⟨values, hv, rfl⟩ := Tensor.exists_ints hk
  obtain ⟨dims, hd, -⟩ := bind_eq_ok.mp hr
  obtain ⟨sizes, rfl, hvolume⟩ := reshape_known hd
  exact ⟨values, sizes, hv, hd, hvolume, Except.ok.inj (h.symm.trans (reshapeShape_known hv hd))⟩

theorem squeezeShape_operand {axes : List Int}
    (h : squeezeShape axes t.operand.shape.dims? = .ok shape) :
    ∃ sizes : List Nat, Shape.squeeze (t.shape.map some) axes = .ok (some (sizes.map some)) ∧
      volume sizes = volume t.shape ∧ shape = .fixed sizes := by
  obtain ⟨rest, hr, -⟩ := bind_eq_ok.mp h
  obtain ⟨sizes, rfl, hvolume⟩ := squeeze_volume hr
  exact ⟨sizes, hr, hvolume, Except.ok.inj (h.symm.trans (squeezeShape_known hr))⟩

theorem unsqueezeShape_operand {axes : List Int}
    (h : unsqueezeShape axes t.operand.shape.dims? = .ok shape) :
    ∃ sizes, Shape.unsqueeze 1 t.shape axes = .ok sizes ∧ shape = .fixed sizes := by
  obtain ⟨rest, hr, -⟩ := bind_eq_ok.mp h
  obtain ⟨sizes, hs, -⟩ := exists_unsqueeze_of_map hr
  exact ⟨sizes, hs, Except.ok.inj (h.symm.trans (unsqueezeShape_known hs))⟩

/-! ## All operations -/

section Arity

variable {vs : List Tensor}

theorem unary_operand {rule : Operand → Except Error TensorType}
    (h : op.unary (vs.map Tensor.operand) rule = .ok type) :
    ∃ t, vs = [t] ∧ rule t.operand = .ok type := by
  obtain _ | ⟨t, _ | _⟩ := vs
  · cases h
  · exact ⟨t, rfl, h⟩
  · cases h

theorem binary_operand {rule : Operand → Operand → Except Error TensorType}
    (h : op.binary (vs.map Tensor.operand) rule = .ok type) :
    ∃ t u, vs = [t, u] ∧ rule t.operand u.operand = .ok type := by
  obtain _ | ⟨t, _ | ⟨u, _ | _⟩⟩ := vs
  · cases h
  · cases h
  · exact ⟨t, u, rfl, h⟩
  · cases h

theorem ternary_operand {rule : Operand → Operand → Operand → Except Error TensorType}
    (h : op.ternary (vs.map Tensor.operand) rule = .ok type) :
    ∃ t u w, vs = [t, u, w] ∧ rule t.operand u.operand w.operand = .ok type := by
  obtain _ | ⟨t, _ | ⟨u, _ | ⟨w, _ | _⟩⟩⟩ := vs
  · cases h
  · cases h
  · cases h
  · exact ⟨t, u, w, rfl, h⟩
  · cases h

/-- A padding has three operands, and in the constant mode perhaps a fill value. -/
theorem pad_operand {mode : PadMode} (h : (pad mode).infer (vs.map Tensor.operand) = .ok type) :
    ∃ t u w, ∃ fill : Option Tensor, vs = t :: u :: w :: fill.toList ∧
      (fill.isSome = true → mode = .constant) ∧ (pad mode).inferPad t.operand u.operand w.operand
        (fill.map Tensor.operand) = .ok type := by
  obtain _ | ⟨t, _ | ⟨u, _ | ⟨w, _ | ⟨f, _ | _⟩⟩⟩⟩ := vs
  · cases mode <;> cases h
  · cases mode <;> cases h
  · cases mode <;> cases h
  · exact ⟨t, u, w, none, rfl, nofun, (infer_pad ..).symm.trans h⟩
  · cases mode with
    | constant => exact ⟨t, u, w, some f, rfl, fun _ => rfl, h⟩
    | _ => cases h
  · cases mode <;> cases h

theorem inferElementwise_isFixed {accepts : ElementType → Bool} {demand : Demand}
    {result : ElementType → ElementType}
    (h : op.inferElementwise accepts demand result t.operand u.operand = .ok type) :
    type.shape.isFixed = true := by
  obtain ⟨_, -, -, _, hs, rfl⟩ := inferElementwise_eq_ok.mp h
  obtain ⟨sizes, -, rfl⟩ := broadcastAll_operand hs
  rfl

theorem inferPad_operand {fill : Option Operand}
    (h : op.inferPad t.operand u.operand w.operand fill = .ok type) :
    ∃ before after sizes, u.ints = .ok before ∧ w.ints = .ok after ∧
      before.length = t.shape.length ∧ after.length = t.shape.length ∧
      Tensor.paddedShape t.shape before after = .ok sizes ∧ type = ⟨t.elementType, .fixed sizes⟩ := by
  obtain ⟨hu, hw, -, hcheck, shape, hs, rfl⟩ := inferPad_eq_ok.mp h
  have hlists := hs
  rw [Tensor.dims?_operand] at hlists
  simp only [padShape, bind_eq_ok] at hlists
  obtain ⟨_, hbefore, _, hafter, -⟩ := hlists
  obtain ⟨before, hb, -⟩ := Tensor.exists_ints hbefore
  obtain ⟨after, ha, -⟩ := Tensor.exists_ints hafter
  have hcheck := hcheck _ (Tensor.dims?_operand t)
  have hlb := length_ints_of_checkBounds hu hcheck (by simp) hb
  have hla := length_ints_of_checkBounds hw hcheck (by simp) ha
  rw [List.length_map] at hlb hla
  obtain ⟨sizes, hsizes, rfl⟩ := padShape_operand hb ha hlb hla hs
  exact ⟨before, after, sizes, hb, ha, hlb, hla, hsizes, rfl⟩

/-- Of tensors of which everything is known, the shape of the result is known. -/
theorem infer_isFixed (hop : ∀ name e shape, op ≠ parameter name e shape)
    (h : op.infer (vs.map Tensor.operand) = .ok type) : type.shape.isFixed = true := by
  cases op with
  | parameter name e shape => exact absurd rfl (hop name e shape)
  | constant value =>
    obtain ⟨-, h⟩ := nullary_eq_ok.mp h
    obtain rfl := Except.ok.inj h
    rfl
  | convert target =>
    obtain ⟨t, rfl, hrule⟩ := unary_operand h
    obtain rfl := Except.ok.inj hrule
    rfl
  | add | subtract | multiply =>
    obtain ⟨t, u, rfl, hrule⟩ := binary_operand h
    exact inferElementwise_isFixed hrule
  | less =>
    obtain ⟨t, u, rfl, hrule⟩ := binary_operand h
    exact inferElementwise_isFixed hrule
  | atan2 =>
    obtain ⟨t, u, rfl, hrule⟩ := binary_operand h
    exact inferElementwise_isFixed hrule
  | sqrt | cos | sin =>
    obtain ⟨t, rfl, hrule⟩ := unary_operand h
    obtain ⟨-, rfl⟩ := inferFloat_eq_ok.mp hrule
    rfl
  | gather axis =>
    obtain ⟨t, u, rfl, hrule⟩ := binary_operand h
    obtain ⟨-, shape, hs, rfl⟩ := inferGather_eq_ok.mp hrule
    obtain ⟨_, _, _, -, -, -, rfl⟩ := gatherShape_operand hs
    rfl
  | concat axis =>
    cases vs with
    | nil => cases h
    | cons t others =>
      obtain ⟨_, -, shape, hs, rfl⟩ := inferConcat_eq_ok.mp h
      obtain ⟨_, -, -, rfl⟩ := concatShape_operand hs
      rfl
  | pad mode =>
    obtain ⟨t, u, w, fill, rfl, -, hrule⟩ := pad_operand h
    obtain ⟨_, _, _, -, -, -, -, -, rfl⟩ := inferPad_operand hrule
    rfl
  | reduce kind keepDims =>
    obtain ⟨t, u, rfl, hrule⟩ := binary_operand h
    obtain ⟨-, -, shape, hs, rfl⟩ := inferReduce_eq_ok.mp hrule
    obtain ⟨_, _, -, -, rfl⟩ := reduceShape_operand hs
    rfl
  | broadcast =>
    obtain ⟨t, u, rfl, hrule⟩ := binary_operand h
    obtain ⟨-, shape, hs, rfl⟩ := inferBroadcast_eq_ok.mp hrule
    obtain ⟨_, _, _, -, -, -, rfl⟩ := broadcastShape_operand hs
    rfl
  | scatterNdUpdate =>
    obtain ⟨t, u, w, rfl, hrule⟩ := ternary_operand h
    obtain ⟨-, -, rfl, -⟩ := inferScatter_eq_ok.mp hrule
    rfl
  | select =>
    obtain ⟨t, u, w, rfl, hrule⟩ := ternary_operand h
    obtain ⟨-, _, -, shape, hs, rfl⟩ := inferSelect_eq_ok.mp hrule
    obtain ⟨_, _, -, -, rfl⟩ := broadcastAll_operand₃ hs
    rfl
  | reshape specialZero =>
    obtain ⟨t, u, rfl, hrule⟩ := binary_operand h
    obtain ⟨-, shape, hs, rfl⟩ := inferReshape_eq_ok.mp hrule
    obtain ⟨_, _, -, -, -, rfl⟩ := reshapeShape_operand hs
    rfl
  | squeeze axes =>
    obtain ⟨t, rfl, hrule⟩ := unary_operand h
    obtain ⟨shape, hs, rfl⟩ := inferSqueeze_eq_ok.mp hrule
    obtain ⟨_, -, -, rfl⟩ := squeezeShape_operand hs
    rfl
  | unsqueeze axes =>
    obtain ⟨t, rfl, hrule⟩ := unary_operand h
    obtain ⟨shape, hs, rfl⟩ := inferUnsqueeze_eq_ok.mp hrule
    obtain ⟨_, -, rfl⟩ := unsqueezeShape_operand hs
    rfl
  | shapeOf outputType =>
    obtain ⟨t, rfl, hrule⟩ := unary_operand h
    obtain ⟨-, rfl⟩ := inferShapeOf_eq_ok.mp hrule
    rfl
  | complexMark partType =>
    obtain ⟨t, rfl, hrule⟩ := unary_operand h
    obtain ⟨-, -, rfl, -⟩ := inferComplexMark_eq_ok.mp hrule
    rfl

end Arity

end Op

end TensorLowering
