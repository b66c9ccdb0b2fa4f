import TensorLowering.Proofs.Op.Errors
import TensorLowering.Proofs.Op.Soundness
import TensorLowering.Proofs.Shape.RowMajor

/-!
# What is computed is accepted

An operation that computes something of tensors is accepted by typing on these tensors
(`Op.exists_infer_of_compute`), if computing checks all that typing does. The others are accepted
under what computing does not look at: counts and targets have to be vectors, and a complex mark
needs pairs of floats. Elementwise operations compute whatever has the right types and shapes
(`exists_arithmetic`, `exists_select`).
-/

namespace TensorLowering

open Shape

namespace Kernel

variable {α : Type}

theorem exists_spread {source result : List Nat} {data : Array α} (hd : data.size = volume source)
    (hf : Fits source result) :
    ∃ xs, spread source result data = .ok xs ∧ xs.length = volume result := by
  obtain ⟨xs, hxs⟩ : ∃ xs, spread source result data = .ok xs := by
    refine exists_mapM_eq_ok.mpr fun position hp => ?_
    obtain ⟨c, hc, rfl⟩ := List.mem_map.mp hp
    have hlt : broadcastPosition source c < data.size :=
      hd ▸ broadcastPosition_lt hf (within_of_mem_walk hc)
    exact ⟨_, by rw [read, Array.getElem?_eq_getElem hlt]⟩
  refine ⟨xs, hxs, ?_⟩
  rw [← (mapM_eq_ok.mp hxs).length_eq, broadcastPositions, List.length_map, length_walk]

theorem exists_zipBroadcast {β γ : Type} (f : α → β → γ) {left right result : List Nat}
    {xs : Array α} {ys : Array β} (hx : xs.size = volume left) (hy : ys.size = volume right)
    (hl : Fits left result) (hr : Fits right result) :
    ∃ zs, zipBroadcast f left right result xs ys = .ok zs ∧ zs.size = volume result := by
  obtain ⟨xs', hxs, hxlen⟩ := exists_spread hx hl
  obtain ⟨ys', hys, hylen⟩ := exists_spread hy hr
  refine ⟨(List.zipWith f xs' ys').toArray, ?_, by simp [hxlen, hylen]⟩
  simp only [zipBroadcast, hxs, hys, ok_bind, pure_eq_ok]

end Kernel

namespace ElementType

variable {e : ElementType}

theorem isNumeric_iff : e.isNumeric = true ↔ ∃ a, e.arithmetic? = some a := by
  cases e <;> simp [isNumeric, isFloat, isInteger, arithmetic?]

theorem isFloat_iff : e.isFloat = true ↔ ∃ a, e.trigonometry? = some a := by
  cases e <;> simp [isFloat, trigonometry?]

theorem isNumeric_of_isFloat (h : e.isFloat = true) : e.isNumeric = true := by
  rw [isNumeric, h, Bool.true_or]

end ElementType

namespace Tensor

variable {t u v w : Tensor} {e : ElementType}

theorem exists_ofData {shape : List Nat} {data : Array e.Carrier} (h : data.size = volume shape) :
    ∃ v, ofData e shape data = .ok v :=
  ⟨_, ofData_eq_ok.mpr ⟨h, rfl⟩⟩

theorem exists_dataAs (h : t.elementType = e) :
    ∃ data, t.dataAs e = .ok data ∧ data.size = volume t.shape := by
  subst h
  exact ⟨t.data, by simp [dataAs, dataAs?], t.size_data⟩

theorem exists_arithmetic (operation : {α : Type} → Arithmetic α → α → α → α) {shape : List Nat}
    (he : u.elementType = t.elementType) (hn : t.elementType.isNumeric = true)
    (hs : Shape.broadcast t.shape u.shape = .ok shape) :
    ∃ v, arithmetic operation t u = .ok v ∧ v.type = ⟨t.elementType, .fixed shape⟩ := by
  obtain ⟨a, ha⟩ := ElementType.isNumeric_iff.mp hn
  obtain ⟨ys, hys, hsize⟩ := exists_dataAs he
  obtain ⟨hl, hr⟩ := fits_of_broadcast hs
  obtain ⟨zs, hzs, hsize⟩ := Kernel.exists_zipBroadcast (operation a) t.size_data hsize hl hr
  obtain ⟨v, hv⟩ := exists_ofData hsize
  refine ⟨v, ?_, type_ofData hv⟩
  simp only [arithmetic, hs, ok_bind, ha, hys, hzs]
  exact hv

theorem exists_select {inner shape : List Nat} (hc : t.elementType = .bool)
    (he : w.elementType = u.elementType) (hi : Shape.broadcast t.shape u.shape = .ok inner)
    (hs : Shape.broadcast inner w.shape = .ok shape) : ∃ v, select t u w = .ok v := by
  obtain ⟨cs, hcs, hcsize⟩ := exists_dataAs hc
  obtain ⟨ys, hys, hsize⟩ := exists_dataAs he
  obtain ⟨hc', hl⟩ := fits_of_broadcast hi
  obtain ⟨hi', hr⟩ := fits_of_broadcast hs
  obtain ⟨cs', hcs', hclen⟩ := Kernel.exists_spread hcsize (hc'.trans hi')
  obtain ⟨xs', hx, hxlen⟩ := Kernel.exists_spread u.size_data (hl.trans hi')
  obtain ⟨ys', hy, hylen⟩ := Kernel.exists_spread hsize hr
  have hcs? : t.dataAs? .bool = some cs := by
    unfold dataAs at hcs
    split at hcs
    · rename_i data hdata
      rw [hdata, Except.ok.inj hcs]
    · cases hcs
  have hsize : (List.zipWith (fun c (x, y) => if c = true then x else y) cs'
      (List.zip xs' ys')).toArray.size = volume shape := by simp [hclen, hxlen, hylen]
  obtain ⟨v, hv⟩ := exists_ofData hsize
  refine ⟨v, ?_⟩
  simp only [select, hcs?, hi, hs, ok_bind, hys, Kernel.choose, hcs', hx, hy, pure_eq_ok]
  exact hv

theorem exists_mapFloat (operation : {α : Type} → Trigonometry α → α → α)
    (hf : t.elementType.isFloat = true) : ∃ v, t.mapFloat operation = .ok v ∧ v.type = t.type := by
  obtain ⟨a, ha⟩ := ElementType.isFloat_iff.mp hf
  have hsize : (t.data.map (operation a)).size = volume t.shape := by
    rw [Array.size_map, t.size_data]
  obtain ⟨v, hv⟩ := exists_ofData hsize
  refine ⟨v, ?_, type_ofData hv⟩
  simp only [mapFloat, ha]
  exact hv

theorem exists_atan2 {shape : List Nat} (he : u.elementType = t.elementType)
    (hf : t.elementType.isFloat = true) (hs : Shape.broadcast t.shape u.shape = .ok shape) :
    ∃ v, t.atan2 u = .ok v ∧ v.type = ⟨t.elementType, .fixed shape⟩ := by
  obtain ⟨a, ha⟩ := ElementType.isFloat_iff.mp hf
  obtain ⟨ys, hys, hsize⟩ := exists_dataAs he
  obtain ⟨hl, hr⟩ := fits_of_broadcast hs
  obtain ⟨zs, hzs, hsize⟩ := Kernel.exists_zipBroadcast a.atan2 t.size_data hsize hl hr
  obtain ⟨v, hv⟩ := exists_ofData hsize
  refine ⟨v, ?_, type_ofData hv⟩
  simp only [atan2, hs, ok_bind, ha, hys, hzs]
  exact hv

/-- A reduction of numbers succeeds if its kind has a value for every group, also an empty one. -/
theorem exists_reduce {kind : ReduceKind} (keepDims : Bool) (positions : List Nat)
    (hn : t.elementType.isNumeric = true) (hkind : kind.isLogical = false)
    (hk : ∀ {α : Type} (a : Arithmetic α) xs, ∃ x, Kernel.combine a kind xs = .ok x) :
    ∃ v, v.type = ⟨t.elementType, .fixed (collapse 1 keepDims positions t.shape)⟩ ∧
      ∀ {axes values}, axes.ints = .ok values →
        resolveAxes values t.shape.length = .ok positions → t.reduce kind keepDims axes = .ok v := by
  obtain ⟨a, ha⟩ := ElementType.isNumeric_iff.mp hn
  obtain ⟨groups, hgroups, hsize⟩ := Kernel.exists_groups positions t.shape t.data
  obtain ⟨elements, helements⟩ := exists_mapM_eq_ok.mpr fun (group : Array t.elementType.Carrier)
    (_ : group ∈ groups.toList) => hk a group.toList
  have hlength : elements.toArray.size = volume (collapse 1 keepDims positions t.shape) := by
    rw [List.size_toArray, ← (mapM_eq_ok.mp helements).length_eq, Array.length_toList, hsize]
    exact volume_collapse_keep keepDims positions t.shape
  obtain ⟨v, hofData⟩ := exists_ofData (e := t.elementType) hlength
  refine ⟨v, type_ofData hofData, fun hv hp => ?_⟩
  simp only [reduce, hv, ok_bind, show t.rank = t.shape.length from rfl, hp, hkind, ha, hgroups,
    helements, Bool.false_eq_true, if_false]
  exact hofData

theorem elementType_of_dataAs {data : Array e.Carrier} (h : t.dataAs e = .ok data) :
    t.elementType = e := by
  obtain ⟨_, _, rfl⟩ := eq_of_dataAs h
  rfl

theorem isInteger_of_ints {values : List Int} (h : t.ints = .ok values) :
    t.elementType.isInteger = true := by
  obtain ⟨e, shape, data, hsize⟩ := t
  cases e <;> first | rfl | cases h

theorem isFloat_of_mapFloat {operation : {α : Type} → Trigonometry α → α → α}
    (h : mapFloat operation t = .ok v) : t.elementType.isFloat = true := by
  unfold mapFloat at h
  split at h
  · cases h
  · rename_i ha
    exact ElementType.isFloat_iff.mpr ⟨_, ha⟩

/-- What a sum, difference or product asks of its operands, and the type that it has. -/
theorem demands_of_arithmetic {operation : {α : Type} → Arithmetic α → α → α → α}
    (h : arithmetic operation t u = .ok v) :
    u.elementType = t.elementType ∧ t.elementType.isNumeric = true ∧
      ∃ shape, Shape.broadcast t.shape u.shape = .ok shape ∧
        v.type = ⟨t.elementType, .fixed shape⟩ := by
  refine ⟨?_, ?_, type_arithmetic h⟩ <;> obtain ⟨shape, -, h⟩ := bind_eq_ok.mp h <;> split at h
  · cases h
  · obtain ⟨data, hdata, -⟩ := bind_eq_ok.mp h
    exact elementType_of_dataAs hdata
  · cases h
  · rename_i ha
    exact ElementType.isNumeric_iff.mpr ⟨_, ha⟩

theorem demands_of_atan2 (h : t.atan2 u = .ok v) :
    u.elementType = t.elementType ∧ t.elementType.isFloat = true := by
  obtain ⟨shape, -, h⟩ := bind_eq_ok.mp h
  split at h
  · cases h
  · rename_i ha
    obtain ⟨data, hdata, -⟩ := bind_eq_ok.mp h
    exact ⟨elementType_of_dataAs hdata, ElementType.isFloat_iff.mpr ⟨_, ha⟩⟩

theorem demands_of_reduce {kind : ReduceKind} {keepDims : Bool}
    (h : t.reduce kind keepDims u = .ok v) :
    if kind.isLogical then t.elementType = .bool else t.elementType.isNumeric = true := by
  obtain ⟨values, -, h⟩ := bind_eq_ok.mp h
  obtain ⟨positions, -, h⟩ := bind_eq_ok.mp h
  dsimp only at h
  split at h
  · rename_i hk
    rw [if_pos hk]
    split at h
    · cases h
    · rename_i truths htruths
      exact elementType_of_dataAs (by rw [dataAs, htruths])
  · rename_i hk
    rw [if_neg hk]
    split at h
    · cases h
    · rename_i ha
      exact ElementType.isNumeric_iff.mpr ⟨_, ha⟩

theorem demands_of_scatter (h : scatter t u w = .ok v) :
    u.elementType.isInteger = true ∧ w.elementType = t.elementType ∧
      Shape.updatesShape t.shape u.shape = .ok w.shape := by
  obtain ⟨expected, hexpected, h⟩ := bind_eq_ok.mp h
  dsimp only at h
  split at h
  · cases h
  · rename_i hshape
    obtain ⟨values, hvalues, h⟩ := bind_eq_ok.mp h
    obtain ⟨offsets, -, h⟩ := bind_eq_ok.mp h
    obtain ⟨data, hdata, -⟩ := bind_eq_ok.mp h
    exact ⟨isInteger_of_ints hvalues, elementType_of_dataAs hdata, not_not.mp hshape ▸ hexpected⟩

/-- All parts that are put side by side have the type of the first one. -/
theorem elementType_of_concat {axis : Int} {others : List Tensor}
    (h : concat axis t others = .ok v) : ∀ u ∈ others, u.elementType = t.elementType := by
  intro u hu
  obtain ⟨_, -, h⟩ := bind_eq_ok.mp h
  obtain ⟨_, -, h⟩ := bind_eq_ok.mp h
  obtain ⟨parts, hparts, -⟩ := bind_eq_ok.mp h
  obtain ⟨part, -, hpart⟩ :=
    exists_of_forall₂_left (mapM_eq_ok.mp hparts) (List.mem_cons_of_mem t hu)
  obtain ⟨data, hdata, -⟩ := bind_eq_ok.mp hpart
  exact elementType_of_dataAs hdata

theorem demands_of_select (h : select t u w = .ok v) :
    t.elementType = .bool ∧ w.elementType = u.elementType ∧
      ∃ inner shape, Shape.broadcast t.shape u.shape = .ok inner ∧
        Shape.broadcast inner w.shape = .ok shape ∧ v.type = ⟨u.elementType, .fixed shape⟩ := by
  refine ⟨?_, ?_, type_select h⟩ <;> unfold select at h <;> split at h
  · cases h
  · rename_i cs hcs
    exact elementType_of_dataAs (by rw [dataAs, hcs])
  · cases h
  · obtain ⟨_, -, h⟩ := bind_eq_ok.mp h
    obtain ⟨_, -, h⟩ := bind_eq_ok.mp h
    obtain ⟨data, hdata, -⟩ := bind_eq_ok.mp h
    exact elementType_of_dataAs hdata

end Tensor

namespace Op

variable {op : Op} {t u w v : Tensor}

theorem commonType_known (others : List Tensor) (h : ∀ u ∈ others, u.elementType = t.elementType) :
    op.commonType t.operand (others.map Tensor.operand) = .ok t.elementType := by
  have hfind : (others.map Tensor.operand).find?
      (·.elementType != t.operand.elementType) = none := by
    rw [List.find?_eq_none, List.forall_mem_map]
    exact fun u hu => by simpa [Tensor.operand, Tensor.type] using h u hu
  rw [commonType, hfind]
  rfl

theorem inferElementwise_known {accepts : ElementType → Bool} {demand : Demand}
    {result : ElementType → ElementType} {shape : List Nat} (he : u.elementType = t.elementType)
    (ha : accepts t.elementType = true) (hs : Shape.broadcast t.shape u.shape = .ok shape) :
    ∃ type, op.inferElementwise accepts demand result t.operand u.operand = .ok type := by
  have hcommon : op.commonType t.operand [u.operand] = .ok t.elementType :=
    commonType_known [u] (by simpa using he)
  exact ⟨_, inferElementwise_eq_ok.mpr ⟨_, hcommon, ha, _, broadcastAll_known hs, rfl⟩⟩

theorem exists_inferArithmetic {operation : {α : Type} → Arithmetic α → α → α → α}
    (h : t.arithmetic operation u = .ok v) :
    ∃ type, op.inferArithmetic t.operand u.operand = .ok type := by
  obtain ⟨he, hn, shape, hs, -⟩ := Tensor.demands_of_arithmetic h
  rw [inferArithmetic_eq]
  exact inferElementwise_known he hn hs

theorem exists_inferFloat {operation : {α : Type} → Trigonometry α → α → α}
    (h : t.mapFloat operation = .ok v) : ∃ type, op.inferFloat t.operand = .ok type :=
  ⟨_, inferFloat_eq_ok.mpr ⟨Tensor.isFloat_of_mapFloat h, rfl⟩⟩

theorem exists_inferSelect (h : t.select u w = .ok v) :
    ∃ type, op.inferSelect t.operand u.operand w.operand = .ok type := by
  obtain ⟨hbool, he, inner, shape, hi, hs, -⟩ := Tensor.demands_of_select h
  have hcommon : op.commonType u.operand [w.operand] = .ok u.elementType :=
    commonType_known [w] (by simpa using he)
  exact ⟨_, inferSelect_eq_ok.mpr ⟨hbool, _, hcommon, _, broadcastAll_known₃ hi hs, rfl⟩⟩

theorem exists_inferGather {axis : Int} (h : t.gather axis u = .ok v) :
    ∃ type, op.inferGather axis t.operand u.operand = .ok type := by
  obtain ⟨a, values, positions, ha, hi, hp, -⟩ := Tensor.type_gather h
  exact ⟨_, inferGather_eq_ok.mpr
    ⟨Tensor.isInteger_of_ints hi, _, gatherShape_known ha hi hp, rfl⟩⟩

theorem exists_inferConcat {axis : Int} {others : List Tensor}
    (h : Tensor.concat axis t others = .ok v) :
    ∃ type, op.inferConcat axis t.operand (others.map Tensor.operand) = .ok type := by
  obtain ⟨a, ha, hm, -⟩ := Tensor.type_concat h
  have he := Tensor.elementType_of_concat h
  exact ⟨_, inferConcat_eq_ok.mpr ⟨_, commonType_known others he, _, concatShape_known ha hm, rfl⟩⟩

theorem exists_inferScatter (h : t.scatter u w = .ok v) :
    ∃ type, op.inferScatter t.operand u.operand w.operand = .ok type := by
  obtain ⟨hindices, helement, hshape⟩ := Tensor.demands_of_scatter h
  refine ⟨_, inferScatter_eq_ok.mpr ⟨hindices, helement, rfl, fun data indices updates hd hi hu => ?_⟩⟩
  cases hd
  cases hi
  cases hu
  exact hshape

/-- The operations whose computation checks all that typing does. -/
def ChecksAll : Op → Prop
  | convert _ | add | subtract | multiply | sqrt | cos | sin | select | gather _ | concat _
  | scatterNdUpdate | squeeze _ | unsqueeze _ => True
  | _ => False

/-- Where computing checks all that typing does, what is computed is accepted. -/
theorem exists_infer_of_compute (hop : op.ChecksAll) {vs : List Tensor}
    (h : op.compute vs = .ok v) : ∃ type, op.infer (vs.map Tensor.operand) = .ok type := by
  cases op with
  | convert target =>
    obtain ⟨t, rfl, -⟩ := unary_eq_ok.mp h
    exact ⟨_, rfl⟩
  | add =>
    obtain ⟨t, u, rfl, h⟩ := binary_eq_ok.mp h
    exact exists_inferArithmetic h
  | subtract =>
    obtain ⟨t, u, rfl, h⟩ := binary_eq_ok.mp h
    exact exists_inferArithmetic h
  | multiply =>
    obtain ⟨t, u, rfl, h⟩ := binary_eq_ok.mp h
    exact exists_inferArithmetic h
  | sqrt | cos | sin =>
    obtain ⟨t, rfl, h⟩ := unary_eq_ok.mp h
    exact exists_inferFloat h
  | select =>
    obtain ⟨t, u, w, rfl, h⟩ := ternary_eq_ok.mp h
    exact exists_inferSelect h
  | gather axis =>
    obtain ⟨t, u, rfl, h⟩ := binary_eq_ok.mp h
    exact exists_inferGather h
  | concat axis =>
    cases vs with
    | nil => cases h
    | cons t others => exact exists_inferConcat h
  | scatterNdUpdate =>
    obtain ⟨t, u, w, rfl, h⟩ := ternary_eq_ok.mp h
    exact exists_inferScatter h
  | squeeze axes =>
    obtain ⟨t, rfl, h⟩ := unary_eq_ok.mp h
    obtain ⟨shape, hs, -⟩ := Tensor.type_squeeze h
    exact ⟨_, inferSqueeze_eq_ok.mpr ⟨_, squeezeShape_known hs, rfl⟩⟩
  | unsqueeze axes =>
    obtain ⟨t, rfl, h⟩ := unary_eq_ok.mp h
    obtain ⟨shape, hs, -⟩ := Tensor.type_unsqueeze h
    exact ⟨_, inferUnsqueeze_eq_ok.mpr ⟨_, unsqueezeShape_known hs, rfl⟩⟩
  | _ => exact hop.elim

/-! ## The other operations -/

theorem integerVector_known {role : String} {allowScalar : Bool} {values : List Int}
    (hv : t.ints = .ok values)
    (hrank : t.shape.length = 1 ∨ t.shape.length = 0 ∧ allowScalar = true) :
    op.integerVector t.operand role allowScalar = .ok () :=
  integerVector_eq_ok.mpr ⟨Tensor.isInteger_of_ints hv, fun rank hr => by
    obtain rfl : t.shape.length = rank := Option.some.inj hr
    exact hrank⟩

/-- Where a scalar is allowed, so is every tensor of at most one axis. -/
theorem integerVector_known_of_le {role : String} {values : List Int} (hv : t.ints = .ok values)
    (hrank : t.shape.length ≤ 1) : op.integerVector t.operand role true = .ok () := by
  refine integerVector_known hv ?_
  rw [and_iff_left rfl]
  omega

theorem exists_inferBroadcast (op : Op) (h : t.broadcast u = .ok v) (hu : u.shape.length = 1) :
    ∃ type, op.inferBroadcast t.operand u.operand = .ok type := by
  obtain ⟨values, sizes, shape, hi, hn, hb, -⟩ := Tensor.type_broadcast h
  exact ⟨_, inferBroadcast_eq_ok.mpr
    ⟨integerVector_known hi (.inl hu), _, broadcastShape_known hi hn hb, rfl⟩⟩

theorem exists_inferAtan2 (op : Op) (h : t.atan2 u = .ok v) :
    ∃ type, op.inferAtan2 t.operand u.operand = .ok type := by
  obtain ⟨he, hf⟩ := Tensor.demands_of_atan2 h
  obtain ⟨shape, hs, -⟩ := Tensor.type_atan2 h
  rw [inferAtan2_eq]
  exact inferElementwise_known he hf hs

/-- Axes are a vector or a single number. -/
theorem exists_inferReduce (op : Op) {kind : ReduceKind} {keepDims : Bool}
    (h : t.reduce kind keepDims u = .ok v) (hu : u.shape.length ≤ 1) :
    ∃ type, op.inferReduce kind keepDims t.operand u.operand = .ok type := by
  obtain ⟨values, positions, hv, hp, -⟩ := Tensor.type_reduce h
  exact ⟨_, inferReduce_eq_ok.mpr ⟨Tensor.demands_of_reduce h, integerVector_known_of_le hv hu, _,
    reduceShape_known hv hp, rfl⟩⟩

theorem exists_inferReshape (op : Op) {specialZero : Bool} (h : t.reshapeTo specialZero u = .ok v)
    (hu : u.shape.length = 1) :
    ∃ type, op.inferReshape specialZero t.operand u.operand = .ok type := by
  obtain ⟨values, shape, hi, hr, -⟩ := Tensor.type_reshapeTo h
  exact ⟨_, inferReshape_eq_ok.mpr
    ⟨integerVector_known hi (.inl hu), _, reshapeShape_known hi hr, rfl⟩⟩

/-- A fill value, if there is one, has to be a scalar. -/
theorem exists_inferPad (op : Op) {mode : PadMode} {fill : Option Tensor}
    (h : Tensor.pad mode t u w fill = .ok v) (hu : u.shape.length = 1) (hw : w.shape.length = 1)
    (hf : ∀ f, fill = some f → f.shape = []) :
    ∃ type, op.inferPad t.operand u.operand w.operand (fill.map Tensor.operand) = .ok type := by
  obtain ⟨before, after, shape, hb, ha, hlb, hla, hp, -⟩ := Tensor.type_pad h
  have hfill : ∀ f, fill = some f → f.elementType = t.elementType := by
    rintro f rfl
    obtain ⟨_, _, h⟩ := bind_eq_ok.mp h
    obtain ⟨_, _, h⟩ := bind_eq_ok.mp h
    dsimp only at h
    split at h
    · cases h
    · obtain ⟨_, -, h⟩ := bind_eq_ok.mp h
      obtain ⟨_, -, h⟩ := bind_eq_ok.mp h
      obtain ⟨data, hdata, -⟩ := bind_eq_ok.mp h
      exact Tensor.elementType_of_dataAs hdata
  have hsize {x : Tensor} {values : List Int} (hv : x.ints = .ok values)
      (hx : x.shape.length = 1) (hlen : values.length = t.shape.length) :
      ∀ n, x.operand.shape.firstSize? = some n → n = (t.shape.map some).length := by
    obtain ⟨size, hsize⟩ := List.length_eq_one_iff.mp hx
    intro n hn
    have hvolume := Tensor.length_ints hv
    simp [Tensor.operand, Tensor.type, hsize, PartialShape.firstSize?] at hn hvolume
    simp [← hn, ← hvolume, hlen]
  refine ⟨_, inferPad_eq_ok.mpr ⟨integerVector_known hb (.inl hu), integerVector_known ha (.inl hw), ?_, ?_, _,
    padShape_known hb ha hlb hla hp, rfl⟩⟩
  · rw [checkFill_eq_ok]
    intro x hx
    obtain ⟨f, hf', rfl⟩ := Option.map_eq_some_iff.mp hx
    refine ⟨hfill f hf', fun rank hr => ?_⟩
    rw [← Option.some.inj hr, hf f hf']
    rfl
  · intro dims hd
    obtain rfl := Option.some.inj hd
    rw [checkBounds_eq_ok, List.forall_mem_cons, List.forall_mem_singleton]
    exact ⟨hsize hb hu hlb, hsize ha hw hla⟩

theorem exists_inferComplexMark (op : Op) {partType : ElementType} (he : t.elementType = partType)
    (hfloat : partType.isFloat = true) (hlast : t.shape.getLast? = some 2) :
    ∃ type, op.inferComplexMark partType t.operand = .ok type := by
  have hfloat' : t.elementType.isFloat = true := he ▸ hfloat
  refine ⟨_, inferComplexMark_eq_ok.mpr ⟨he, hfloat', rfl, fun dims hd => ?_⟩⟩
  obtain rfl := Option.some.inj hd
  exact ⟨some 2, by rw [List.getLast?_map, hlast]; rfl, fun size hsize => (Option.some.inj hsize).symm⟩

/-! ## Operations that look at types only -/

/-- Of tensors of which the first operation computes something, the second one computes something of
the same type, also of others that have the same types. -/
def TypesLike (op op' : Op) : Prop :=
  ∀ {vs vs' : List Tensor} {v : Tensor}, List.Forall₂ (fun t t' => t.type = t'.type) vs vs' →
    op.compute vs = .ok v → ∃ v', op'.compute vs' = .ok v' ∧ v.type = v'.type

/-- Sums, differences and products. -/
def IsArithmetic : Op → Prop
  | add | subtract | multiply => True
  | _ => False

section TypesLike

variable {op' : Op} {t' : Tensor}

theorem elementType_of_type (h : t.type = t'.type) : t.elementType = t'.elementType :=
  congrArg TensorType.elementType h

theorem shape_of_type (h : t.type = t'.type) : t.shape = t'.shape :=
  PartialShape.fixed.inj (congrArg TensorType.shape h)

/-- What is computed of numbers, by its operation. -/
theorem IsArithmetic.compute_eq (hop : op.IsArithmetic) :
    ∃ operation : {α : Type} → Arithmetic α → α → α → α,
      ∀ vs, op.compute vs = op.binary vs (Tensor.arithmetic operation) := by
  cases op with
  | add => exact ⟨Arithmetic.add, fun _ => rfl⟩
  | subtract => exact ⟨Arithmetic.sub, fun _ => rfl⟩
  | multiply => exact ⟨Arithmetic.mul, fun _ => rfl⟩
  | _ => exact hop.elim

theorem typesLike_arithmetic (hop : op.IsArithmetic) (hop' : op'.IsArithmetic) :
    TypesLike op op' := by
  intro vs vs' v hvs h
  obtain ⟨operation, heq⟩ := hop.compute_eq
  obtain ⟨operation', heq'⟩ := hop'.compute_eq
  rw [heq] at h
  obtain ⟨t, u, rfl, h⟩ := binary_eq_ok.mp h
  obtain _ | ⟨ht, _ | ⟨hu, _ | _⟩⟩ := hvs
  obtain ⟨he, hn, shape, hs, hv⟩ := Tensor.demands_of_arithmetic h
  rw [elementType_of_type ht] at he hn hv
  rw [elementType_of_type hu] at he
  rw [shape_of_type ht, shape_of_type hu] at hs
  obtain ⟨v', hv', htype⟩ := Tensor.exists_arithmetic operation' he hn hs
  exact ⟨v', (heq' _).trans hv', hv.trans htype.symm⟩

theorem typesLike_select : TypesLike select select := by
  intro vs vs' v hvs h
  obtain ⟨t, u, w, rfl, h⟩ := ternary_eq_ok.mp h
  obtain _ | ⟨ht, _ | ⟨hu, _ | ⟨hw, _ | _⟩⟩⟩ := hvs
  obtain ⟨hbool, he, inner, shape, hi, hs, hv⟩ := Tensor.demands_of_select h
  rw [elementType_of_type ht] at hbool
  rw [elementType_of_type hu] at he hv
  rw [elementType_of_type hw] at he
  rw [shape_of_type ht, shape_of_type hu] at hi
  rw [shape_of_type hw] at hs
  obtain ⟨v', hv'⟩ := Tensor.exists_select hbool he hi hs
  obtain ⟨-, -, inner', shape', hi', hs', htype⟩ := Tensor.demands_of_select hv'
  obtain rfl := Except.ok.inj (hi.symm.trans hi')
  obtain rfl := Except.ok.inj (hs.symm.trans hs')
  exact ⟨v', hv', hv.trans htype.symm⟩

end TypesLike

/-! ## Operands that may be missing -/

/-- The result of an operation on tensors of which some may be missing, if it has one. -/
def result? (op : Op) (xs : List (Option Tensor)) : Option Tensor :=
  (xs.mapM id).bind fun vs => (op.compute vs).toOption

theorem result?_eq_some {xs : List (Option Tensor)} :
    op.result? xs = some v ↔ ∃ vs, xs = vs.map some ∧ op.compute vs = .ok v := by
  simp only [result?, Option.bind_eq_some_iff, mapM_id_eq_some, toOption_eq_some]

theorem result?_map_some (vs : List Tensor) :
    op.result? (vs.map some) = (op.compute vs).toOption := by
  rw [result?, mapM_id_eq_some.mpr rfl, Option.bind_some]

theorem result?_one : op.result? [some t] = (op.compute [t]).toOption :=
  result?_map_some [t]

theorem result?_two : op.result? [some t, some u] = (op.compute [t, u]).toOption :=
  result?_map_some [t, u]

theorem result?_of_compute {vs : List Tensor} (h : op.compute vs = .ok v) :
    op.result? (vs.map some) = some v :=
  (result?_map_some vs).trans (congrArg Except.toOption h)

theorem result?_one_eq_some {x : Option Tensor} :
    op.result? [x] = some v ↔ ∃ t, x = some t ∧ op.compute [t] = .ok v := by
  rw [result?_eq_some]
  constructor
  · rintro ⟨_ | ⟨t, _ | _⟩, hvs, h⟩ <;> simp at hvs
    exact ⟨t, hvs, h⟩
  · rintro ⟨t, rfl, h⟩
    exact ⟨[t], rfl, h⟩

theorem result?_two_eq_some {x y : Option Tensor} : op.result? [x, y] = some v ↔
    ∃ t u, x = some t ∧ y = some u ∧ op.compute [t, u] = .ok v := by
  rw [result?_eq_some]
  constructor
  · rintro ⟨_ | ⟨t, _ | ⟨u, _ | _⟩⟩, hvs, h⟩ <;> simp at hvs
    exact ⟨t, u, hvs.1, hvs.2, h⟩
  · rintro ⟨t, u, rfl, rfl, h⟩
    exact ⟨[t, u], rfl, h⟩

theorem result?_of_none_mem {xs : List (Option Tensor)} (h : none ∈ xs) : op.result? xs = none := by
  rw [Option.eq_none_iff_forall_ne_some]
  intro v hv
  obtain ⟨vs, rfl, -⟩ := result?_eq_some.mp hv
  simp at h

/-- Both tensors are missing, or they have the same type. -/
def SameType (x y : Option Tensor) : Prop :=
  x.map Tensor.type = y.map Tensor.type

theorem SameType.symm {x y : Option Tensor} (h : SameType x y) : SameType y x :=
  Eq.symm h

theorem SameType.exists_eq_some {y : Option Tensor} (h : SameType (some v) y) :
    ∃ v', y = some v' ∧ v.type = v'.type := by
  obtain ⟨v', rfl, hv'⟩ := Option.map_eq_some_iff.mp (Eq.symm h)
  exact ⟨v', rfl, hv'.symm⟩

theorem SameType.refl (x : Option Tensor) : SameType x x :=
  rfl

theorem TypesLike.result? {op' : Op} (h : TypesLike op op') (h' : TypesLike op' op)
    {xs ys : List (Option Tensor)} (hxs : List.Forall₂ SameType xs ys) :
    SameType (op.result? xs) (op'.result? ys) := by
  have hhalf {op op' : Op} {xs ys : List (Option Tensor)} (h : TypesLike op op')
      (hxs : List.Forall₂ SameType xs ys) {v : Tensor} (hv : op.result? xs = some v) :
      ∃ v', op'.result? ys = some v' ∧ v.type = v'.type := by
    obtain ⟨vs, rfl, hcompute⟩ := result?_eq_some.mp hv
    obtain ⟨vs', rfl, hvs'⟩ : ∃ vs', ys = vs'.map some ∧
        List.Forall₂ (fun t t' => t.type = t'.type) vs vs' := by
      clear hcompute hv
      induction vs generalizing ys with
      | nil => exact ⟨[], List.forall₂_nil_left_iff.mp hxs, .nil⟩
      | cons v vs ih =>
        obtain ⟨y, ys, hy, hys, rfl⟩ := List.forall₂_cons_left_iff.mp hxs
        obtain ⟨v', rfl, hv'⟩ := hy.exists_eq_some
        obtain ⟨vs', rfl, hvs'⟩ := ih hys
        exact ⟨v' :: vs', rfl, .cons hv' hvs'⟩
    obtain ⟨v', hv', htype⟩ := h hvs' hcompute
    exact ⟨v', result?_of_compute hv', htype⟩
  cases hx : op.result? xs with
  | some v =>
    obtain ⟨v', hv', htype⟩ := hhalf h hxs hx
    rw [hv']
    exact congrArg some htype
  | none =>
    cases hy : op'.result? ys with
    | none => rfl
    | some v =>
      obtain ⟨v', hv', -⟩ := hhalf h' (hxs.flip.imp fun _ _ => SameType.symm) hy
      rw [hx] at hv'
      cases hv'

theorem sameType_arithmetic {op' : Op} {x x' y y' : Option Tensor} (hop : op.IsArithmetic)
    (hop' : op'.IsArithmetic) (hx : SameType x x') (hy : SameType y y') :
    SameType (op.result? [x, y]) (op'.result? [x', y']) :=
  TypesLike.result? (typesLike_arithmetic hop hop') (typesLike_arithmetic hop' hop)
    (.cons hx (.cons hy .nil))

/-! ## Acceptance -/

/-- The operation is accepted on the tensors, none of which is missing, and computes something. -/
def Accepts (op : Op) (xs : List (Option Tensor)) : Prop :=
  ∃ vs v type, xs = vs.map some ∧ op.compute vs = .ok v ∧
    op.infer (vs.map Tensor.operand) = .ok type

theorem accepts_of_result? {xs : List (Option Tensor)}
    (h : ∀ vs v, op.compute vs = .ok v → ∃ type, op.infer (vs.map Tensor.operand) = .ok type)
    (hv : op.result? xs = some v) : op.Accepts xs := by
  obtain ⟨vs, rfl, hcompute⟩ := result?_eq_some.mp hv
  obtain ⟨type, ht⟩ := h vs v hcompute
  exact ⟨vs, v, type, rfl, hcompute, ht⟩

theorem ChecksAll.accepts (hop : op.ChecksAll) {xs : List (Option Tensor)}
    (hv : op.result? xs = some v) : op.Accepts xs :=
  accepts_of_result? (fun _ _ => exists_infer_of_compute hop) hv

end Op

end TensorLowering
