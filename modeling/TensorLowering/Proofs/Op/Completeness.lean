import Mathlib.Algebra.GroupWithZero.Nat
import TensorLowering.Proofs.Op.Determined
import TensorLowering.Proofs.Op.Rejection
import TensorLowering.Proofs.Tensor.Planes
import TensorLowering.Proofs.Tensor.Reduction

/-!
# What is accepted can be computed

Where all shapes are known before run time, and so are the lists that a shape depends on, typing has
checked all that computing checks (`compute_of_infer`): it fails for no tensors that the operands may
stand for. Scattering, padding by mirroring and the smallest or largest element are left out, which
ask for more than shapes: that addresses and mirrored positions are inside, and that there is an
element to choose (`Shape.Feeds`). Numbers of elements that overflow are left out as well
(`Op.CountsFit`).
-/

namespace TensorLowering

open Shape

namespace Shape

/-- Each element of the result of a reduction is made of at least one element of the data. -/
def Feeds (keepDims : Bool) (axes shape : List Nat) : Prop :=
  ∀ o, Within o (collapse 1 keepDims axes shape) →
    ∃ c, Within c shape ∧ collapse 0 keepDims axes c = o

end Shape

namespace Kernel

variable {α : Type}

theorem exists_concat {axis : Nat} {first : List Nat} {parts : List (List Nat × Array α)}
    (h : ∀ part ∈ parts, part.2.size = volume part.1 ∧ part.1.take axis = first.take axis) :
    ∃ data, concat axis first parts = .ok data ∧ data.size =
      volume (first.take axis) * (parts.map fun part => volume (part.1.drop axis)).sum := by
  have hrow : ∀ o ∈ List.range (volume (first.take axis)), ∃ blocks, parts.mapM (fun part =>
      readBlock part.2 (o * volume (part.1.drop axis)) (volume (part.1.drop axis))) =
        .ok blocks := by
    refine fun o ho => exists_mapM_eq_ok.mpr fun part hpart => ⟨_, if_pos ?_⟩
    obtain ⟨hsize, htake⟩ := h part hpart
    rw [hsize, ← volume_take_mul_drop part.1 axis, htake]
    exact block_le (List.mem_range.mp ho) _
  obtain ⟨rows, hrows⟩ := exists_mapM_eq_ok.mpr hrow
  refine ⟨rows.flatten.flatten.toArray, bind_eq_ok.mpr ⟨rows, hrows, rfl⟩, ?_⟩
  have hlength : rows.map (List.length ∘ List.flatten) =
      rows.map fun _ => (parts.map fun part => volume (part.1.drop axis)).sum := by
    refine List.map_congr_left fun row hrow => ?_
    obtain ⟨o, -, ho⟩ := exists_of_forall₂_right (mapM_eq_ok.mp hrows) hrow
    have hblocks : parts.map (fun part => volume (part.1.drop axis)) = row.map List.length := by
      rw [← List.forall₂_eq_eq_eq, List.forall₂_map_left_iff, List.forall₂_map_right_iff]
      exact (mapM_eq_ok.mp ho).imp fun _ _ hread => (length_readBlock hread).symm
    rw [Function.comp_apply, List.length_flatten, hblocks]
  have hcount : rows.length = volume (first.take axis) := by
    rw [← (mapM_eq_ok.mp hrows).length_eq, List.length_range]
  rw [List.size_toArray, List.flatten_flatten, List.length_flatten, List.map_map, hlength,
    List.map_const', List.sum_replicate_nat, hcount]

end Kernel

namespace Tensor

variable {t u w : Tensor}

/-! ## Computing -/

theorem exists_less {sizes : List Nat} (he : u.elementType = t.elementType)
    (hn : t.elementType.isNumeric = true) (hs : Shape.broadcast t.shape u.shape = .ok sizes) :
    ∃ v, t.less u = .ok v := by
  obtain ⟨a, ha⟩ := ElementType.isNumeric_iff.mp hn
  obtain ⟨ys, hys, hsize⟩ := exists_dataAs he
  obtain ⟨hl, hr⟩ := fits_of_broadcast hs
  obtain ⟨zs, hzs, hsize⟩ := Kernel.exists_zipBroadcast a.less t.size_data hsize hl hr
  obtain ⟨v, hv⟩ := exists_ofData (e := .bool) hsize
  refine ⟨v, ?_⟩
  simp only [less, hs, ok_bind, ha, hys, hzs]
  exact hv

theorem exists_gather {axis : Int} {a : Nat} {values : List Int} {named : List Nat}
    (ha : resolveAxis axis t.shape.length = .ok a) (hv : u.ints = .ok values)
    (hn : values.mapM (resolveIndex · (t.shape.getD a 0)) = .ok named) :
    ∃ v, t.gather axis u = .ok v := by
  obtain ⟨f, ht⟩ := exists_tabulate (t := t) rfl
  generalize t.elementType = e, t.shape = shape at *
  subst ht
  exact ⟨_, gather_tabulate ha hv hn⟩

/-- Side by side along an axis, the blocks of the parts fill those of the whole. -/
theorem volume_set_of_eraseIdx {a : Nat} {first : List Nat} (ha : a < first.length)
    {parts : List Tensor} (h : ∀ part ∈ parts, part.shape.length = first.length ∧
      part.shape.eraseIdx a = first.eraseIdx a) :
    volume (first.set a (parts.foldr (fun part length => part.shape.getD a 0 + length) 0)) =
      volume (first.take a) * (parts.map fun part => volume (part.shape.drop a)).sum := by
  have hblock : ∀ n, volume ((first.set a n).drop a) = n * volume (first.drop (a + 1)) := fun n => by
    rw [List.drop_eq_getElem_cons (by simpa using ha), List.getElem_set_self, volume_cons,
      List.drop_set_of_lt (Nat.lt_succ_self a)]
  have hsum : (parts.map fun part => volume (part.shape.drop a)).sum =
      parts.foldr (fun part length => part.shape.getD a 0 + length) 0 *
        volume (first.drop (a + 1)) := by
    induction parts with
    | nil => simp
    | cons part parts ih =>
      obtain ⟨⟨hlen, herase⟩, h⟩ := List.forall_mem_cons.mp h
      have hpart := hblock (part.shape.getD a 0)
      rw [← Op.eq_set_of_eraseIdx hlen herase] at hpart
      rw [List.map_cons, List.sum_cons, List.foldr_cons, ih h, hpart, Nat.add_mul]
  rw [hsum, ← hblock, ← volume_take_mul_drop (first.set a _) a, List.take_set_of_le (Nat.le_refl a)]

theorem exists_concat {axis : Int} {a : Nat} {others : List Tensor}
    (ha : resolveAxis axis t.shape.length = .ok a)
    (he : ∀ u ∈ others, u.elementType = t.elementType)
    (ho : ∀ u ∈ others, u.shape.length = t.shape.length ∧
      u.shape.eraseIdx a = t.shape.eraseIdx a) : ∃ v, concat axis t others = .ok v := by
  have hmatch : others.forM (fun other => matchShapes a t.shape other.shape) = .ok () := by
    rw [List.forM_eq_forM, forM_eq_ok]
    exact fun u hu => if_pos (ho u hu)
  have hall : ∀ u ∈ t :: others, u.shape.length = t.shape.length ∧
      u.shape.eraseIdx a = t.shape.eraseIdx a := List.forall_mem_cons.mpr ⟨⟨rfl, rfl⟩, ho⟩
  have htypes : ∀ u ∈ t :: others, u.elementType = t.elementType :=
    List.forall_mem_cons.mpr ⟨rfl, he⟩
  obtain ⟨parts, hparts⟩ : ∃ parts, (t :: others).mapM (fun part => do
      return (part.shape, ← part.dataAs t.elementType)) = .ok parts := by
    refine exists_mapM_eq_ok.mpr fun u hu => ?_
    obtain ⟨data, hdata, -⟩ := exists_dataAs (htypes u hu)
    exact ⟨_, bind_eq_ok.mpr ⟨data, hdata, rfl⟩⟩
  have hpart : List.Forall₂ (fun (u : Tensor) part => part.1 = u.shape ∧
      part.2.size = volume u.shape) (t :: others) parts := by
    refine (mapM_eq_ok.mp hparts).imp fun u part hu => ?_
    obtain ⟨data, hdata, hu⟩ := bind_eq_ok.mp hu
    obtain rfl := Except.ok.inj hu
    exact ⟨rfl, size_dataAs hdata⟩
  have hkernel : ∀ part ∈ parts, part.2.size = volume part.1 ∧
      part.1.take a = t.shape.take a := by
    intro part hmem
    obtain ⟨u, hu, hshape, hsize⟩ := exists_of_forall₂_right hpart hmem
    obtain ⟨hlen, herase⟩ := hall u hu
    rw [hshape, Op.eq_set_of_eraseIdx hlen herase, List.take_set_of_le (Nat.le_refl a),
      ← Op.eq_set_of_eraseIdx hlen herase]
    exact ⟨hsize, rfl⟩
  obtain ⟨data, hdata, hsize⟩ := Kernel.exists_concat hkernel
  have hblocks : parts.map (fun part => volume (part.1.drop a)) =
      (t :: others).map fun u => volume (u.shape.drop a) := by
    rw [eq_comm, ← List.forall₂_eq_eq_eq, List.forall₂_map_left_iff, List.forall₂_map_right_iff]
    exact hpart.imp fun u part h => by rw [h.1]
  rw [hblocks, ← volume_set_of_eraseIdx (resolveAxis_lt ha) hall] at hsize
  obtain ⟨v, hv⟩ := exists_ofData (e := t.elementType) hsize
  refine ⟨v, ?_⟩
  simp only [concat, show t.rank = t.shape.length from rfl, ha, ok_bind, hmatch]
  exact bind_eq_ok.mpr ⟨parts, hparts, bind_eq_ok.mpr ⟨data, hdata, hv⟩⟩

theorem exists_broadcast {values : List Int} {sizes result : List Nat} (hv : u.ints = .ok values)
    (hs : values.mapM sizeOfInt = .ok sizes) (hb : Shape.broadcast t.shape sizes = .ok result) :
    ∃ v, t.broadcast u = .ok v := by
  have htarget : values.mapM targetSize = .ok sizes := by
    rw [mapM_eq_ok] at hs ⊢
    refine hs.imp fun value size h => ?_
    unfold sizeOfInt at h
    unfold targetSize
    split_ifs at h ⊢
    exact h
  obtain ⟨xs, hxs, hlen⟩ := Kernel.exists_spread t.size_data (fits_of_broadcast hb).1
  have hsize : xs.toArray.size = volume result := hlen
  obtain ⟨v, hdata⟩ := exists_ofData (e := t.elementType) hsize
  refine ⟨v, ?_⟩
  simp only [broadcast, hv, ok_bind, htarget, hb, hxs]
  exact hdata

theorem exists_scalar {e : ElementType} (he : t.elementType = e) (hs : t.shape = []) :
    ∃ z, t = scalar e z := by
  obtain ⟨e', shape, data, hsize⟩ := t
  obtain rfl : e' = e := he
  obtain rfl : shape = [] := hs
  obtain ⟨z, rfl⟩ := Array.size_eq_one_iff.mp hsize
  exact ⟨z, rfl⟩

theorem exists_reshape {shape : List Nat} (h : volume shape = volume t.shape) :
    ∃ v, t.reshape shape = .ok v :=
  exists_ofData (t.size_data.trans h.symm)

/-- Each element of the result of a reduction is made of as many elements as their type counts. -/
def Counted (t : Tensor) (keepDims : Bool) (axes : List Nat) : Prop :=
  ∀ c, Within c (collapse 1 keepDims axes t.shape) →
    t.elementType.Counts (Lowering.slice axes keepDims t.shape c).length

theorem exists_reduce_of_feeds {kind : ReduceKind} {keepDims : Bool} {values : List Int}
    {positions : List Nat} (he : if kind.isLogical then t.elementType = .bool else
      t.elementType.isNumeric = true) (hv : u.ints = .ok values)
    (hp : resolveAxes values t.shape.length = .ok positions)
    (hfeeds : kind = .min ∨ kind = .max → Feeds keepDims positions t.shape)
    (hcounts : kind = .mean → t.Counted keepDims positions) :
    ∃ v, t.reduce kind keepDims u = .ok v := by
  unfold Counted at hcounts
  obtain ⟨f, ht⟩ := exists_tabulate (t := t) rfl
  generalize t.elementType = e, t.shape = shape at *
  subst ht
  have hfolds : ∀ c, Within c (collapse 1 keepDims positions shape) → ∃ y,
      Kernel.Folds e kind ((Lowering.slice positions keepDims shape c).map f) y := by
    intro c hc
    by_cases hmean : kind = .mean
    · subst hmean
      exact Kernel.exists_folds_mean he (by rw [List.length_map]; exact hcounts rfl c hc)
    · refine Kernel.exists_folds he hmean fun hbest => ?_
      obtain ⟨d, hd, hdc⟩ := hfeeds hbest c hc
      exact List.ne_nil_of_mem (List.mem_map_of_mem (Lowering.mem_slice.mpr ⟨hd, hdc⟩))
  have : Nonempty e.Carrier := ⟨e.zero⟩
  choose! g hg using hfolds
  exact ⟨_, reduce_tabulate_eq_ok.mpr ⟨values, hv, positions, hp, he, g, hg, rfl⟩⟩

end Tensor

/-- An operand of fixed shape is of the type of the tensor that it stands for. -/
theorem Tensor.Conforms.type_eq {v : Tensor} {x : Operand} (h : v.Conforms x)
    (hfixed : x.shape.isFixed = true) : x.toTensorType = v.type := by
  obtain ⟨sizes, hsizes⟩ := exists_of_isFixed hfixed
  have hshape := (h.refines.shape.fixed sizes hsizes).trans hsizes.symm
  exact congrArg₂ TensorType.mk h.elementType.symm hshape.symm

/-- If its contents are known as well, it is the tensor. -/
theorem Tensor.Conforms.eq_operand {v : Tensor} {x : Operand} (h : v.Conforms x)
    (hfixed : x.shape.isFixed = true) (hknown : x.contents.isSome = true) : x = v.operand := by
  have htype := h.type_eq hfixed
  obtain ⟨known, hk⟩ := Option.isSome_iff_exists.mp hknown
  obtain ⟨type, contents⟩ := x
  obtain rfl : type = v.type := htype
  obtain rfl : contents = some known := hk
  rw [h.contents known rfl]
  rfl

namespace Op

variable {op : Op} {t u w : Tensor} {x y z : Operand} {vs : List Tensor} {operands : List Operand}
  {type : TensorType}

/-! ## Typing reads lists only -/

theorem inferElementwise_congr {accepts : ElementType → Bool} {demand : Demand}
    {result : ElementType → ElementType} (hx : x.toTensorType = t.type)
    (hy : y.toTensorType = u.type) : op.inferElementwise accepts demand result x y =
      op.inferElementwise accepts demand result t.operand u.operand := by
  obtain ⟨_, c⟩ := x
  obtain ⟨_, d⟩ := y
  obtain rfl := hx
  obtain rfl := hy
  have hcommon : op.commonType ⟨t.type, c⟩ [⟨u.type, d⟩] = op.commonType t.operand [u.operand] :=
    commonType_congr rfl (.cons rfl .nil)
  rw [inferElementwise, hcommon]
  rfl

theorem inferSelect_congr (hx : x.toTensorType = t.type) (hy : y.toTensorType = u.type)
    (hz : z.toTensorType = w.type) :
    op.inferSelect x y z = op.inferSelect t.operand u.operand w.operand := by
  obtain ⟨_, b⟩ := x
  obtain ⟨_, c⟩ := y
  obtain ⟨_, d⟩ := z
  obtain rfl := hx
  obtain rfl := hy
  obtain rfl := hz
  have hcommon : op.commonType ⟨u.type, c⟩ [⟨w.type, d⟩] = op.commonType u.operand [w.operand] :=
    commonType_congr rfl (.cons rfl .nil)
  rw [inferSelect, hcommon]
  rfl

theorem concatShape_congr {axis : Int} {xs ys : List Operand}
    (h : xs.map Operand.toTensorType = ys.map Operand.toTensorType) :
    concatShape axis xs = concatShape axis ys := by
  have hranked (zs : List Operand) : concatRanked axis zs = (zs.map Operand.toTensorType).foldlM
      (fun joined type => joinRanked axis joined type.shape.dims?) none := by
    rw [concatRanked_eq, List.foldlM_map]
  have hall (zs : List Operand) : zs.all (·.shape.rank?.isSome) =
      (zs.map Operand.toTensorType).all (·.shape.rank?.isSome) := by
    rw [List.all_map]
    rfl
  simp only [concatShape, hranked, hall, h]

/-- The operands whose elements typing reads: indices, axes, counts and target shapes. -/
def listPlaces : Op → List Nat
  | gather _ | reduce _ _ | broadcast | reshape _ => [1]
  | pad _ => [1, 2]
  | _ => []

section Arity

variable (htypes : List.Forall₂ (fun (t : Tensor) x => x.toTensorType = t.type) vs operands)
include htypes

theorem unary_of_types {rule : Operand → Except Error TensorType}
    (hr : ∀ (t : Tensor) c, rule ⟨t.type, c⟩ = rule t.operand)
    (h : op.unary operands rule = .ok type) : op.unary (vs.map Tensor.operand) rule = .ok type := by
  obtain ⟨⟨_, c⟩, rfl, h⟩ := unary_eq_ok.mp h
  obtain _ | ⟨rfl, _ | _⟩ := htypes
  exact (hr _ c).symm.trans h

theorem binary_of_types {rule : Operand → Operand → Except Error TensorType}
    (hr : ∀ {t u : Tensor} {x y : Operand}, x.toTensorType = t.type → y.toTensorType = u.type →
      rule x y = rule t.operand u.operand) (h : op.binary operands rule = .ok type) :
    op.binary (vs.map Tensor.operand) rule = .ok type := by
  obtain ⟨x, y, rfl, h⟩ := binary_eq_ok.mp h
  obtain _ | ⟨hx, _ | ⟨hy, _ | _⟩⟩ := htypes
  exact (hr hx hy).symm.trans h

/-- The second operand is a list. -/
theorem binary_of_list {rule : Operand → Operand → Except Error TensorType}
    (hr : ∀ (t u : Tensor) c, rule ⟨t.type, c⟩ u.operand = rule t.operand u.operand)
    (hlist : operands[1]? = vs[1]?.map Tensor.operand) (h : op.binary operands rule = .ok type) :
    op.binary (vs.map Tensor.operand) rule = .ok type := by
  obtain ⟨⟨_, c⟩, y, rfl, h⟩ := binary_eq_ok.mp h
  obtain _ | ⟨rfl, _ | ⟨hy, _ | _⟩⟩ := htypes
  obtain rfl := Option.some.inj hlist
  exact (hr _ _ c).symm.trans h

theorem ternary_of_types {rule : Operand → Operand → Operand → Except Error TensorType}
    (hr : ∀ {t u w : Tensor} {x y z : Operand}, x.toTensorType = t.type →
      y.toTensorType = u.type → z.toTensorType = w.type →
      rule x y z = rule t.operand u.operand w.operand) (h : op.ternary operands rule = .ok type) :
    op.ternary (vs.map Tensor.operand) rule = .ok type := by
  obtain ⟨x, y, z, rfl, h⟩ := ternary_eq_ok.mp h
  obtain _ | ⟨hx, _ | ⟨hy, _ | ⟨hz, _ | _⟩⟩⟩ := htypes
  exact (hr hx hy hz).symm.trans h

theorem concat_of_types {axis : Int} (h : (concat axis).infer operands = .ok type) :
    (concat axis).infer (vs.map Tensor.operand) = .ok type := by
  cases htypes with
  | nil => cases h
  | @cons t x others operands hx ho =>
    obtain ⟨e, he, shape, hs, rfl⟩ := inferConcat_eq_ok.mp h
    have hlist : (x :: operands).map Operand.toTensorType =
        ((t :: others).map Tensor.operand).map Operand.toTensorType := by
      rw [List.map_map, ← List.forall₂_eq_eq_eq, List.forall₂_map_left_iff,
        List.forall₂_map_right_iff]
      exact List.Forall₂.flip (.cons hx ho)
    have hothers : List.Forall₂ (fun (y y' : Operand) => y.elementType = y'.elementType)
        operands (others.map Tensor.operand) :=
      List.forall₂_map_right_iff.mpr (ho.imp fun _ _ h => congrArg TensorType.elementType h).flip
    have helement : x.elementType = t.operand.elementType := congrArg TensorType.elementType hx
    rw [commonType_congr helement hothers] at he
    rw [concatShape_congr hlist] at hs
    exact inferConcat_eq_ok.mpr ⟨e, he, shape, hs, rfl⟩

/-- The counts before and after are lists; of the data and of a fill value only the types matter. -/
theorem pad_of_types {mode : PadMode} (hbefore : operands[1]? = vs[1]?.map Tensor.operand)
    (hafter : operands[2]? = vs[2]?.map Tensor.operand)
    (h : (pad mode).infer operands = .ok type) :
    (pad mode).infer (vs.map Tensor.operand) = .ok type := by
  obtain _ | ⟨hx, _ | ⟨-, _ | ⟨-, _ | ⟨hf, _ | _⟩⟩⟩⟩ := htypes
  · cases mode <;> cases h
  · cases mode <;> cases h
  · cases mode <;> cases h
  · rename_i t x u y w z
    obtain ⟨_, _⟩ := x
    obtain rfl := hx
    obtain rfl := Option.some.inj hbefore
    obtain rfl := Option.some.inj hafter
    rw [infer_pad] at h
    exact (infer_pad ..).trans h
  · rename_i t x u y w z f g
    obtain ⟨_, _⟩ := x
    obtain ⟨_, _⟩ := g
    obtain rfl := hx
    obtain rfl := hf
    obtain rfl := Option.some.inj hbefore
    obtain rfl := Option.some.inj hafter
    cases mode with
    | constant => exact h
    | _ => cases h
  · cases mode <;> cases h

/-- Where the operands have the types of tensors, and the lists among them are known, typing finds
what it finds of the tensors. -/
theorem infer_operand (hlists : ∀ i ∈ op.listPlaces, operands[i]? = vs[i]?.map Tensor.operand)
    (h : op.infer operands = .ok type) : op.infer (vs.map Tensor.operand) = .ok type := by
  cases op with
  | parameter name e shape =>
    obtain ⟨rfl, hrule⟩ := nullary_eq_ok.mp h
    cases htypes
    exact h
  | constant value =>
    obtain ⟨rfl, hrule⟩ := nullary_eq_ok.mp h
    cases htypes
    exact h
  | convert | squeeze | unsqueeze | shapeOf | complexMark =>
    exact unary_of_types htypes (fun _ _ => rfl) h
  | sqrt | cos | sin => exact unary_of_types htypes (fun _ _ => rfl) h
  | add | subtract | multiply => exact binary_of_types htypes inferElementwise_congr h
  | less => exact binary_of_types htypes inferElementwise_congr h
  | atan2 => exact binary_of_types htypes inferElementwise_congr h
  | gather | reduce | broadcast | reshape =>
    exact binary_of_list htypes (fun _ _ _ => rfl) (hlists 1 (List.mem_singleton_self 1)) h
  | scatterNdUpdate =>
    refine ternary_of_types htypes (fun {t u w x y z} hx hy hz => ?_) h
    obtain ⟨_, _⟩ := x
    obtain ⟨_, _⟩ := y
    obtain ⟨_, _⟩ := z
    obtain rfl := hx
    obtain rfl := hy
    obtain rfl := hz
    rfl
  | select => exact ternary_of_types htypes inferSelect_congr h
  | concat => exact concat_of_types htypes h
  | pad =>
    exact pad_of_types htypes (hlists 1 (List.mem_cons_self ..)) (hlists 2 (by simp [listPlaces])) h

end Arity

/-! ## All operations -/

/-- The operations of which typing, on known shapes, checks all that computing does: not the values
that are fed at run time, and neither the addresses of a scatter nor the reach of a mirror. -/
def IsDetermined : Op → Prop
  | parameter .. | scatterNdUpdate => False
  | pad mode => mode = .constant
  | _ => True

/-- A smallest or largest element is chosen among at least one. -/
def FeedsBest : Op → List Tensor → Prop
  | reduce kind keepDims, [data, axes] => kind = .min ∨ kind = .max →
    ∀ values positions, axes.ints = .ok values →
      resolveAxes values data.shape.length = .ok positions → Feeds keepDims positions data.shape
  | _, _ => True

/-- No number of elements overflows: those that a mean divides by are counted in the element type, those
that a reshape compares are words. -/
def CountsFit : Op → List Tensor → Prop
  | reduce kind keepDims, [data, axes] => kind = .mean →
    ∀ values positions, axes.ints = .ok values →
      resolveAxes values data.shape.length = .ok positions → data.Counted keepDims positions
  | reshape specialZero, [data, target] => volume data.shape < UInt64.size ∧
    ∀ values (sizes : List Nat), target.ints = .ok values →
      Shape.reshape (some (data.shape.map some)) values specialZero = .ok (sizes.map some) →
      volume sizes < UInt64.size
  | _, _ => True

theorem exists_mapFloat_of_infer {operation : {α : Type} → Trigonometry α → α → α}
    (h : op.inferFloat t.operand = .ok type) : ∃ v, t.mapFloat operation = .ok v := by
  obtain ⟨hfloat, -⟩ := inferFloat_eq_ok.mp h
  obtain ⟨v, hv, -⟩ := Tensor.exists_mapFloat operation hfloat
  exact ⟨v, hv⟩

/-- Two tensors of one type that typing accepts for an elementwise operation broadcast. -/
theorem demands_of_inferElementwise {accepts : ElementType → Bool} {demand : Demand}
    {result : ElementType → ElementType}
    (h : op.inferElementwise accepts demand result t.operand u.operand = .ok type) :
    u.elementType = t.elementType ∧ accepts t.elementType = true ∧
      ∃ sizes, Shape.broadcast t.shape u.shape = .ok sizes := by
  obtain ⟨e, he, ha, shape, hs, -⟩ := inferElementwise_eq_ok.mp h
  obtain rfl := elementType_of_commonType he
  obtain ⟨sizes, hb, -⟩ := broadcastAll_operand hs
  exact ⟨forall_elementType_of_commonType he _ (List.mem_singleton_self _), ha, sizes, hb⟩

/-- What typing accepts of tensors can be computed. -/
theorem exists_compute_of_infer (hop : op.IsDetermined) (hfeeds : op.FeedsBest vs)
    (hcounts : op.CountsFit vs) (h : op.infer (vs.map Tensor.operand) = .ok type) : ∃ v, op.compute vs = .ok v := by
  cases op with
  | parameter | scatterNdUpdate => exact hop.elim
  | constant value => exact ⟨value, rfl⟩
  | convert | shapeOf | complexMark =>
    obtain ⟨t, rfl, -⟩ := unary_operand h
    exact ⟨_, rfl⟩
  | add | subtract | multiply =>
    obtain ⟨t, u, rfl, hrule⟩ := binary_operand h
    obtain ⟨he, hn, sizes, hs⟩ := demands_of_inferElementwise hrule
    obtain ⟨v, hv, -⟩ := Tensor.exists_arithmetic _ he hn hs
    exact ⟨v, hv⟩
  | less =>
    obtain ⟨t, u, rfl, hrule⟩ := binary_operand h
    obtain ⟨he, hn, sizes, hs⟩ := demands_of_inferElementwise hrule
    exact Tensor.exists_less he hn hs
  | atan2 =>
    obtain ⟨t, u, rfl, hrule⟩ := binary_operand h
    obtain ⟨he, hf, sizes, hs⟩ := demands_of_inferElementwise hrule
    obtain ⟨v, hv, -⟩ := Tensor.exists_atan2 he hf hs
    exact ⟨v, hv⟩
  | sqrt | cos | sin =>
    obtain ⟨t, rfl, hrule⟩ := unary_operand h
    exact exists_mapFloat_of_infer hrule
  | gather axis =>
    obtain ⟨t, u, rfl, hrule⟩ := binary_operand h
    obtain ⟨-, shape, hs, -⟩ := inferGather_eq_ok.mp hrule
    obtain ⟨a, values, named, ha, hv, hn, -⟩ := gatherShape_operand hs
    exact Tensor.exists_gather ha hv hn
  | concat axis =>
    cases vs with
    | nil => cases h
    | cons t others =>
      obtain ⟨_, he, shape, hs, -⟩ := inferConcat_eq_ok.mp h
      obtain ⟨a, ha, ho, -⟩ := concatShape_operand hs
      have helements := List.forall_mem_map.mp (forall_elementType_of_commonType he)
      exact Tensor.exists_concat ha helements ho
  | pad mode =>
    obtain rfl : mode = .constant := hop
    obtain ⟨t, u, w, fill, rfl, -, hrule⟩ := pad_operand h
    obtain ⟨before, after, sizes, hb, ha, hlb, hla, hs, -⟩ := inferPad_operand hrule
    obtain ⟨-, -, hcheck, -⟩ := inferPad_eq_ok.mp hrule
    cases fill with
    | none => exact Tensor.exists_pad t.elementType.zero hb ha hlb hla hs
    | some f =>
      obtain ⟨helement, hrank⟩ := checkFill_eq_ok.mp hcheck f.operand rfl
      obtain ⟨z, rfl⟩ := Tensor.exists_scalar helement (List.length_eq_zero_iff.mp (hrank _ rfl))
      exact Tensor.exists_pad z hb ha hlb hla hs
  | reduce kind keepDims =>
    obtain ⟨t, u, rfl, hrule⟩ := binary_operand h
    obtain ⟨he, -, shape, hs, -⟩ := inferReduce_eq_ok.mp hrule
    obtain ⟨values, positions, hv, hp, -⟩ := reduceShape_operand hs
    exact Tensor.exists_reduce_of_feeds he hv hp
      (fun hbest => hfeeds hbest values positions hv hp)
      fun hmean => hcounts hmean values positions hv hp
  | broadcast =>
    obtain ⟨t, u, rfl, hrule⟩ := binary_operand h
    obtain ⟨-, shape, hs, -⟩ := inferBroadcast_eq_ok.mp hrule
    obtain ⟨values, sizes, result, hv, hn, hb, -⟩ := broadcastShape_operand hs
    exact Tensor.exists_broadcast hv hn hb
  | select =>
    obtain ⟨t, u, w, rfl, hrule⟩ := ternary_operand h
    obtain ⟨hbool, _, he, shape, hs, -⟩ := inferSelect_eq_ok.mp hrule
    obtain ⟨inner, sizes, hi, hb, -⟩ := broadcastAll_operand₃ hs
    have helement := forall_elementType_of_commonType he _ (List.mem_singleton_self _)
    exact Tensor.exists_select hbool helement hi hb
  | reshape specialZero =>
    obtain ⟨t, u, rfl, hrule⟩ := binary_operand h
    obtain ⟨-, shape, hs, -⟩ := inferReshape_eq_ok.mp hrule
    obtain ⟨values, sizes, hv, hr, hvolume, -⟩ := reshapeShape_operand hs
    rw [Word.unsigned_eq (hcounts.2 values sizes hv hr), Word.unsigned_eq hcounts.1] at hvolume
    obtain ⟨v, hdata⟩ := Tensor.exists_reshape hvolume
    have hknown : (sizes.map some).mapM id = some sizes := mapM_id_eq_some.mpr rfl
    refine ⟨v, bind_eq_ok.mpr ⟨values, hv, bind_eq_ok.mpr ⟨_, hr, ?_⟩⟩⟩
    rw [hknown]
    exact hdata
  | squeeze axes =>
    obtain ⟨t, rfl, hrule⟩ := unary_operand h
    obtain ⟨shape, hs, -⟩ := inferSqueeze_eq_ok.mp hrule
    obtain ⟨sizes, hq, hvolume, -⟩ := squeezeShape_operand hs
    obtain ⟨v, hdata⟩ := Tensor.exists_reshape hvolume
    refine ⟨v, bind_eq_ok.mpr ⟨_, hq, ?_⟩⟩
    simpa using hdata
  | unsqueeze axes =>
    obtain ⟨t, rfl, hrule⟩ := unary_operand h
    obtain ⟨shape, hs, -⟩ := inferUnsqueeze_eq_ok.mp hrule
    obtain ⟨sizes, hq, -⟩ := unsqueezeShape_operand hs
    obtain ⟨v, hdata⟩ := Tensor.exists_reshape (unsqueeze_volume hq)
    exact ⟨v, bind_eq_ok.mpr ⟨sizes, hq, hdata⟩⟩

/-- Where all shapes are known before run time, and the lists on which the shape of the result
depends, an operation that is accepted computes something of all tensors that the operands may stand
for. -/
theorem compute_of_infer (hop : op.IsDetermined) (hin : List.Forall₂ Tensor.Conforms vs operands)
    (hfixed : ∀ x ∈ operands, x.shape.isFixed = true)
    (hlists : ∀ i ∈ op.listPlaces, ∀ x, operands[i]? = some x → x.contents.isSome = true)
    (hfeeds : op.FeedsBest vs) (hcounts : op.CountsFit vs) (h : op.infer operands = .ok type) :
    ∃ v, op.compute vs = .ok v := by
  have hin := forall₂_and_right hin hfixed
  refine exists_compute_of_infer hop hfeeds hcounts (infer_operand ?_ (fun i hi => ?_) h)
  · exact hin.imp fun _ _ h => h.1.type_eq h.2
  · cases hx : operands[i]? with
    | none =>
      have hlen : vs.length ≤ i := hin.length_eq ▸ List.getElem?_eq_none_iff.mp hx
      rw [List.getElem?_eq_none hlen]
      rfl
    | some x =>
      obtain ⟨v, hv, hvx, hxf⟩ := getElem?_of_forall₂ hin.flip hx
      rw [hv, hvx.eq_operand hxf (hlists i hi x hx)]
      rfl

/-- The largest element of each of two rows, known to be of three elements each. -/
theorem compute_of_infer_rows :
    (reduce .max false).infer [⟨⟨.i64, .fixed [2, 3]⟩, none⟩,
      ⟨⟨.i64, .fixed [1]⟩, some (.ofInts [-1])⟩] = .ok ⟨.i64, .fixed [2]⟩ ∧
    ∃ v, (reduce .max false).compute [⟨.i64, [2, 3], #[4, 1, 3, 2, 2, 5], rfl⟩, .ofInts [-1]] =
      .ok v := by
  have hinfer : (reduce .max false).infer [⟨⟨.i64, .fixed [2, 3]⟩, none⟩,
      ⟨⟨.i64, .fixed [1]⟩, some (.ofInts [-1])⟩] = .ok ⟨.i64, .fixed [2]⟩ := by decide
  have hrows : Feeds false [1] [2, 3] := by
    intro o ho
    obtain ⟨i, rfl⟩ := List.length_eq_one_iff.mp ho.length_eq
    exact ⟨[i, 0], .cons (List.forall₂_cons.mp ho).1 (.cons (by decide) .nil), rfl⟩
  refine ⟨hinfer, compute_of_infer trivial ?_ (by decide) ?_
    (fun _ values positions hv hp => ?_) nofun hinfer⟩
  · refine .cons ⟨rfl, rfl, nofun⟩ (.cons ⟨rfl, rfl, ?_⟩ .nil)
    rintro known ⟨⟩
    rfl
  · intro i hi x hx
    obtain rfl := List.mem_singleton.mp hi
    obtain rfl := Option.some.inj hx
    rfl
  · obtain rfl : [-1] = values := Except.ok.inj (Eq.trans (by decide) hv)
    obtain rfl : [1] = positions := Except.ok.inj (Eq.trans (by decide) hp)
    exact hrows

end Op

end TensorLowering
