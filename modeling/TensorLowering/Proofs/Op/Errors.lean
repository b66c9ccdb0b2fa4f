import TensorLowering.Op.Compute
import TensorLowering.Proofs.Kernel.Errors
import TensorLowering.Proofs.Op.Refinement
import TensorLowering.Proofs.Shape.RowMajor

/-!
# Errors of computing

Computing an operation ends with an error that one of its checks reports, or that a number has
overflowed: never with one about the order of an evaluation, and never with an access outside of the
stored elements. Each lemma about a function on tensors derives from the checks that it makes what the
kernel needs.

The one exception is a padding that takes its fill value from a tensor without elements
(`Op.LacksFill`); `compute_fails` says so.
-/

namespace TensorLowering

/-! ## Tensors -/

namespace Tensor

@[simp] theorem ofData_fails (elementType : ElementType) (shape : List Nat)
    (data : Array elementType.Carrier) : FailsOnly Error.Checked (ofData elementType shape data) := by
  unfold ofData
  split
  · simp
  rename_i hsize
  split
  · rename_i hword
    have hover : UInt64.size ≤ Shape.volume shape :=
      Nat.le_of_not_lt fun hlt => hsize (hword.trans (Word.unsigned_eq hlt))
    simp [hover]
  · simp

@[simp] theorem reshape_fails (t : Tensor) (shape : List Nat) :
    FailsOnly Error.Checked (t.reshape shape) :=
  ofData_fails ..

@[simp] theorem ints_fails (t : Tensor) : FailsOnly Error.Checked t.ints := by
  obtain ⟨e, shape, data, h⟩ := t
  cases e <;> simp [ints]

@[simp] theorem dataAs_fails (t : Tensor) (e : ElementType) :
    FailsOnly Error.Checked (t.dataAs e) := by
  unfold dataAs
  split <;> simp

/-- A tensor that is read as of some type is of that type. -/
theorem eq_of_dataAs {t : Tensor} {e : ElementType} {data : Array e.Carrier}
    (h : t.dataAs e = .ok data) : ∃ shape hsize, t = ⟨e, shape, data, hsize⟩ := by
  obtain ⟨e', shape, elements, hsize⟩ := t
  simp only [dataAs, dataAs?] at h
  split at h
  · rename_i hdata
    split at hdata
    · rename_i he
      subst he
      obtain rfl := Option.some.inj hdata
      obtain rfl := Except.ok.inj h
      exact ⟨shape, hsize, rfl⟩
    · cases hdata
  · cases h

theorem size_dataAs {t : Tensor} {e : ElementType} {data : Array e.Carrier}
    (h : t.dataAs e = .ok data) : data.size = Shape.volume t.shape := by
  obtain ⟨_, hsize, rfl⟩ := eq_of_dataAs h
  exact hsize

theorem size_dataAs? {t : Tensor} {e : ElementType} {data : Array e.Carrier}
    (h : t.dataAs? e = some data) : data.size = Shape.volume t.shape :=
  size_dataAs (by rw [dataAs, h])

@[simp] theorem gather_fails (axis : Int) (data indices : Tensor) :
    FailsOnly Error.Checked (gather axis data indices) := by
  refine failsOnly_bind.mpr ⟨Shape.resolveAxis_fails .., fun a ha => ?_⟩
  refine failsOnly_bind.mpr ⟨ints_fails _, fun values _ => ?_⟩
  refine failsOnly_bind.mpr ⟨failsOnly_mapM fun i _ => Shape.resolveIndex_fails .., fun named hn => ?_⟩
  refine failsOnly_bind.mpr ⟨Kernel.gather_fails data.size_data (Shape.resolveAxis_lt ha) ?_,
    fun elements _ => ofData_fails ..⟩
  intro i hi
  obtain ⟨value, -, hv⟩ := exists_of_forall₂_right (mapM_eq_ok.mp hn) hi
  exact Shape.resolveIndex_lt hv

/-- Shapes that agree off the axis agree before it. -/
theorem take_of_matchShapes {axis : Nat} {first other : List Nat}
    (h : matchShapes axis first other = .ok ()) : other.take axis = first.take axis := by
  unfold matchShapes at h
  split at h
  · rename_i hm
    have htake (shape : List Nat) : (shape.eraseIdx axis).take axis = shape.take axis := by
      refine List.ext_getElem? fun i => ?_
      simp only [List.getElem?_take, List.getElem?_eraseIdx]
      split <;> rfl
    rw [← htake other, hm.2, htake]
  · cases h

@[simp] theorem concat_fails (axis : Int) (first : Tensor) (others : List Tensor) :
    FailsOnly Error.Checked (concat axis first others) := by
  refine failsOnly_bind.mpr ⟨Shape.resolveAxis_fails .., fun a _ => ?_⟩
  refine failsOnly_bind.mpr ⟨failsOnly_forM fun other _ => ?_, fun _ hmatch => ?_⟩
  · simp [matchShapes]
  refine failsOnly_bind.mpr ⟨failsOnly_mapM fun part _ => ?_, fun parts hparts => ?_⟩
  · simp
  refine failsOnly_bind.mpr ⟨Kernel.concat_fails fun part hpart => ?_, fun _ _ => ofData_fails ..⟩
  obtain ⟨t, ht, hdata⟩ := exists_of_forall₂_right (mapM_eq_ok.mp hparts) hpart
  simp only [bind_eq_ok, pure_eq_ok, Except.ok.injEq] at hdata
  obtain ⟨data, hdata, rfl⟩ := hdata
  refine ⟨size_dataAs hdata, ?_⟩
  rcases List.mem_cons.mp ht with rfl | ht
  · rfl
  · exact take_of_matchShapes (forM_eq_ok.mp hmatch t ht)

@[simp] theorem arithmetic_fails (operation : {α : Type} → Arithmetic α → α → α → α)
    (x y : Tensor) : FailsOnly Error.Checked (arithmetic operation x y) := by
  refine failsOnly_bind.mpr ⟨Shape.broadcast_fails .., fun shape hs => ?_⟩
  split
  · simp
  · refine failsOnly_bind.mpr ⟨dataAs_fails .., fun ys hy => ?_⟩
    simp [Kernel.zipBroadcast_fails _ x.size_data (size_dataAs hy) hs]

@[simp] theorem less_fails (x y : Tensor) : FailsOnly Error.Checked (less x y) := by
  refine failsOnly_bind.mpr ⟨Shape.broadcast_fails .., fun shape hs => ?_⟩
  split
  · simp
  · refine failsOnly_bind.mpr ⟨dataAs_fails .., fun ys hy => ?_⟩
    simp [Kernel.zipBroadcast_fails _ x.size_data (size_dataAs hy) hs]

@[simp] theorem mapFloat_fails (operation : {α : Type} → Trigonometry α → α → α) (x : Tensor) :
    FailsOnly Error.Checked (mapFloat operation x) := by
  unfold mapFloat
  split <;> simp

@[simp] theorem atan2_fails (y x : Tensor) : FailsOnly Error.Checked (atan2 y x) := by
  refine failsOnly_bind.mpr ⟨Shape.broadcast_fails .., fun shape hs => ?_⟩
  split
  · simp
  · refine failsOnly_bind.mpr ⟨dataAs_fails .., fun xs hx => ?_⟩
    simp [Kernel.zipBroadcast_fails _ y.size_data (size_dataAs hx) hs]

@[simp] theorem select_fails (condition x y : Tensor) :
    FailsOnly Error.Checked (select condition x y) := by
  unfold select
  split
  · simp
  rename_i cs hcs
  refine failsOnly_bind.mpr ⟨Shape.broadcast_fails .., fun inner hi => ?_⟩
  refine failsOnly_bind.mpr ⟨Shape.broadcast_fails .., fun shape hs => ?_⟩
  refine failsOnly_bind.mpr ⟨dataAs_fails .., fun ys hy => ?_⟩
  obtain ⟨hci, hxi⟩ := Shape.fits_of_broadcast hi
  obtain ⟨his, hys⟩ := Shape.fits_of_broadcast hs
  simp [Kernel.choose_fails (size_dataAs? hcs) x.size_data (size_dataAs hy) (hci.trans his)
    (hxi.trans his) hys]

@[simp] theorem targetSize_fails (size : Int) : FailsOnly Error.Checked (targetSize size) := by
  simp [targetSize]

@[simp] theorem broadcast_fails (x target : Tensor) :
    FailsOnly Error.Checked (broadcast x target) := by
  refine failsOnly_bind.mpr ⟨ints_fails _, fun values _ => ?_⟩
  refine failsOnly_bind.mpr ⟨failsOnly_mapM fun _ _ => targetSize_fails _, fun sizes _ => ?_⟩
  refine failsOnly_bind.mpr ⟨Shape.broadcast_fails .., fun shape hs => ?_⟩
  simp [Kernel.spread_fails x.size_data (Shape.fits_of_broadcast hs).1]

@[simp] theorem paddedShape_fails (sizes : List Nat) (before after : List Int) :
    FailsOnly Error.Checked (paddedShape sizes before after) := by
  fun_induction paddedShape sizes before after <;> simp_all

theorem length_paddedShape {sizes shape : List Nat} {before after : List Int}
    (hb : before.length = sizes.length) (ha : after.length = sizes.length)
    (h : paddedShape sizes before after = .ok shape) : shape.length = sizes.length := by
  induction sizes generalizing before after shape with
  | nil =>
    obtain rfl := Except.ok.inj h
    rfl
  | cons size sizes ih =>
    obtain ⟨b, before, rfl⟩ := List.exists_cons_of_length_eq_add_one hb
    obtain ⟨a, after, rfl⟩ := List.exists_cons_of_length_eq_add_one ha
    simp only [paddedShape, bind_eq_ok, pure_eq_ok, Except.ok.injEq] at h
    obtain ⟨padded, -, rest, hrest, rfl⟩ := h
    rw [List.length_cons, List.length_cons, ih (Nat.succ.inj hb) (Nat.succ.inj ha) hrest]

/-- One element for each place of a shape, all of which can be read, are a tensor. -/
theorem mapM_ofData_ne_error {α : Type} {e : ElementType} {shape : List Nat} {sources : List α}
    {f : α → Except Error e.Carrier} {error : Error} (hcount : sources.length = Shape.volume shape)
    (h : ∀ source ∈ sources, ∃ x, f source = .ok x) :
    (sources.mapM f >>= fun xs => ofData e shape xs.toArray) ≠ .error error := by
  obtain ⟨elements, helements⟩ := exists_mapM_eq_ok.mpr h
  have hsize : elements.toArray.size = Shape.volume shape := by
    rw [List.size_toArray, ← (mapM_eq_ok.mp helements).length_eq, hcount]
  rw [helements, ok_bind, ofData_eq_ok.mpr ⟨hsize, rfl⟩]
  exact nofun

/-- A padding that has passed its checks fails exactly if it has an element to make and no fill value:
that is read even for an element which the data has. -/
theorem pad_eq_error {mode : PadMode} {data before after : Tensor} {fill : Option Tensor}
    {bs as : List Int} {shape : List Nat} {plan : List (Option Nat)}
    {fillData : Array data.elementType.Carrier} {error : Error} (hb : before.ints = .ok bs)
    (ha : after.ints = .ok as) (hlb : bs.length = data.rank) (hla : as.length = data.rank)
    (hs : paddedShape data.shape bs as = .ok shape)
    (hplan : Kernel.padSources mode data.shape bs shape = .ok plan)
    (hfill : (fill.getD (zero data.elementType)).dataAs data.elementType = .ok fillData) :
    pad mode data before after fill = .error error ↔
      error = .evaluation (.outOfRange 0 0) ∧ fillData.size = 0 ∧ Shape.volume shape ≠ 0 := by
  have hlengths : ¬(bs.length ≠ data.rank ∨ as.length ≠ data.rank) := by simp [hlb, hla]
  have hcount : plan.length = Shape.volume shape := by
    rw [← (mapM_eq_ok.mp hplan).length_eq, Shape.length_walk]
  simp only [pad, hb, ha, ok_bind, if_neg hlengths, hs, hplan, hfill]
  by_cases hsize : fillData.size = 0
  · obtain rfl := Array.eq_empty_of_size_eq_zero hsize
    cases plan with
    | nil => exact iff_of_false (mapM_ofData_ne_error hcount nofun) fun h => h.2.2 hcount.symm
    | cons source plan =>
      have hvolume : Shape.volume shape ≠ 0 := by rw [← hcount]; exact Nat.succ_ne_zero _
      rw [List.mapM_cons, Kernel.read]
      simp only [List.getElem?_toArray, List.getElem?_nil, error_bind]
      rw [Except.error.injEq, eq_comm]
      exact (and_iff_left ⟨rfl, hvolume⟩).symm
  · refine iff_of_false (mapM_ofData_ne_error hcount fun source hsource => ?_) fun h => hsize h.2.1
    obtain ⟨filled, hfilled⟩ := Kernel.exists_read (Nat.pos_of_ne_zero hsize)
    rw [hfilled, ok_bind]
    cases source with
    | none => exact ⟨filled, rfl⟩
    | some position =>
      have hrank := length_paddedShape hlb hla hs
      exact Kernel.exists_read (data.size_data ▸ Kernel.padSources_lt hlb hrank hplan hsource)

/-- Every access of a padding lies inside, but the one to a fill value that is not there. -/
theorem pad_fails (mode : PadMode) (data before after : Tensor) (fill : Option Tensor) :
    FailsOnly (fun e => e.Checked ∨ e = .evaluation (.outOfRange 0 0) ∧
      ∃ f, fill = some f ∧ f.data.size = 0) (pad mode data before after fill) := by
  refine ⟨fun error herror => ?_⟩
  have hpad := herror
  unfold pad at hpad
  rcases bind_eq_error.mp hpad with h | ⟨bs, hb, hpad⟩
  · exact .inl ((ints_fails _).of_error _ h)
  rcases bind_eq_error.mp hpad with h | ⟨as, ha, hpad⟩
  · exact .inl ((ints_fails _).of_error _ h)
  dsimp only at hpad
  split at hpad
  · exact .inl (Except.error.inj hpad ▸ by simp)
  rename_i hlen
  obtain ⟨hlb, hla⟩ := not_or.mp hlen
  rcases bind_eq_error.mp hpad with h | ⟨shape, hs, hpad⟩
  · exact .inl ((paddedShape_fails ..).of_error _ h)
  rcases bind_eq_error.mp hpad with h | ⟨plan, hplan, hpad⟩
  · exact .inl ((Kernel.padSources_fails ..).of_error _ h)
  rcases bind_eq_error.mp hpad with h | ⟨fillData, hfill, -⟩
  · exact .inl ((dataAs_fails ..).of_error _ h)
  obtain ⟨rfl, hsize, -⟩ :=
    (pad_eq_error hb ha (not_not.mp hlb) (not_not.mp hla) hs hplan hfill).mp herror
  refine .inr ⟨rfl, ?_⟩
  have hvolume := (size_dataAs hfill).symm.trans hsize
  cases fill with
  | none => cases hvolume
  | some f => exact ⟨f, rfl, f.size_data.trans hvolume⟩

@[simp] theorem reduce_fails (kind : ReduceKind) (keepDims : Bool) (data axes : Tensor) :
    FailsOnly Error.Checked (reduce kind keepDims data axes) := by
  unfold reduce
  refine failsOnly_bind.mpr ⟨ints_fails _, fun values _ => ?_⟩
  refine failsOnly_bind.mpr ⟨Shape.resolveAxes_fails .., fun axes _ => ?_⟩
  dsimp only
  split
  · split <;> simp [Kernel.groups_fails]
  · split
    · simp
    · rename_i a ha
      simp [Kernel.groups_fails, Kernel.combine_fails ha]

@[simp] theorem scatter_fails (data indices updates : Tensor) :
    FailsOnly Error.Checked (scatter data indices updates) := by
  refine failsOnly_bind.mpr ⟨Shape.updatesShape_fails .., fun expected hexp => ?_⟩
  dsimp only
  split
  · simp
  rename_i hshape
  obtain rfl := not_not.mp hshape
  obtain ⟨depth, hlast, hdepth, hupdates⟩ := Shape.updatesShape_eq_ok.mp hexp
  rw [List.getLastD_eq_getLast?, hlast, Option.getD_some]
  refine failsOnly_bind.mpr ⟨ints_fails _, fun values hv => ?_⟩
  refine failsOnly_bind.mpr ⟨Kernel.rowOffsets_fails ?_, fun offsets ho => ?_⟩
  · rw [List.size_toArray, length_ints hv]
    exact Shape.volume_of_getLast? hlast
  refine failsOnly_bind.mpr ⟨dataAs_fails .., fun elements he => ?_⟩
  refine failsOnly_bind.mpr ⟨Kernel.scatter_fails fun offset hoff => ?_, fun _ _ => ofData_fails ..⟩
  have hcount := Kernel.length_rowOffsets ho
  have hpos : 0 < offsets.length := List.length_pos_of_mem hoff
  rw [size_dataAs he, hupdates, Shape.volume_append, ← hcount, Nat.mul_div_cancel_left _ hpos,
    data.size_data]
  exact Kernel.rowOffsets_le hdepth ho hoff

@[simp] theorem reshapeTo_fails (specialZero : Bool) (data target : Tensor) :
    FailsOnly Error.Checked (reshapeTo specialZero data target) := by
  refine failsOnly_bind.mpr ⟨ints_fails _, fun values _ => ?_⟩
  refine failsOnly_bind.mpr ⟨Shape.reshape_fails .., fun dims _ => ?_⟩
  split <;> simp

@[simp] theorem squeeze_fails (axes : List Int) (data : Tensor) :
    FailsOnly Error.Checked (squeeze axes data) := by
  simp [squeeze]

@[simp] theorem unsqueeze_fails (axes : List Int) (data : Tensor) :
    FailsOnly Error.Checked (unsqueeze axes data) := by
  simp [unsqueeze]

end Tensor

/-! ## Operations -/

namespace Op

variable {α β : Type}

@[simp] theorem unary_fails (op : Op) (operands : List α) {next : α → Except Error β}
    (h : ∀ x, FailsOnly Error.Checked (next x)) :
    FailsOnly Error.Checked (op.unary operands next) := by
  unfold unary
  split <;> simp [h]

@[simp] theorem binary_fails (op : Op) (operands : List α) {next : α → α → Except Error β}
    (h : ∀ x y, FailsOnly Error.Checked (next x y)) :
    FailsOnly Error.Checked (op.binary operands next) := by
  unfold binary
  split <;> simp [h]

@[simp] theorem ternary_fails (op : Op) (operands : List α) {next : α → α → α → Except Error β}
    (h : ∀ x y z, FailsOnly Error.Checked (next x y z)) :
    FailsOnly Error.Checked (op.ternary operands next) := by
  unfold ternary
  split <;> simp [h]

/-- The operation pads, and takes the fill value from a tensor without elements. -/
def LacksFill (op : Op) (inputs : List Tensor) : Prop :=
  ∃ mode data before after fill, op = .pad mode ∧ inputs = [data, before, after, fill] ∧
    fill.data.size = 0

/-- Computing fails with an error that a check reports, unless it lacks the fill value that it
reads. -/
theorem compute_fails (op : Op) (inputs : List Tensor) :
    FailsOnly (fun e => e.Checked ∨ e = .evaluation (.outOfRange 0 0) ∧ op.LacksFill inputs)
      (op.compute inputs) := by
  by_cases hpad : ∃ mode, op = .pad mode
  · obtain ⟨mode, rfl⟩ := hpad
    dsimp only [compute]
    split
    · refine (Tensor.pad_fails ..).imp fun e he => he.imp_right ?_
      rintro ⟨-, f, hf, -⟩
      cases hf
    · refine (Tensor.pad_fails ..).imp fun e he => he.imp_right ?_
      rintro ⟨rfl, f, hf, hsize⟩
      obtain rfl := Option.some.inj hf
      exact ⟨rfl, mode, _, _, _, _, rfl, rfl, hsize⟩
    · simp
  · refine FailsOnly.imp (P := Error.Checked) ?_ fun e => .inl
    cases op with
    | concat axis => cases inputs <;> simp [compute]
    | pad mode => exact absurd ⟨mode, rfl⟩ hpad
    | _ => simp [compute]

end Op

end TensorLowering
