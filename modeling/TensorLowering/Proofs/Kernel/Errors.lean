import TensorLowering.Kernel.Blocks
import TensorLowering.Kernel.Elementwise
import TensorLowering.Kernel.Pad
import TensorLowering.Kernel.Reduce
import TensorLowering.Kernel.Scatter
import TensorLowering.Proofs.ElementType.Mean
import TensorLowering.Proofs.Shape.Positions

/-!
# Errors of kernels

What runs on elements fails with an error that one of its checks reports, or that a number has
overflowed (`Error.Checked`), and never with an access outside of the stored elements. For each kernel
one lemma says for which shapes and positions every access lies inside; those that write keep the
number of elements.
-/

namespace TensorLowering

/-- Not an error of an evaluation that asks for a value which is not there. -/
def Error.Local (e : Error) : Prop :=
  ∀ id, e ≠ .evaluation (.usedTooEarly id) ∧ e ≠ .evaluation (.notComputed id)

@[simp] theorem Error.local_iff {e : Error} : e.Local ↔
    ∀ id, e ≠ .evaluation (.usedTooEarly id) ∧ e ≠ .evaluation (.notComputed id) := Iff.rfl

/-- The causes that stop a program because a number has overflowed. -/
@[simp] def EvaluationError.Overflows : EvaluationError → Prop
  | elementOverflow shape => UInt64.size ≤ Shape.volume shape
  | meanDivision elements => 2147483648 ≤ elements
  | _ => False

/-- An error that a request can be answered with, or else that of a number that has overflowed. -/
structure Error.Checked (e : Error) : Prop where
  isLocal : e.Local
  overflows : ∀ cause, e = .evaluation cause → cause.stops = true → cause.Overflows

@[simp] theorem Error.checked_evaluation {cause : EvaluationError} :
    Error.Checked (.evaluation cause) ↔ Error.Local (.evaluation cause) ∧
      (cause.stops = true → cause.Overflows) :=
  ⟨fun h => ⟨h.isLocal, h.overflows cause rfl⟩,
    fun h => ⟨h.1, fun _ heq => Error.evaluation.inj heq ▸ h.2⟩⟩

@[simp] theorem Error.checked_iff {e : Error} : e.Checked ↔ e.Local ∧
    ∀ cause, e = .evaluation cause → cause.stops = true → cause.Overflows :=
  ⟨fun h => ⟨h.isLocal, h.overflows⟩, fun h => ⟨h.1, h.2⟩⟩

/-! ## Shapes -/

namespace Shape

@[simp] theorem resolveAxis_fails (axis : Int) (rank : Nat) :
    FailsOnly Error.Checked (resolveAxis axis rank) := by
  unfold resolveAxis
  split <;> simp

@[simp] theorem resolveAxes_fails (axes : List Int) (rank : Nat) :
    FailsOnly Error.Checked (resolveAxes axes rank) := by
  simp [resolveAxes]

@[simp] theorem resolveIndex_fails (index : Int) (size : Nat) :
    FailsOnly Error.Checked (resolveIndex index size) := by
  unfold resolveIndex
  split <;> simp

@[simp] theorem sizeOfInt_fails (value : Int) : FailsOnly Error.Checked (sizeOfInt value) := by
  simp [sizeOfInt]

@[simp] theorem paddedSize_fails (size : Nat) (before after : Int) :
    FailsOnly Error.Checked (paddedSize size before after) := by
  simp [paddedSize]

@[simp] theorem updatesShape_fails (data indices : List Nat) :
    FailsOnly Error.Checked (updatesShape data indices) := by
  unfold updatesShape
  split <;> simp

@[simp] theorem broadcastPartial_fails (left right : List (Option Nat)) :
    FailsOnly Error.Checked (broadcastPartial left right) := by
  refine failsOnly_mapM fun pair _ => ?_
  dsimp only
  split <;> simp

@[simp] theorem broadcast_fails (left right : List Nat) :
    FailsOnly Error.Checked (broadcast left right) := by
  simp [broadcast]

@[simp] theorem squeeze_fails (dims : List (Option Nat)) (axes : List Int) :
    FailsOnly Error.Checked (squeeze dims axes) := by
  simp only [squeeze, List.isEmpty_iff, pure_eq_ok, failsOnly_ite, failsOnly_ok, failsOnly_bind,
    resolveAxes_fails, implies_true, true_and, and_true]
  intro _ positions _
  refine failsOnly_forM fun axis _ => ?_
  split <;> simp

@[simp] theorem unsqueeze_fails {α : Type} (one : α) (dims : List α) (axes : List Int) :
    FailsOnly Error.Checked (unsqueeze one dims axes) := by
  simp [unsqueeze]

@[simp] theorem readTarget_fails (data : Option (List (Option Nat))) (specialZero : Bool)
    (axis : Nat) (inferred : Bool) (target : List Int) :
    FailsOnly Error.Checked (readTarget data specialZero axis inferred target) := by
  fun_induction readTarget data specialZero axis inferred target <;> simp_all

@[simp] theorem reshape_fails (data : Option (List (Option Nat))) (target : List Int)
    (specialZero : Bool) : FailsOnly Error.Checked (reshape data target specialZero) := by
  refine failsOnly_bind.mpr ⟨readTarget_fails .., fun entries _ => ?_⟩
  dsimp only
  split <;> simp

end Shape

/-! ## Kernels -/

namespace Kernel

variable {α β γ : Type}

/-! ### Access -/

theorem exists_read {data : Array α} {position : Nat} (h : position < data.size) :
    ∃ x, read data position = .ok x :=
  ⟨data[position], by rw [read, Array.getElem?_eq_getElem h]⟩

theorem read_fails {data : Array α} {position : Nat} (h : position < data.size) :
    FailsOnly Error.Checked (read data position) := by
  obtain ⟨x, hx⟩ := exists_read h
  rw [hx]
  exact failsOnly_ok x

theorem readBlock_fails {data : Array α} {start length : Nat} (h : start + length ≤ data.size) :
    FailsOnly Error.Checked (readBlock data start length) := by
  rw [readBlock, if_pos h]
  exact failsOnly_ok _

theorem length_readBlock {data : Array α} {start length : Nat} {block : List α}
    (h : readBlock data start length = .ok block) : block.length = length := by
  unfold readBlock at h
  split at h
  · rw [← Except.ok.inj h]
    simp only [Array.length_toList, Array.size_extract]
    omega
  · cases h

theorem writeBlock_fails {data : Array α} {start : Nat} {block : List α}
    (h : start + block.length ≤ data.size) :
    FailsOnly Error.Checked (writeBlock data start block) := by
  rw [writeBlock, if_pos h]
  exact failsOnly_ok _

theorem size_writeBlock {data written : Array α} {start : Nat} {block : List α}
    (h : writeBlock data start block = .ok written) : written.size = data.size := by
  unfold writeBlock at h
  split at h
  · rw [← Except.ok.inj h]
    simp only [Array.size_append, Array.size_extract, List.size_toArray]
    omega
  · cases h

/-! ### Slices -/

theorem gather_fails {shape : List Nat} {axis : Nat} {indices : List Nat} {data : Array α}
    (hd : data.size = Shape.volume shape) (ha : axis < shape.length)
    (hi : ∀ i ∈ indices, i < shape.getD axis 0) :
    FailsOnly Error.Checked (gather shape axis indices data) := by
  refine failsOnly_bind.mpr ⟨failsOnly_mapM fun o ho => failsOnly_mapM fun i hmem => ?_,
    fun rows _ => failsOnly_ok _⟩
  refine readBlock_fails ?_
  rw [hd, Shape.volume_split ha]
  exact Shape.nested_block_le (List.mem_range.mp ho) (hi i hmem) _

theorem concat_fails {axis : Nat} {first : List Nat} {parts : List (List Nat × Array α)}
    (h : ∀ part ∈ parts, part.2.size = Shape.volume part.1 ∧
      part.1.take axis = first.take axis) :
    FailsOnly Error.Checked (concat axis first parts) := by
  refine failsOnly_bind.mpr ⟨failsOnly_mapM fun o ho => failsOnly_mapM fun part hpart => ?_,
    fun rows _ => failsOnly_ok _⟩
  obtain ⟨hsize, htake⟩ := h part hpart
  refine readBlock_fails ?_
  rw [hsize, ← Shape.volume_take_mul_drop part.1 axis, htake]
  exact Shape.block_le (List.mem_range.mp ho) _

/-! ### Elementwise -/

theorem spread_fails {source result : List Nat} {data : Array α}
    (hd : data.size = Shape.volume source) (hf : Shape.Fits source result) :
    FailsOnly Error.Checked (spread source result data) := by
  refine failsOnly_mapM fun position hp => read_fails ?_
  obtain ⟨c, hc, rfl⟩ := List.mem_map.mp hp
  rw [hd]
  exact Shape.broadcastPosition_lt hf (Shape.within_of_mem_walk hc)

theorem zipBroadcast_fails (f : α → β → γ) {left right result : List Nat} {xs : Array α}
    {ys : Array β} (hx : xs.size = Shape.volume left) (hy : ys.size = Shape.volume right)
    (hf : Shape.broadcast left right = .ok result) :
    FailsOnly Error.Checked (zipBroadcast f left right result xs ys) := by
  obtain ⟨hl, hr⟩ := Shape.fits_of_broadcast hf
  simp [zipBroadcast, spread_fails hx hl, spread_fails hy hr]

theorem choose_fails {condition left right result : List Nat} {cs : Array Bool} {xs ys : Array α}
    (hc : cs.size = Shape.volume condition) (hx : xs.size = Shape.volume left)
    (hy : ys.size = Shape.volume right) (hfc : Shape.Fits condition result)
    (hfl : Shape.Fits left result) (hfr : Shape.Fits right result) :
    FailsOnly Error.Checked (choose condition left right result cs xs ys) := by
  simp [choose, spread_fails hc hfc, spread_fails hx hfl, spread_fails hy hfr]

/-! ### Padding -/

@[simp] theorem padSource_fails (mode : PadMode) (axis : Nat) (sizes strides : List Nat)
    (before : List Int) (coordinate : List Nat) :
    FailsOnly Error.Checked (padSource mode axis sizes strides before coordinate) := by
  fun_induction padSource mode axis sizes strides before coordinate <;> simp_all

@[simp] theorem padSources_fails (mode : PadMode) (shape : List Nat) (before : List Int)
    (result : List Nat) : FailsOnly Error.Checked (padSources mode shape before result) := by
  simp [padSources]

/-- A position of the data that padding reads is one: on every axis the coordinate was compared
with the size. -/
theorem padSource_lt {mode : PadMode} {axis : Nat} {sizes : List Nat} {before : List Int}
    {coordinate : List Nat} {position : Nat} (hb : before.length = sizes.length)
    (hc : coordinate.length = sizes.length)
    (h : padSource mode axis sizes (Shape.strides sizes) before coordinate = .ok (some position)) :
    position < Shape.volume sizes := by
  induction sizes generalizing axis before coordinate position with
  | nil =>
    obtain rfl := Option.some.inj (Except.ok.inj h)
    exact Nat.one_pos
  | cons size sizes ih =>
    obtain ⟨b, before, rfl⟩ := List.exists_cons_of_length_eq_add_one hb
    obtain ⟨c, coordinate, rfl⟩ := List.exists_cons_of_length_eq_add_one hc
    simp only [Shape.strides, padSource] at h
    split at h
    · cases h
    · rename_i i _
      split at h
      · rename_i hi
        obtain ⟨later, hl, h⟩ := bind_eq_ok.mp h
        obtain ⟨p, rfl, rfl⟩ := Option.map_eq_some_iff.mp (Except.ok.inj h)
        have hp := ih (Nat.succ.inj hb) (Nat.succ.inj hc) hl
        have hsize := Shape.signedSize_le size
        have hlt : i.toNat < size := by omega
        exact Nat.lt_of_lt_of_le (Nat.add_lt_add_left hp _) (Shape.block_le hlt _)
      · cases h

theorem padSources_lt {mode : PadMode} {shape result : List Nat} {before : List Int}
    {plan : List (Option Nat)} {position : Nat} (hb : before.length = shape.length)
    (hr : result.length = shape.length) (h : padSources mode shape before result = .ok plan)
    (hp : some position ∈ plan) : position < Shape.volume shape := by
  obtain ⟨c, hc, hread⟩ := exists_of_forall₂_right (mapM_eq_ok.mp h) hp
  exact padSource_lt hb ((Shape.within_of_mem_walk hc).length_eq.trans hr) hread

/-! ### Reducing -/

theorem exists_deal {groups : Array (Array α)} {number : Nat} (x : α) (h : number < groups.size) :
    ∃ dealt, deal groups number x = .ok dealt ∧ dealt.size = groups.size :=
  ⟨_, if_pos h, Array.size_modify⟩

theorem groupNumber_lt {axes shape : List Nat} {number : Nat}
    (h : number ∈ groupNumbers axes shape) : number < Shape.volume (groupShape axes shape) := by
  obtain ⟨c, hc, rfl⟩ := List.mem_map.mp h
  exact Shape.position_lt (Shape.within_collapse axes (Shape.within_of_mem_walk hc))

/-- Dealing never fails, and keeps the number of groups. -/
theorem exists_groups (axes shape : List Nat) (data : Array α) : ∃ filled,
    groups axes shape data = .ok filled ∧ filled.size = Shape.volume (groupShape axes shape) := by
  unfold groups
  refine exists_foldlM_eq_ok (fun filled dealt hsize hd => ?_) Array.size_replicate
  have hnumber := groupNumber_lt (List.of_mem_zip hd).1
  obtain ⟨filled', hdeal, hsize'⟩ := exists_deal dealt.2 (hsize ▸ hnumber)
  exact ⟨filled', hdeal, hsize'.trans hsize⟩

theorem groups_fails (axes shape : List Nat) (data : Array α) :
    FailsOnly Error.Checked (groups axes shape data) := by
  obtain ⟨filled, hfilled, -⟩ := exists_groups axes shape data
  rw [hfilled]
  exact failsOnly_ok _

theorem combine_fails {e : ElementType} {a : Arithmetic e.Carrier} (ha : e.arithmetic? = some a)
    (kind : ReduceKind) (xs : List e.Carrier) : FailsOnly Error.Checked (combine a kind xs) := by
  have hnone {cause : EvaluationError} {value : Option e.Carrier}
      (hcause : value = none → Error.Checked (.evaluation cause)) :
      FailsOnly Error.Checked (combine.orError cause value) := by
    cases value with
    | none => exact failsOnly_error.mpr (hcause rfl)
    | some x => exact failsOnly_ok x
  cases kind with
  | sum | prod | l2 | logicalAnd | logicalOr => simp [combine]
  | mean => exact hnone fun h => by simpa using ElementType.le_of_divideByCount_eq_none ha h
  | min | max => exact hnone fun _ => by simp

/-! ### Scattering -/

@[simp] theorem rowOffset_fails (row : List Int) (sizes strides : List Nat) :
    FailsOnly Error.Checked (rowOffset row sizes strides) := by
  fun_induction rowOffset row sizes strides <;> simp_all

/-- The slice that a row addresses lies inside the data. -/
theorem rowOffset_le {row : List Int} {sizes : List Nat} {offset : Nat}
    (hlen : row.length ≤ sizes.length)
    (h : rowOffset row sizes (Shape.strides sizes) = .ok offset) :
    offset + Shape.volume (sizes.drop row.length) ≤ Shape.volume sizes := by
  induction row generalizing sizes offset with
  | nil =>
    obtain rfl : 0 = offset := Except.ok.inj h
    simp
  | cons index row ih =>
    cases sizes with
    | nil => simp at hlen
    | cons size sizes =>
      simp only [Shape.strides, rowOffset, bind_eq_ok, pure_eq_ok, Except.ok.injEq] at h
      obtain ⟨i, hi, rest, hrest, rfl⟩ := h
      have hle := ih (Nat.le_of_succ_le_succ hlen) hrest
      calc i * Shape.volume sizes + rest + Shape.volume (sizes.drop row.length)
          ≤ i * Shape.volume sizes + Shape.volume sizes := by omega
        _ ≤ size * Shape.volume sizes := Shape.block_le (Shape.resolveIndex_lt hi) _

theorem rowOffsets_fails {shape : List Nat} {count depth : Nat} {indices : Array Int}
    (h : indices.size = count * depth) :
    FailsOnly Error.Checked (rowOffsets shape count depth indices) := by
  refine failsOnly_mapM fun r hr => failsOnly_bind.mpr ⟨readBlock_fails ?_, fun row _ => ?_⟩
  · rw [h]
    exact Shape.block_le (List.mem_range.mp hr) _
  · exact rowOffset_fails ..

theorem length_rowOffsets {shape : List Nat} {count depth : Nat} {indices : Array Int}
    {offsets : List Nat} (h : rowOffsets shape count depth indices = .ok offsets) :
    offsets.length = count := by
  rw [← (mapM_eq_ok.mp h).length_eq, List.length_range]

theorem rowOffsets_le {shape : List Nat} {count depth : Nat} {indices : Array Int}
    {offsets : List Nat} (hd : depth ≤ shape.length)
    (h : rowOffsets shape count depth indices = .ok offsets) {offset : Nat} (ho : offset ∈ offsets) :
    offset + Shape.volume (shape.drop depth) ≤ Shape.volume shape := by
  obtain ⟨r, -, hr⟩ := exists_of_forall₂_right (mapM_eq_ok.mp h) ho
  obtain ⟨row, hrow, hr⟩ := bind_eq_ok.mp hr
  have hlen := length_readBlock hrow
  rw [← hlen]
  exact rowOffset_le (hlen ▸ hd) hr

/-- Writing keeps the number of elements. -/
theorem scatter_fails {data updates : Array α} {offsets : List Nat}
    (h : ∀ offset ∈ offsets, offset + updates.size / offsets.length ≤ data.size) :
    FailsOnly Error.Checked (scatter data updates offsets) := by
  unfold scatter
  dsimp only
  generalize hl : updates.size / offsets.length = length at h ⊢
  refine failsOnly_foldlM_of (Q := fun written : Array α => written.size = data.size)
    (fun written hsize row hrow => ?_) rfl
  obtain ⟨-, hr, hmem⟩ := List.mem_zipIdx hrow
  have hwrite : row.1 + length ≤ data.size := h _ (hmem ▸ List.getElem_mem _)
  have hread : row.2 * length + length ≤ updates.size :=
    calc row.2 * length + length
        ≤ offsets.length * length := Shape.block_le (by omega) _
      _ ≤ updates.size := by rw [← hl]; exact Nat.mul_div_le ..
  refine ⟨failsOnly_bind.mpr ⟨readBlock_fails hread, fun block hb => writeBlock_fails ?_⟩,
    fun written' hw => ?_⟩
  · rw [length_readBlock hb, hsize]
    exact hwrite
  · obtain ⟨block, -, hw⟩ := bind_eq_ok.mp hw
    exact (size_writeBlock hw).trans hsize

end Kernel

end TensorLowering
