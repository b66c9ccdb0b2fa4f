import TensorLowering.Proofs.Op.Acceptance
import TensorLowering.Proofs.Shape.Alignment
import TensorLowering.Proofs.Tensor.Broadcast
import TensorLowering.Proofs.Tensor.Scatter

/-!
# Operations coordinate by coordinate

Sums, differences, products, comparisons, angles and selections are tables of what the operation
gives on the elements of the operands, each spread over the shape of the result (`Spreads`), and
broadcasting is that spreading alone (`broadcasting_elementwise`). The kernels spread each operand on
its own (`Kernel.spread_of_spreads`), so what is left for each operation is its rule for the shape
and the types.
-/

namespace TensorLowering

open Shape

namespace Tensor

/-- Spread over `result`, the tensor has the elements `f`: the element at a coordinate is read
without the leading axes that the tensor lacks, and at zero on its axes of size 1. Nothing outside
the tensor is read. -/
structure Spreads (x : Tensor) (result : List Nat) (e : ElementType) (f : List Nat → e.Carrier) :
    Prop where
  entries : ∃ g, x = tabulate e x.shape g ∧ ∀ c, Within c result →
    Within (clamp x.shape c) x.shape ∧ f c = g (clamp x.shape c)
  inside : ∀ i ∈ broadcastPositions x.shape result, i < x.data.size

variable {e e' : ElementType} {x y v : Tensor} {result : List Nat}

theorem exists_spreads (he : x.elementType = e) (h : Fits x.shape result) :
    ∃ f, x.Spreads result e f := by
  subst he
  refine ⟨fun c => x.entry (clamp x.shape c), ⟨x.entry, (tabulate_entry x).symm,
    fun c hc => ⟨within_clamp h hc, rfl⟩⟩, fun i hi => ?_⟩
  obtain ⟨c, hc, rfl⟩ := List.mem_map.mp hi
  rw [x.size_data]
  exact broadcastPosition_lt h (mem_walk.mp hc)

theorem Spreads.elementType_eq {f : List Nat → e.Carrier} (h : x.Spreads result e f) :
    x.elementType = e := by
  obtain ⟨⟨g, hx, -⟩, -⟩ := h
  exact congrArg elementType hx

/-- The kernels read the elements that a spread tensor has. -/
theorem Spreads.spread {f : List Nat → e.Carrier} (h : x.Spreads result e f)
    (hfits : Fits x.shape result) : ∃ data, x.dataAs? e = some data ∧
      Kernel.spread x.shape result data = .ok ((walk result).map f) := by
  obtain ⟨⟨g, hx, hf⟩, -⟩ := h
  generalize x.shape = source at *
  subst hx
  refine ⟨((walk source).map g).toArray, by simp [dataAs?, tabulate], ?_⟩
  rw [Kernel.spread_walk g hfits]
  exact congrArg Except.ok (List.map_congr_left fun c hc => (hf c (mem_walk.mp hc)).2.symm)

/-! ## Two operands -/

/-- The result is the function of two elements at every coordinate of what the operands broadcast
to. -/
def Zips (e' : ElementType) (F : e.Carrier → e.Carrier → e'.Carrier) (x y v : Tensor) : Prop :=
  ∃ f g, IsBroadcast [x.shape, y.shape] v.shape ∧ x.Spreads v.shape e f ∧ y.Spreads v.shape e g ∧
    v = tabulate e' v.shape fun c => F (f c) (g c)

theorem dataAs?_self (x : Tensor) : x.dataAs? x.elementType = some x.data :=
  dif_pos rfl

theorem ofData_zipBroadcast {shape : List Nat}
    (F : x.elementType.Carrier → x.elementType.Carrier → e'.Carrier)
    {f g : List Nat → x.elementType.Carrier} (hshape : Shape.broadcast x.shape y.shape = .ok shape)
    (hf : x.Spreads shape x.elementType f) (hg : y.Spreads shape x.elementType g) :
    (do ofData e' shape (← Kernel.zipBroadcast F x.shape y.shape shape x.data
      (← y.dataAs x.elementType))) = .ok (tabulate e' shape fun c => F (f c) (g c)) := by
  obtain ⟨hx, hy⟩ := fits_of_broadcast hshape
  obtain ⟨xs, hxs, hspread⟩ := hf.spread hx
  obtain ⟨ys, hys, hspread'⟩ := hg.spread hy
  obtain rfl := Option.some.inj ((dataAs?_self x).symm.trans hxs)
  have hys : y.dataAs x.elementType = .ok ys := by rw [dataAs, hys]
  have hzip : Kernel.zipBroadcast F x.shape y.shape shape x.data ys =
      .ok ((walk shape).map fun c => F (f c) (g c)).toArray := by
    rw [Kernel.zipBroadcast, hspread, hspread', ok_bind, ok_bind, List.zipWith_map,
      List.zipWith_self]
    rfl
  rw [hys, ok_bind, hzip, ok_bind]
  exact ofData_walk

/-- An operation on two tensors that zips the elements by an operation of their type, where the type
has one. -/
theorem zip_eq_ok {O : Type → Type} {ops : (e : ElementType) → Option (O e.Carrier)}
    (target : ElementType → ElementType)
    (F : {e : ElementType} → O e.Carrier → e.Carrier → e.Carrier → (target e).Carrier)
    {zip : Except Error Tensor} (hnone : ops x.elementType = none → zip ≠ .ok v)
    (hsome : ∀ o, ops x.elementType = some o → zip = do
      let shape ← Shape.broadcast x.shape y.shape
      let ys ← y.dataAs x.elementType
      ofData (target x.elementType) shape
        (← Kernel.zipBroadcast (F o) x.shape y.shape shape x.data ys)) :
    zip = .ok v ↔ ∃ e o, ops e = some o ∧ Zips (target e) (F o) x y v := by
  constructor
  · intro h
    cases ho : ops x.elementType with
    | none => exact absurd h (hnone ho)
    | some o =>
      rw [hsome o ho] at h
      obtain ⟨shape, hshape, h⟩ := bind_eq_ok.mp h
      obtain ⟨ys, hys, -⟩ := bind_eq_ok.mp h
      obtain ⟨hx, hy⟩ := fits_of_broadcast hshape
      obtain ⟨f, hf⟩ := exists_spreads (e := x.elementType) rfl hx
      obtain ⟨g, hg⟩ := exists_spreads (elementType_of_dataAs hys) hy
      obtain rfl := Except.ok.inj (h.symm.trans (ofData_zipBroadcast (F o) hshape hf hg))
      exact ⟨_, o, ho, f, g, broadcast_eq_ok_iff_aligned.mp hshape, hf, hg, rfl⟩
  · rintro ⟨e, o, ho, f, g, hshape, hf, hg, hv⟩
    obtain rfl := hf.elementType_eq
    have hshape := broadcast_eq_ok_iff_aligned.mpr hshape
    rw [hsome o ho, hshape, ok_bind, hv]
    exact ofData_zipBroadcast (F o) hshape hf hg

theorem arithmetic_eq_ok (operation : {α : Type} → Arithmetic α → α → α → α) :
    arithmetic operation x y = .ok v ↔
      ∃ e a, ElementType.arithmetic? e = some a ∧ Zips e (operation a) x y v :=
  zip_eq_ok (fun e => e) operation (fun ha h => by simp [arithmetic, ha] at h)
    fun a ha => by simp only [arithmetic, ha]

theorem less_eq_ok : less x y = .ok v ↔
    ∃ e a, ElementType.arithmetic? e = some a ∧ Zips .bool a.less x y v :=
  zip_eq_ok (fun _ => .bool) Arithmetic.less (fun ha h => by simp [less, ha] at h)
    fun a ha => by simp only [less, ha]

theorem atan2_eq_ok : atan2 x y = .ok v ↔
    ∃ e t, ElementType.trigonometry? e = some t ∧ Zips e t.atan2 x y v :=
  zip_eq_ok (fun e => e) Trigonometry.atan2 (fun ht h => by simp [atan2, ht] at h)
    fun t ht => by simp only [atan2, ht]

/-! ## Selection and broadcasting -/

/-- The result is one of two elements at every coordinate of what the operands broadcast to. -/
def Chooses (condition x y v : Tensor) : Prop :=
  ∃ (e : ElementType) (s : List Nat → Bool) (f g : List Nat → e.Carrier),
    IsBroadcast [condition.shape, x.shape, y.shape] v.shape ∧
    condition.Spreads v.shape .bool s ∧ x.Spreads v.shape e f ∧ y.Spreads v.shape e g ∧
    v = tabulate e v.shape fun c => if s c then f c else g c

theorem select_of_spreads {condition : Tensor} {inner shape : List Nat}
    {s : List Nat → Bool} {f g : List Nat → x.elementType.Carrier}
    (hinner : Shape.broadcast condition.shape x.shape = .ok inner)
    (hshape : Shape.broadcast inner y.shape = .ok shape) (hs : condition.Spreads shape .bool s)
    (hf : x.Spreads shape x.elementType f) (hg : y.Spreads shape x.elementType g) :
    select condition x y = .ok (tabulate x.elementType shape fun c => if s c then f c else g c) := by
  obtain ⟨hcondition, hx⟩ := fits_of_broadcast hinner
  obtain ⟨hfits, hy⟩ := fits_of_broadcast hshape
  obtain ⟨cs, hcs, hspread⟩ := hs.spread (hcondition.trans hfits)
  obtain ⟨xs, hxs, hspread'⟩ := hf.spread (hx.trans hfits)
  obtain ⟨ys, hys, hspread''⟩ := hg.spread hy
  obtain rfl := Option.some.inj ((dataAs?_self x).symm.trans hxs)
  have hys : y.dataAs x.elementType = .ok ys := by rw [dataAs, hys]
  have hchoose : Kernel.choose condition.shape x.shape y.shape shape cs x.data ys =
      .ok ((walk shape).map fun c => if s c then f c else g c).toArray := by
    simp only [Kernel.choose, hspread, hspread', hspread'', ok_bind, pure_eq_ok]
    simp [List.zip_map', List.zipWith_map, List.zipWith_self]
  simp only [select, hcs, hinner, hshape, hys, ok_bind]
  exact (congrArg (· >>= ofData x.elementType shape) hchoose).trans ofData_walk

theorem select_eq_ok {condition : Tensor} :
    select condition x y = .ok v ↔ Chooses condition x y v := by
  constructor
  · intro h
    have hresult := h
    unfold select at h
    split at h
    · cases h
    · rename_i cs hcs
      obtain ⟨inner, hinner, h⟩ := bind_eq_ok.mp h
      obtain ⟨shape, hshape, h⟩ := bind_eq_ok.mp h
      obtain ⟨ys, hys, -⟩ := bind_eq_ok.mp h
      obtain ⟨hcondition, hx⟩ := fits_of_broadcast hinner
      obtain ⟨hfits, hy⟩ := fits_of_broadcast hshape
      have hbool : condition.elementType = .bool := elementType_of_dataAs (by rw [dataAs, hcs])
      obtain ⟨s, hs⟩ := exists_spreads hbool (hcondition.trans hfits)
      obtain ⟨f, hf⟩ := exists_spreads (e := x.elementType) rfl (hx.trans hfits)
      obtain ⟨g, hg⟩ := exists_spreads (elementType_of_dataAs hys) hy
      have hselect := select_of_spreads hinner hshape hs hf hg
      obtain rfl := Except.ok.inj (hresult.symm.trans hselect)
      have hbroadcast := isBroadcast_triple_iff.mpr ⟨inner, broadcast_eq_ok_iff_aligned.mp hinner,
        broadcast_eq_ok_iff_aligned.mp hshape⟩
      exact ⟨x.elementType, s, f, g, hbroadcast, hs, hf, hg, rfl⟩
  · rintro ⟨e, s, f, g, hbroadcast, hs, hf, hg, hv⟩
    obtain rfl := hf.elementType_eq
    obtain ⟨inner, hinner, hshape⟩ := isBroadcast_triple_iff.mp hbroadcast
    rw [hv]
    exact select_of_spreads (broadcast_eq_ok_iff_aligned.mpr hinner)
      (broadcast_eq_ok_iff_aligned.mpr hshape) hs hf hg

/-- The result repeats the elements over what the shape and the target broadcast to. -/
def Repeats (x target v : Tensor) : Prop :=
  ∃ (sizes : List Nat) (f : List Nat → x.elementType.Carrier),
    target.ints = .ok (sizes.map Int.ofNat) ∧ IsBroadcast [x.shape, sizes] v.shape ∧
    x.Spreads v.shape x.elementType f ∧ v = tabulate x.elementType v.shape f

theorem broadcast_of_spreads {target : Tensor} {sizes shape : List Nat}
    {f : List Nat → x.elementType.Carrier} (hints : target.ints = .ok (sizes.map Int.ofNat))
    (hshape : Shape.broadcast x.shape sizes = .ok shape)
    (hf : x.Spreads shape x.elementType f) :
    broadcast x target = .ok (tabulate x.elementType shape f) := by
  obtain ⟨xs, hxs, hspread⟩ := hf.spread (fits_of_broadcast hshape).1
  obtain rfl := Option.some.inj ((dataAs?_self x).symm.trans hxs)
  have hsizes : (sizes.map Int.ofNat).mapM targetSize = .ok sizes := mapM_targetSize_eq_ok.mpr rfl
  simp only [broadcast, hints, hsizes, hshape, hspread, ok_bind]
  exact ofData_walk

theorem broadcast_eq_ok {target : Tensor} : broadcast x target = .ok v ↔ Repeats x target v := by
  constructor
  · intro h
    have hresult := h
    obtain ⟨values, hints, h⟩ := bind_eq_ok.mp h
    obtain ⟨sizes, hsizes, h⟩ := bind_eq_ok.mp h
    obtain ⟨shape, hshape, -⟩ := bind_eq_ok.mp h
    obtain rfl := mapM_targetSize_eq_ok.mp hsizes
    obtain ⟨f, hf⟩ := exists_spreads (e := x.elementType) rfl (fits_of_broadcast hshape).1
    obtain rfl := Except.ok.inj (hresult.symm.trans (broadcast_of_spreads hints hshape hf))
    exact ⟨sizes, f, hints, broadcast_eq_ok_iff_aligned.mp hshape, hf, rfl⟩
  · rintro ⟨sizes, f, hints, hshape, hf, hv⟩
    rw [hv]
    exact broadcast_of_spreads hints (broadcast_eq_ok_iff_aligned.mpr hshape) hf

end Tensor

namespace Op

open Tensor

/-- Elementwise operations apply the operation of the elements at every coordinate of what the shapes
of the operands broadcast to, each operand read without the axes it lacks and at zero where its size
is 1; broadcasting only reads so. They fail on anything else. -/
theorem broadcasting_elementwise (x y v : Tensor) :
    (add.compute [x, y] = .ok v ↔
      ∃ e a, ElementType.arithmetic? e = some a ∧ Zips e a.add x y v) ∧
    (subtract.compute [x, y] = .ok v ↔
      ∃ e a, ElementType.arithmetic? e = some a ∧ Zips e a.sub x y v) ∧
    (multiply.compute [x, y] = .ok v ↔
      ∃ e a, ElementType.arithmetic? e = some a ∧ Zips e a.mul x y v) ∧
    (less.compute [x, y] = .ok v ↔
      ∃ e a, ElementType.arithmetic? e = some a ∧ Zips .bool a.less x y v) ∧
    (atan2.compute [x, y] = .ok v ↔
      ∃ e t, ElementType.trigonometry? e = some t ∧ Zips e t.atan2 x y v) ∧
    (∀ condition, select.compute [condition, x, y] = .ok v ↔ Chooses condition x y v) ∧
    (broadcast.compute [x, y] = .ok v ↔ Repeats x y v) :=
  ⟨arithmetic_eq_ok Arithmetic.add, arithmetic_eq_ok Arithmetic.sub, arithmetic_eq_ok Arithmetic.mul,
    less_eq_ok, atan2_eq_ok, fun _ => select_eq_ok, broadcast_eq_ok⟩

end Op

end TensorLowering
