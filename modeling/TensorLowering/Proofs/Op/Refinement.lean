import TensorLowering.Op.Typing
import TensorLowering.Proofs.Shape.Refinement

/-!
# More known about an operand

`Operand.Refines` compares what is known about an operand at two times: its type, its contents and
the integers in them (`FinerInts`). The demands of typing on operands are kept when less is known
(`commonType_congr`, `integerVector_mono`); where the contents are known, the shape tells how many
integers there are (`length_of_firstSize?`).
-/

namespace TensorLowering

open Shape

/-- The element types agree, and the fine shape says what the coarse one says. -/
structure TensorType.Refines (fine coarse : TensorType) : Prop where
  elementType : fine.elementType = coarse.elementType
  shape : fine.shape.Refines coarse.shape

@[simp] theorem TensorType.Refines.refl (type : TensorType) : type.Refines type :=
  ⟨rfl, .refl _⟩

theorem TensorType.Refines.trans {fine middle coarse : TensorType} (h : fine.Refines middle)
    (h' : middle.Refines coarse) : fine.Refines coarse :=
  ⟨h.elementType.trans h'.elementType, h.shape.trans h'.shape⟩

/-- The coarse side holds no known integers, or those of the fine side. -/
def FinerInts (fine coarse : Except Error (Option (List Int))) : Prop :=
  ∀ values, fine = .ok values →
    ∃ values', coarse = .ok values' ∧ (values' = none ∨ values' = values)

/-- All that can be known about the type of a tensor. -/
def Tensor.type (t : Tensor) : TensorType :=
  ⟨t.elementType, .fixed t.shape⟩

namespace Operand

/-- Contents that are known settle the type. -/
def Settled (operand : Operand) : Prop :=
  ∀ value, operand.contents = some value → operand.toTensorType = value.type

/-- The fine operand is settled, and says of type and contents what the coarse one says. -/
structure Refines (fine coarse : Operand) : Prop where
  type : fine.toTensorType.Refines coarse.toTensorType
  contents : ∀ value, coarse.contents = some value → fine.contents = some value
  settled : fine.Settled

/-- The fine operand says of type and contents what the coarse one says, and its contents tell its
shape. This is all that the rules of typing ask for: none looks at the element type of contents. -/
structure Narrows (fine coarse : Operand) : Prop where
  type : fine.toTensorType.Refines coarse.toTensorType
  contents : ∀ value, coarse.contents = some value → fine.contents = some value
  sized : ∀ value, fine.contents = some value → fine.shape = .fixed value.shape

variable {fine coarse : Operand}

theorem Refines.narrows (h : fine.Refines coarse) : fine.Narrows coarse :=
  ⟨h.type, h.contents, fun value hv => congrArg TensorType.shape (h.settled value hv)⟩

theorem Narrows.elementType (h : fine.Narrows coarse) : fine.elementType = coarse.elementType :=
  h.type.elementType

theorem Narrows.shape (h : fine.Narrows coarse) : fine.shape.Refines coarse.shape :=
  h.type.shape

theorem Narrows.dims (h : fine.Narrows coarse) : FinerShape fine.shape.dims? coarse.shape.dims? :=
  h.shape.dims

theorem Narrows.ints (h : fine.Narrows coarse) : FinerInts fine.ints? coarse.ints? := by
  intro values hv
  unfold Operand.ints? at hv ⊢
  cases hc : coarse.contents with
  | none => exact ⟨none, rfl, .inl rfl⟩
  | some value =>
    rw [h.contents value hc] at hv
    exact ⟨values, hv, .inr rfl⟩

theorem Refines.elementType (h : fine.Refines coarse) : fine.elementType = coarse.elementType :=
  h.type.elementType

theorem Refines.shape (h : fine.Refines coarse) : fine.shape.Refines coarse.shape :=
  h.type.shape

theorem Refines.dims (h : fine.Refines coarse) : FinerShape fine.shape.dims? coarse.shape.dims? :=
  h.shape.dims

theorem Refines.ints (h : fine.Refines coarse) : FinerInts fine.ints? coarse.ints? :=
  h.narrows.ints

end Operand

/-- A tensor of integers has as many of them as places. -/
theorem Tensor.length_ints {t : Tensor} {values : List Int} (h : t.ints = .ok values) :
    values.length = volume t.shape := by
  obtain ⟨e, shape, data, hsize⟩ := t
  cases e <;> cases h <;> simpa using hsize

namespace Op

/-! ## Numbers of operands -/

section Arity

variable {α β : Type} {op : Op} {operands : List α} {b : β}

theorem nullary_eq_ok {next : Except Error β} :
    op.nullary operands next = .ok b ↔ operands = [] ∧ next = .ok b := by
  unfold nullary
  split <;> simp_all

theorem unary_eq_ok {next : α → Except Error β} :
    op.unary operands next = .ok b ↔ ∃ x, operands = [x] ∧ next x = .ok b := by
  unfold unary
  split <;> simp_all

theorem binary_eq_ok {next : α → α → Except Error β} :
    op.binary operands next = .ok b ↔ ∃ x y, operands = [x, y] ∧ next x y = .ok b := by
  unfold binary
  split <;> simp_all

theorem ternary_eq_ok {next : α → α → α → Except Error β} :
    op.ternary operands next = .ok b ↔ ∃ x y z, operands = [x, y, z] ∧ next x y z = .ok b := by
  unfold ternary
  split <;> simp_all

end Arity

/-! ## Demands -/

@[simp] theorem demand_eq_ok {op : Op} {holds : Bool} {demand : Demand} {actual : ElementType}
    {u : Unit} : op.demand holds demand actual = .ok u ↔ holds = true := by
  unfold Op.demand
  split <;> simp_all

theorem commonType_congr {op : Op} {first first' : Operand} {others others' : List Operand}
    (hf : first.elementType = first'.elementType)
    (ho : List.Forall₂ (fun x x' => x.elementType = x'.elementType) others others') :
    op.commonType first others = op.commonType first' others' := by
  unfold commonType
  rw [hf]
  induction ho with
  | nil => rfl
  | @cons x x' xs xs' hx _ ih =>
    rw [List.find?_cons, List.find?_cons, hx]
    cases x'.elementType != first'.elementType with
    | true => simp [hx]
    | false => exact ih

theorem elementType_of_commonType {op : Op} {first : Operand} {others : List Operand}
    {e : ElementType} (h : op.commonType first others = .ok e) : e = first.elementType := by
  unfold commonType at h
  split at h
  · cases h
  · exact (Except.ok.inj h).symm

theorem forall_elementType_of_commonType {op : Op} {first : Operand} {others : List Operand}
    {e : ElementType} (h : op.commonType first others = .ok e) :
    ∀ other ∈ others, other.elementType = first.elementType := by
  unfold commonType at h
  split at h
  · cases h
  · rename_i hfind
    intro other hother
    simpa using List.find?_eq_none.mp hfind other hother

/-- A vector of integers has rank 1, or is a scalar where that is allowed. -/
theorem integerVector_eq_ok {op : Op} {operand : Operand} {role : String} {allowScalar : Bool}
    {u : Unit} : op.integerVector operand role allowScalar = .ok u ↔
      operand.elementType.isInteger = true ∧
        ∀ rank, operand.shape.rank? = some rank → rank = 1 ∨ rank = 0 ∧ allowScalar = true := by
  unfold integerVector
  simp only [bind_eq_ok, demand_eq_ok, exists_const]
  refine and_congr_right fun _ => ?_
  split <;> simp_all

theorem integerVector_mono {op : Op} {fine coarse : Operand} {role : String} {allowScalar : Bool}
    (h : fine.Narrows coarse) (hok : op.integerVector fine role allowScalar = .ok ()) :
    op.integerVector coarse role allowScalar = .ok () := by
  rw [integerVector_eq_ok] at hok ⊢
  rw [← h.elementType]
  exact ⟨hok.1, fun rank hr => hok.2 rank (h.shape.rank? hr)⟩

/-- A vector of which the first size is known has rank 1. -/
theorem rank?_of_firstSize? {op : Op} {operand : Operand} {role : String} {allowScalar : Bool}
    (hok : op.integerVector operand role allowScalar = .ok ()) {n : Nat}
    (hn : operand.shape.firstSize? = some n) : operand.shape.rank? = some 1 := by
  have hrank := (integerVector_eq_ok.mp hok).2
  rw [PartialShape.rank?_eq] at hrank ⊢
  obtain ⟨dims, hd, hn⟩ := Option.bind_eq_some_iff.mp hn
  rw [hd, Option.map_some] at hrank ⊢
  rcases hrank _ rfl with h | ⟨h, -⟩
  · rw [h]
  · rw [List.length_eq_zero_iff.mp h] at hn
    cases hn

/-- The number of known integers in a vector is the size that the shape tells. -/
theorem length_of_firstSize? {operand : Operand}
    (hs : ∀ value, operand.contents = some value → operand.shape = .fixed value.shape)
    (hr : operand.shape.rank? = some 1) {values : List Int}
    (hv : operand.ints? = .ok (some values)) {n : Nat} (hn : operand.shape.firstSize? = some n) :
    values.length = n := by
  unfold Operand.ints? at hv
  cases hc : operand.contents with
  | none => rw [hc] at hv; cases hv
  | some value =>
    rw [hc] at hv
    simp only [bind_eq_ok, pure_eq_ok, Except.ok.injEq, Option.some.injEq, exists_eq_right] at hv
    rw [hs value hc] at hr hn
    rw [Tensor.length_ints hv]
    obtain ⟨size, hsize⟩ := List.length_eq_one_iff.mp (Option.some.inj hr)
    rw [hsize] at hn ⊢
    simpa [PartialShape.firstSize?] using hn

/-- The length is that of the known integers, or known on the fine side as well. -/
def FinerLength (ints : Except Error (Option (List Int))) (length length' : Option Nat) : Prop :=
  ∀ n, length' = some n → length = some n ∧ ∀ values, ints = .ok (some values) → values.length = n

theorem finerLength {op : Op} {fine coarse : Operand} {role : String} {allowScalar : Bool}
    (h : fine.Narrows coarse) (hok : op.integerVector coarse role allowScalar = .ok ()) :
    FinerLength fine.ints? fine.shape.firstSize? coarse.shape.firstSize? := fun _ hn =>
  ⟨h.shape.firstSize? hn, fun _ hv => length_of_firstSize? h.sized
    (h.shape.rank? (rank?_of_firstSize? hok hn)) hv (h.shape.firstSize? hn)⟩

end Op

end TensorLowering
