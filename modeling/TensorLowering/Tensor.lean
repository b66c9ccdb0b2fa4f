import TensorLowering.ElementType.Conversion
import TensorLowering.Error
import TensorLowering.Shape.Volume
import TensorLowering.Word

/-!
# Tensors

A tensor has an element type, a shape and as many elements as the shape has places, in row-major
order. `ofData` is the only way to build one from elements that were not counted before.
-/

namespace TensorLowering

structure Tensor where
  elementType : ElementType
  shape : List Nat
  data : Array elementType.Carrier
  size_data : data.size = Shape.volume shape
deriving DecidableEq

namespace Tensor

/-- The tensor with the given elements, if they are as many as the shape asks for. If they only seem
to be, because the number of places wraps around to theirs, there is no tensor to report about. -/
def ofData (elementType : ElementType) (shape : List Nat) (data : Array elementType.Carrier) :
    Except Error Tensor :=
  if h : data.size = Shape.volume shape then .ok ⟨elementType, shape, data, h⟩
  else if data.size = Word.unsigned (Shape.volume shape) then
    .error (.evaluation (.elementOverflow shape))
  else .error (.shape (.dataLength data.size shape))

theorem ofData_eq_ok {e : ElementType} {shape : List Nat} {data : Array e.Carrier} {t : Tensor} :
    ofData e shape data = .ok t ↔ ∃ h : data.size = Shape.volume shape, t = ⟨e, shape, data, h⟩ := by
  unfold ofData
  constructor
  · intro h
    split at h
    · rename_i hsize
      exact ⟨hsize, (Except.ok.inj h).symm⟩
    · split at h <;> cases h
  · rintro ⟨hsize, rfl⟩
    exact dif_pos hsize

/-- A tensor of one element and no axes. -/
def scalar (elementType : ElementType) (x : elementType.Carrier) : Tensor :=
  ⟨elementType, [], #[x], rfl⟩

/-- The scalar zero of an element type. -/
def zero (elementType : ElementType) : Tensor :=
  scalar elementType elementType.zero

/-- A 64-bit integer scalar. -/
def ofInt (n : Int) : Tensor :=
  scalar .i64 n.toInt64

/-- A vector of 64-bit integers. -/
def ofInts (ns : List Int) : Tensor where
  elementType := .i64
  shape := [ns.length]
  data := (ns.map Int.toInt64).toArray
  size_data := by simp

/-- The same elements in another shape. -/
def reshape (t : Tensor) (shape : List Nat) : Except Error Tensor :=
  ofData t.elementType shape t.data

/-- Every element converted to another type. -/
def convert (t : Tensor) (target : ElementType) : Tensor where
  elementType := target
  shape := t.shape
  data := t.data.map (t.elementType.convert target)
  size_data := by simp [t.size_data]

/-- A shape as a vector of integers of the given type. -/
def ofShape (elementType : ElementType) (shape : List Nat) : Tensor :=
  (ofInts (shape.map Int.ofNat)).convert elementType

/-- The elements of a tensor of integers. -/
def ints : Tensor → Except Error (List Int)
  | ⟨.i64, _, data, _⟩ => .ok (data.toList.map Int64.toInt)
  | ⟨.i32, _, data, _⟩ => .ok (data.toList.map Int32.toInt)
  | ⟨e, _, _, _⟩ => .error (.type (.notInteger e))

/-- The elements of a tensor whose element type is `e`. -/
def dataAs? (t : Tensor) (e : ElementType) : Option (Array e.Carrier) :=
  if h : t.elementType = e then some (h ▸ t.data) else none

/-- The elements of a tensor whose element type has to be `e`. -/
def dataAs (t : Tensor) (e : ElementType) : Except Error (Array e.Carrier) :=
  match t.dataAs? e with
  | some data => .ok data
  | none => .error (.evaluation (.unexpectedType t.elementType))

def rank (t : Tensor) : Nat :=
  t.shape.length

end Tensor

end TensorLowering
