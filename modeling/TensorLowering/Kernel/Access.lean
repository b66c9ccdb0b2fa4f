import TensorLowering.Error

/-!
# Access to stored elements

Kernels read and write elements by flat position. Every access is checked: a position outside the
stored elements is the error `outOfRange`, so "no kernel leaves its tensors" says that this error
does not occur.
-/

namespace TensorLowering.Kernel

variable {α : Type}

/-- The element at a position. -/
def read (data : Array α) (position : Nat) : Except Error α :=
  match data[position]? with
  | some x => .ok x
  | none => .error (.evaluation (.outOfRange position data.size))

/-- The elements at a list of positions. -/
def readAll (data : Array α) (positions : List Nat) : Except Error (List α) :=
  positions.mapM (read data)

/-- The `length` elements from `start` on. -/
def readBlock (data : Array α) (start length : Nat) : Except Error (List α) :=
  if start + length ≤ data.size then .ok (data.extract start (start + length)).toList
  else .error (.evaluation (.outOfRange (start + length) data.size))

/-- The data with the elements from `start` on replaced by those of the block. -/
def writeBlock (data : Array α) (start : Nat) (block : List α) : Except Error (Array α) :=
  if start + block.length ≤ data.size then
    .ok (data.extract 0 start ++ block.toArray ++ data.extract (start + block.length) data.size)
  else .error (.evaluation (.outOfRange (start + block.length) data.size))

end TensorLowering.Kernel
