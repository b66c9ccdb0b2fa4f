import TensorLowering.Lowering.Builder
import TensorLowering.Lowering.ResolvedNode

/-!
# Paddings

Source nodes give paddings as a table with a row of two counts for each axis. The target takes the
two columns as separate vectors.
-/

namespace TensorLowering.Lowering

open Dataflow (ValueId)
open Build (emit int ints)

/-- The counts of elements added before and after each axis. -/
structure PadCounts where
  before : ValueId
  after : ValueId
deriving DecidableEq, Repr

/-- The columns of a table of paddings. For packed data each gets a further zero, so that the axis
with the real and imaginary parts stays as it is. -/
def padCounts (paddings : ValueId) (isComplex : Bool) : Build PadCounts := do
  let table ← emit (.convert .i64) [paddings]
  let beforeColumn ← int 0
  let afterColumn ← int 1
  let before ← emit (.gather 1) [table, beforeColumn]
  let after ← emit (.gather 1) [table, afterColumn]
  if isComplex then
    let untouched ← ints [0]
    let before ← emit (.concat 0) [before, untouched]
    let after ← emit (.concat 0) [after, untouched]
    return ⟨before, after⟩
  else
    return ⟨before, after⟩

/-- The padding mode that an attribute names, in upper or lower case ASCII letters. -/
def mirrorMode (node : ResolvedNode) (mode : String) : Except Error PadMode :=
  let upper := mode.map Char.toUpper
  if upper = "REFLECT" then .ok .reflect
  else if upper = "SYMMETRIC" then .ok .symmetric
  else .error (node.error (.attributeValue "mode" (.text mode)))

end TensorLowering.Lowering
