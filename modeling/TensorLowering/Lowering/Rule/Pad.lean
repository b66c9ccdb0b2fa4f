import TensorLowering.Lowering.Padding
import TensorLowering.Lowering.Planes
import TensorLowering.Lowering.Rule

/-!
# Padding

Rules for padding with a fill value and by mirroring. A complex tensor is padded in packed form;
mirroring takes plain tensors only.
-/

namespace TensorLowering.Lowering.Rule

open Dataflow (ValueId)
open Build (emit zeroLike)

/-- Pad with a fill value. -/
def constantPad (data : Lowered) (paddings fill : ValueId) : Build Lowered := do
  let bounds ← padCounts paddings data.isComplex
  let padded ← emit (.pad .constant) [data.elements, bounds.before, bounds.after, fill]
  match data with
  | .plain _ => return .plain padded
  | .complex value => markComplex padded value.partType

/-- Pads with zeros. -/
def pad : Rule where
  name := "Pad"
  lower node := do
    node.check 2 ["Pad"] true
    let data ← node.input 0
    let paddings ← node.plainInput 1 (.operand "paddings")
    let fill ← zeroLike data.elements
    return [← constantPad data paddings fill]

/-- Pads with the third input. -/
def padV2 : Rule where
  name := "PadV2"
  lower node := do
    node.check 3 ["PadV2"] true
    let data ← node.input 0
    let paddings ← node.plainInput 1 (.operand "paddings")
    let fill ← node.plainInput 2 (.operand "constant_values")
    return [← constantPad data paddings fill]

/-- Pads by mirroring, as the attribute `mode` says. -/
def mirrorPad : Rule where
  name := "MirrorPad"
  lower node := do
    node.check 2 ["MirrorPad", "MIRROR_PAD"] false
    let mode ← mirrorMode node (← node.attr .string "mode")
    let data := (← node.input 0).value
    let paddings := (← node.input 1).value
    let bounds ← padCounts paddings false
    return [.plain (← emit (.pad mode) [data, bounds.before, bounds.after])]

end TensorLowering.Lowering.Rule
