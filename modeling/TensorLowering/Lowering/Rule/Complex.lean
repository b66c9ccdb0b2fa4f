import TensorLowering.Lowering.Planes
import TensorLowering.Lowering.Rule

/-!
# Building and projecting complex values

Rules for nodes that make a complex tensor of two planes, take a plane of one, or take its
magnitude. A plain tensor counts as a complex one whose imaginary plane is zero where a plane is
taken.
-/

namespace TensorLowering.Lowering.Rule

open Dataflow (ValueId)
open Build (emit query zeroLike shapeOf)

/-- A complex tensor of two planes of one float type, which becomes the part type. -/
def complex : Rule where
  name := "Complex"
  lower node := do
    node.check 2 ["Complex"] false
    let real := (← node.input 0).value
    let imag := (← node.input 1).value
    let partType ← query (·.elementType real)
    if partType.isFloat then return [← (Planes.mk real imag).toComplex partType]
    else throw (node.error (.attributeValue "T" (.elementType partType)))

/-- The real plane; a plain input is its own. -/
def real : Rule where
  name := "Real"
  lower node := do
    node.check 1 ["Real"] true
    match ← node.input 0 with
    | .complex value => return [.plain (← value.planes).real]
    | .plain value => return [.plain value]

/-- The imaginary plane; that of a plain input is zero everywhere. -/
def imag : Rule where
  name := "Imag"
  lower node := do
    node.check 1 ["Imag"] true
    match ← node.input 0 with
    | .complex value => return [.plain (← value.planes).imag]
    | .plain value =>
      let fill ← zeroLike value
      let shape ← shapeOf value
      return [.plain (← emit .broadcast [fill, shape])]

/-- The root of the sum of the squares of the planes. -/
def magnitude (planes : Planes) : Build ValueId := do
  let real2 ← emit .multiply [planes.real, planes.real]
  let imag2 ← emit .multiply [planes.imag, planes.imag]
  let sum ← emit .add [real2, imag2]
  emit .sqrt [sum]

/-- The magnitude of a complex input; a plain input is rejected. -/
def complexAbs : Rule where
  name := "ComplexAbs"
  lower node := do
    node.check 1 ["ComplexAbs"] true
    match ← node.input 0 with
    | .complex value => return [.plain (← magnitude (← value.planes))]
    | .plain value =>
      let actual ← query (·.elementType value)
      throw (node.error (.attributeValue "T" (.elementType actual)))

end TensorLowering.Lowering.Rule
