import TensorLowering.Lowering.Planes
import TensorLowering.Shape.Axes

/-!
# Products of complex tensors along axes

Where the axes and their sizes are known, the product is exact: the elements along an axis are
multiplied in pairs, one half of them with the other, until one is left. Otherwise the product is
taken in polar form, as the product of the magnitudes and the sum of the angles.
-/

namespace TensorLowering.Lowering

open Dataflow (ValueId)
open Build (emit ints query)

/-- An axis of known size. -/
structure KnownAxis where
  axis : Nat
  size : Nat
deriving DecidableEq, Repr

/-- The axis that a possibly negative number names in a shape, unless it is out of range, empty or
of unknown size. -/
def knownAxis? (dims : List (Option Nat)) (axis : Int) : Option KnownAxis := do
  let a ← Shape.fromBack? axis dims.length
  let size ← dims[a]?.join
  if 0 < size then some ⟨a, size⟩ else none

/-- The listed axes in ascending order, if all of them are known and none is listed twice. -/
def knownAxes? (axes : Option Tensor) (shape : PartialShape) : Option (List KnownAxis) := do
  let axes ← (← axes).ints.toOption
  let dims ← shape.dims?
  let known ← axes.mapM (knownAxis? dims)
  if (known.map (·.axis)).Nodup then
    some ((List.range dims.length).filterMap fun a => known.find? (·.axis = a))
  else none

/-- The `count` indices from `start` on. A vector has eight bytes for each of them, and fewer bytes
than a signed word counts. -/
def indicesFrom (start count : Nat) : Except TensorLowering.Error (List Int) :=
  if 8 * count < 9223372036854775808 then .ok ((List.range' start count).map Int.ofNat)
  else .error (.evaluation (.capacity count))

/-- The slices of both planes along an axis, `count` of them from `start` on. -/
def Planes.slice (planes : Planes) (axis start count : Nat) : Build Planes := do
  let indices ← ints (← query fun _ => indicesFrom start count)
  let real ← emit (.gather axis) [planes.real, indices]
  let imag ← emit (.gather axis) [planes.imag, indices]
  return ⟨real, imag⟩

/-- Multiply `size` slices along an axis until one is left: the lower half with the upper half, an
odd last one kept for the next round. -/
def multiplyAlong (axis size : Nat) (planes : Planes) : Build Planes :=
  if h : size ≤ 1 then pure planes
  else do
    let half := size / 2
    let lower ← planes.slice axis 0 half
    let upper ← planes.slice axis half half
    let folded ← lower.mul upper
    if size % 2 = 1 then
      let last ← planes.slice axis (size - 1) 1
      let real ← emit (.concat axis) [folded.real, last.real]
      let imag ← emit (.concat axis) [folded.imag, last.imag]
      multiplyAlong axis (half + size % 2) ⟨real, imag⟩
    else
      multiplyAlong axis (half + size % 2) folded
termination_by size
decreasing_by all_goals omega

/-- The product by repeated multiplication along each axis. -/
def productByHalving (planes : Planes) (known : List KnownAxis) (keepDims : Bool) :
    Build Planes := do
  let planes ← known.foldlM (fun planes k => multiplyAlong k.axis k.size planes) planes
  if keepDims || known.isEmpty then return planes
  else
    let axes := known.map fun k => Int.ofNat k.axis
    let real ← emit (.squeeze axes) [planes.real]
    let imag ← emit (.squeeze axes) [planes.imag]
    return ⟨real, imag⟩

/-- The product by magnitudes and angles. -/
def productByAngles (planes : Planes) (axes : ValueId) (keepDims : Bool) : Build Planes := do
  let real2 ← emit .multiply [planes.real, planes.real]
  let imag2 ← emit .multiply [planes.imag, planes.imag]
  let norm2 ← emit .add [real2, imag2]
  let magnitudes ← emit .sqrt [norm2]
  let angles ← emit .atan2 [planes.imag, planes.real]
  let magnitude ← emit (.reduce .prod keepDims) [magnitudes, axes]
  let angle ← emit (.reduce .sum keepDims) [angles, axes]
  let cos ← emit .cos [angle]
  let sin ← emit .sin [angle]
  let real ← emit .multiply [magnitude, cos]
  let imag ← emit .multiply [magnitude, sin]
  return ⟨real, imag⟩

/-- The product of a complex tensor along the axes that the value `axes` lists. -/
def complexProduct (data : ComplexValue) (axes : ValueId) (keepDims : Bool) : Build Lowered := do
  let planes ← data.planes
  let listed ← query fun g => .ok (g.contents? axes)
  let shape ← query (·.shape planes.real)
  let product ← match knownAxes? listed shape with
    | some known => productByHalving planes known keepDims
    | none => productByAngles planes axes keepDims
  product.toComplex data.partType

end TensorLowering.Lowering
