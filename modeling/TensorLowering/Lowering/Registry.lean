import TensorLowering.Lowering.Rule.Arithmetic
import TensorLowering.Lowering.Rule.Complex
import TensorLowering.Lowering.Rule.Pad
import TensorLowering.Lowering.Rule.Passing
import TensorLowering.Lowering.Rule.Reduce
import TensorLowering.Lowering.Rule.Scatter
import TensorLowering.Lowering.Rule.Select

/-!
# Registries of rules

A registry assigns rules to op types. One rule may serve several op types, and a later assignment
replaces an earlier one for the same op type. `Registry.standard` holds the rules of this library.
-/

namespace TensorLowering.Lowering

/-- Rules by op type; each op type occurs once. -/
structure Registry where
  entries : List (String × Rule) := []

namespace Registry

def find? (registry : Registry) (opType : String) : Option Rule :=
  registry.entries.lookup opType

def contains (registry : Registry) (opType : String) : Bool :=
  (registry.find? opType).isSome

/-- The number of op types. -/
def size (registry : Registry) : Nat :=
  registry.entries.length

def isEmpty (registry : Registry) : Bool :=
  registry.entries.isEmpty

/-- Assign a rule to an op type. -/
def insert (registry : Registry) (opType : String) (rule : Rule) : Registry :=
  ⟨(opType, rule) :: registry.entries.filter (·.1 != opType)⟩

/-- Assign a rule to several op types. -/
def insertAll (registry : Registry) (opTypes : List String) (rule : Rule) : Registry :=
  opTypes.foldl (fun registry opType => registry.insert opType rule) registry

/-- The op types in ascending order of their characters. -/
def opTypes (registry : Registry) : List String :=
  (registry.entries.map (·.1)).mergeSort fun x y => !decide (y < x)

/-- A registry of rules under their own names and further op types. -/
def ofRules (rules : List (Rule × List String)) : Registry :=
  rules.foldl (fun registry (rule, opTypes) => registry.insertAll opTypes rule) {}

/-- The rules of this library. -/
def standard : Registry := ofRules [
  (.addN, ["AddN", "ADD_N"]),
  (.pad, ["Pad"]),
  (.padV2, ["PadV2"]),
  (.mirrorPad, ["MirrorPad", "MIRROR_PAD"]),
  (.sum, ["Sum"]),
  (.mean, ["Mean"]),
  (.min, ["Min"]),
  (.max, ["Max"]),
  (.prod, ["Prod"]),
  (.all, ["All"]),
  (.any, ["Any"]),
  (.euclideanNorm, ["EuclideanNorm"]),
  (.scatterNd, ["ScatterNd", "SCATTER_ND"]),
  (.select, ["Select"]),
  (.selectV2, ["SelectV2"]),
  (.add, ["Add", "AddV2"]),
  (.sub, ["Sub"]),
  (.mul, ["Mul"]),
  (.complex, ["Complex"]),
  (.real, ["Real"]),
  (.imag, ["Imag"]),
  (.complexAbs, ["ComplexAbs"]),
  (.const, ["Const"]),
  (.identity, ["Identity"])]

end Registry

end TensorLowering.Lowering
