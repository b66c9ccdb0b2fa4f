import TensorLowering.Lowering.ComplexProduct
import TensorLowering.Lowering.Rule

/-!
# Reductions

The inputs are the data and the axes; the attribute `keep_dims` keeps the reduced axes with size 1.
Only the product has a meaning for complex data.
-/

namespace TensorLowering.Lowering.Rule

open Build (emit)

/-- The reduction of the given kind. -/
def reduction (name : String) (kind : ReduceKind) : Rule where
  name := name
  lower node := do
    node.check 2 [name] (kind == .prod)
    let keepDims ← node.attrD .bool "keep_dims" false
    let axes ← node.plainInput 1 .axes
    match ← node.input 0 with
    | .plain data => return [.plain (← emit (.reduce kind keepDims) [data, axes])]
    | .complex data => return [← complexProduct data axes keepDims]

def sum : Rule :=
  reduction "Sum" .sum

def mean : Rule :=
  reduction "Mean" .mean

def min : Rule :=
  reduction "Min" .min

def max : Rule :=
  reduction "Max" .max

def prod : Rule :=
  reduction "Prod" .prod

def all : Rule :=
  reduction "All" .logicalAnd

def any : Rule :=
  reduction "Any" .logicalOr

def euclideanNorm : Rule :=
  reduction "EuclideanNorm" .l2

end TensorLowering.Lowering.Rule
