import TensorLowering.Lowering.Builder
import TensorLowering.Lowering.ResolvedNode

/-!
# Lowering rules

A rule turns one source node into operations of the target graph and returns one lowered value per
output of the node. Rules first check what they ask of the node and emit afterwards, so a node that
violates a demand leaves nothing behind.
-/

namespace TensorLowering.Lowering

structure Rule where
  /-- The name of the rule, usually the op type that it is written for. -/
  name : String
  lower : ResolvedNode → Build (List Lowered)

end TensorLowering.Lowering
