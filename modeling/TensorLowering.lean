import TensorLowering.Proofs.Dataflow.Bounds
import TensorLowering.Proofs.Dataflow.Folding
import TensorLowering.Proofs.Dataflow.FoldLimit
import TensorLowering.Proofs.Dataflow.Representation
import TensorLowering.Proofs.Lowering.Convention
import TensorLowering.Proofs.Lowering.Reordering
import TensorLowering.Proofs.Lowering.Unfolding
import TensorLowering.Proofs.Lowering.Tagging
import TensorLowering.Proofs.Lowering.Scope
import TensorLowering.Proofs.Lowering.Effects
import TensorLowering.Proofs.Lowering.Policies
import TensorLowering.Proofs.Lowering.Survival
import TensorLowering.Proofs.Tensor.Tabulate
import TensorLowering.Proofs.Dataflow.Adding
import TensorLowering.Proofs.Op.Acceptance
import TensorLowering.Proofs.Op.Completeness
import TensorLowering.Proofs.Tensor.Planes
import TensorLowering.Proofs.Lowering.Running
import TensorLowering.Proofs.Lowering.Preparing
import TensorLowering.Proofs.Lowering.Planewise
import TensorLowering.Proofs.Lowering.Projection
import TensorLowering.Proofs.Lowering.Halving
import TensorLowering.Proofs.Lowering.ExactProduct
import TensorLowering.Proofs.Lowering.Angles
import TensorLowering.Proofs.Lowering.RepeatedAxes
import TensorLowering.Proofs.Lowering.Summing
import TensorLowering.Proofs.Lowering.Filling
import TensorLowering.Proofs.Tensor.Scatter
import TensorLowering.Proofs.Lowering.Scattering
import TensorLowering.Proofs.Tensor.Broadcast
import TensorLowering.Proofs.Lowering.RoundTrip
import TensorLowering.Proofs.Lowering.Selecting
import TensorLowering.Proofs.Op.Rejection
import TensorLowering.Proofs.Op.BroadcastOrder
import TensorLowering.Proofs.Tensor.Elementwise
import TensorLowering.Proofs.Tensor.Slices
import TensorLowering.Proofs.Tensor.Padding
import TensorLowering.Proofs.Tensor.UnitAxes
import TensorLowering.Proofs.Shape.Targets
import TensorLowering.Proofs.Tensor.Rows
import TensorLowering.Proofs.Tensor.Reduction
import TensorLowering.Proofs.Shape.Stepping
import TensorLowering.Proofs.Tensor.Literal
import TensorLowering.Proofs.Lowering.Naming
