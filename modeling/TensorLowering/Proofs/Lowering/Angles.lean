import TensorLowering.Proofs.Lowering.Multiplying

/-!
# Multiplying by magnitudes and angles

The program that multiplies in polar form, on planes that stand for tensors of floats. Such a
product always exists (`Tensor.exists_polarProduct`): no group of numbers lacks a product or a sum.
So the program does not fail, it leaves an operation behind that takes angles, and the planes it
returns stand for the polar product (`Runs.productByAngles`).
-/

namespace TensorLowering

namespace Tensor

/-- The planes of the product of complex numbers along axes, by magnitudes and angles. -/
def polarProduct (keepDims : Bool) (real imag axes : Tensor) : Except Error (Tensor × Tensor) := do
  let real2 ← real.arithmetic Arithmetic.mul real
  let imag2 ← imag.arithmetic Arithmetic.mul imag
  let norm2 ← real2.arithmetic Arithmetic.add imag2
  let magnitudes ← norm2.mapFloat Trigonometry.sqrt
  let angles ← imag.atan2 real
  let magnitude ← magnitudes.reduce .prod keepDims axes
  let angle ← angles.reduce .sum keepDims axes
  let cos ← angle.mapFloat Trigonometry.cos
  let sin ← angle.mapFloat Trigonometry.sin
  let productReal ← magnitude.arithmetic Arithmetic.mul cos
  let productImag ← magnitude.arithmetic Arithmetic.mul sin
  return (productReal, productImag)

variable {t u : Tensor} {type : TensorType}

theorem exists_arithmetic_alike (operation : {α : Type} → Arithmetic α → α → α → α)
    (hf : type.elementType.isFloat = true) (ht : t.type = type) (hu : u.type = type) :
    ∃ v, t.arithmetic operation u = .ok v ∧ v.type = type := by
  subst ht
  have hn : t.elementType.isNumeric = true := ElementType.isNumeric_of_isFloat hf
  refine exists_arithmetic operation (Op.elementType_of_type hu) hn ?_
  rw [Op.shape_of_type hu]
  exact Shape.broadcast_self _

theorem exists_mapFloat_alike (operation : {α : Type} → Trigonometry α → α → α)
    (hf : type.elementType.isFloat = true) (ht : t.type = type) :
    ∃ v, t.mapFloat operation = .ok v ∧ v.type = type := by
  subst ht
  exact exists_mapFloat operation hf

/-- Numbers with planes of one type of floats have a polar product along any axes. -/
theorem exists_polarProduct (keepDims : Bool) (positions : List Nat)
    (hf : t.elementType.isFloat = true) (hu : u.type = t.type) :
    ∃ p q, q.type = p.type ∧ p.elementType = t.elementType ∧
      ∀ {axes values}, axes.ints = .ok values →
        Shape.resolveAxes values t.shape.length = .ok positions →
        polarProduct keepDims t u axes = .ok (p, q) := by
  obtain ⟨real2, hreal2, treal2⟩ := exists_arithmetic_alike Arithmetic.mul hf rfl rfl
  obtain ⟨imag2, himag2, timag2⟩ := exists_arithmetic_alike Arithmetic.mul hf hu hu
  obtain ⟨norm2, hnorm2, tnorm2⟩ := exists_arithmetic_alike Arithmetic.add hf treal2 timag2
  obtain ⟨magnitudes, hmagnitudes, tmagnitudes⟩ :=
    exists_mapFloat_alike Trigonometry.sqrt hf tnorm2
  obtain ⟨angles, hangles, tangles⟩ : ∃ v, u.atan2 t = .ok v ∧ v.type = t.type := by
    have hs : Shape.broadcast u.shape t.shape = .ok u.shape := by
      rw [Op.shape_of_type hu]
      exact Shape.broadcast_self _
    have hfu : u.elementType.isFloat = true := Op.elementType_of_type hu ▸ hf
    obtain ⟨v, hv, htype⟩ := exists_atan2 (Op.elementType_of_type hu).symm hfu hs
    exact ⟨v, hv, htype.trans hu⟩
  have hreduce (kind : ReduceKind) {x : Tensor} (hkind : kind.isLogical = false)
      (hk : ∀ {α : Type} (a : Arithmetic α) xs, ∃ x, Kernel.combine a kind xs = .ok x)
      (hx : x.type = t.type) :
      ∃ v, v.type = ⟨t.elementType, .fixed (Shape.collapse 1 keepDims positions t.shape)⟩ ∧
        ∀ {axes values}, axes.ints = .ok values →
          Shape.resolveAxes values t.shape.length = .ok positions →
          x.reduce kind keepDims axes = .ok v := by
    rw [← Op.elementType_of_type hx, ← Op.shape_of_type hx]
    have hn := ElementType.isNumeric_of_isFloat (Op.elementType_of_type hx ▸ hf)
    exact exists_reduce keepDims positions hn hkind hk
  obtain ⟨magnitude, tmagnitude, hmagnitude⟩ := hreduce .prod rfl (fun _ _ => ⟨_, rfl⟩) tmagnitudes
  obtain ⟨angle, tangle, hangle⟩ := hreduce .sum rfl (fun _ _ => ⟨_, rfl⟩) tangles
  obtain ⟨cos, hcos, tcos⟩ := exists_mapFloat_alike Trigonometry.cos hf tangle
  obtain ⟨sin, hsin, tsin⟩ := exists_mapFloat_alike Trigonometry.sin hf tangle
  obtain ⟨p, hproduct, tp⟩ := exists_arithmetic_alike Arithmetic.mul hf tmagnitude tcos
  obtain ⟨q, hproduct', tq⟩ := exists_arithmetic_alike Arithmetic.mul hf tmagnitude tsin
  refine ⟨p, q, tq.trans tp.symm, congrArg TensorType.elementType tp, fun hv hp => ?_⟩
  simp only [polarProduct, hreal2, himag2, hnorm2, hmagnitudes, hangles, hmagnitude hv hp,
    hangle hv hp, hcos, hsin, hproduct, hproduct', ok_bind, pure_eq_ok]

end Tensor

namespace Lowering

open Dataflow (ValueId Graph)
open Dataflow.Graph (Scenario Denotes)

variable {b : Builder} {A F : Prop} {σ : Scenario} {data axes : ValueId} {table : Tensor}

namespace Runs

/-- A reduction along listed axes fails only if it computes nothing. -/
theorem reduce (kind : ReduceKind) (keepDims : Bool) {x : Option Tensor}
    (hx : Denotes σ b.graph data x) (haxes : Denotes σ b.graph axes (some table))
    (hrank : table.shape.length ≤ 1)
    (hF : (Op.reduce kind keepDims).result? [x, some table] = none → F) :
    Runs A b (Build.emit (.reduce kind keepDims) [data, axes]) F fun g id =>
      Denotes σ g id ((Op.reduce kind keepDims).result? [x, some table]) := by
  have hok : (Op.reduce kind keepDims).Accepts [x, some table] ∨ F := by
    cases hr : (Op.reduce kind keepDims).result? [x, some table] with
    | none => exact .inr (hF hr)
    | some r =>
      obtain ⟨t, u, rfl, ⟨⟩, hcompute⟩ := Op.result?_two_eq_some.mp hr
      obtain ⟨type, ht⟩ := Op.exists_inferReduce (.reduce kind keepDims) hcompute hrank
      exact .inl ⟨[t, table], r, type, rfl, hcompute, ht⟩
  exact imp (.emit nofun trivial nofun (.cons hx (.cons haxes .nil)) hok) id fun _ _ _ h => h.2

theorem reduce_known {kind : ReduceKind} {keepDims : Bool} {t v : Tensor}
    (ht : Denotes σ b.graph data (some t)) (haxes : Denotes σ b.graph axes (some table))
    (hrank : table.shape.length ≤ 1) (hv : t.reduce kind keepDims table = .ok v) :
    Runs A b (Build.emit (.reduce kind keepDims) [data, axes]) F fun g id =>
      Denotes σ g id (some v) := by
  have happly : (Op.reduce kind keepDims).result? [some t, some table] = some v :=
    Op.result?_two_eq_some.mpr ⟨t, table, rfl, rfl, hv⟩
  have hreduce := reduce (A := A) (F := F) kind keepDims ht haxes hrank
  rw [happly] at hreduce
  exact hreduce nofun

/-- What is emitted was not there before. -/
theorem emit_new {op : Op} {inputs : List ValueId} (hangle : op = .atan2 → A) :
    Runs A b (Build.emit op inputs) True fun _ id => b.graph.nodes.size ≤ id := by
  refine .of_add hangle (fun id g hadd => ?_) fun _ _ => trivial
  obtain ⟨_, _, _, -, -, -, -, hsize, -⟩ := Graph.add_eq_ok.mp hadd
  exact Nat.le_of_eq hsize.symm

theorem atan2 {y x : ValueId} {t u v : Tensor} (hA : A) (hy : Denotes σ b.graph y (some t))
    (hx : Denotes σ b.graph x (some u)) (hv : t.atan2 u = .ok v) :
    Runs A b (Build.emit .atan2 [y, x]) F fun g id =>
      (g.Has id .atan2 [y, x] ∧ Denotes σ g id (some v)) ∧ b.graph.nodes.size ≤ id := by
  have hcompute : Op.atan2.compute [t, u] = .ok v := hv
  obtain ⟨type, ht⟩ := Op.exists_inferAtan2 .atan2 hv
  have hok : Op.atan2.Accepts [some t, some u] ∨ F := .inl ⟨[t, u], v, type, rfl, hcompute, ht⟩
  have happly : Op.atan2.result? [some t, some u] = some v := Op.result?_of_compute hcompute
  have hin := List.Forall₂.cons hy (.cons hx .nil)
  refine and ?_ (emit_new fun _ => hA)
  rw [← happly]
  exact emit (fun _ => hA) trivial nofun hin hok

/-- The polar product of planes that are there takes angles, and does not fail. -/
theorem productByAngles {planes : Planes} {keepDims : Bool} {t u p q : Tensor} (hA : A)
    (hplanes : planes.Denote σ b.graph (some t) (some u))
    (haxes : Denotes σ b.graph axes (some table)) (hrank : table.shape.length ≤ 1)
    (hproduct : Tensor.polarProduct keepDims t u table = .ok (p, q)) :
    Runs A b (Lowering.productByAngles planes axes keepDims) F fun g out =>
      out.Denote σ g (some p) (some q) ∧
        ∃ id inputs, g.Has id .atan2 inputs ∧ b.graph.nodes.size ≤ id := by
  simp only [Tensor.polarProduct, bind_eq_ok, pure_eq_ok, Except.ok.injEq, Prod.mk.injEq] at hproduct
  obtain ⟨real2, hreal2, imag2, himag2, norm2, hnorm2, magnitudes, hmagnitudes, angles, hangles,
    magnitude, hmagnitude, angle, hangle, cos, hcos, sin, hsin, p, hp, q, hq, rfl, rfl⟩ := hproduct
  replace hreal2 : Op.multiply.compute [t, t] = .ok real2 := hreal2
  replace himag2 : Op.multiply.compute [u, u] = .ok imag2 := himag2
  replace hnorm2 : Op.add.compute [real2, imag2] = .ok norm2 := hnorm2
  replace hmagnitudes : Op.sqrt.compute [norm2] = .ok magnitudes := hmagnitudes
  replace hcos : Op.cos.compute [angle] = .ok cos := hcos
  replace hsin : Op.sin.compute [angle] = .ok sin := hsin
  replace hp : Op.multiply.compute [magnitude, cos] = .ok p := hp
  replace hq : Op.multiply.compute [magnitude, sin] = .ok q := hq
  unfold Lowering.productByAngles
  obtain ⟨dreal, dimag⟩ := hplanes
  refine .bind (.compute trivial hreal2 (.cons dreal (.cons dreal .nil))) fun _ c₁ h₁ dreal2 => ?_
  replace dimag := dimag.along h₁
  refine .bind (.compute trivial himag2 (.cons dimag (.cons dimag .nil))) fun _ c₂ h₂ dimag2 => ?_
  replace dreal2 := dreal2.along h₂
  refine .bind (.compute trivial hnorm2 (.cons dreal2 (.cons dimag2 .nil))) fun _ c₃ h₃ dnorm2 => ?_
  refine .bind (.compute trivial hmagnitudes (.cons dnorm2 .nil)) fun _ c₄ h₄ dmagnitudes => ?_
  have hbefore := ((h₁.trans h₂).trans h₃).trans h₄
  replace dreal := dreal.along hbefore
  replace dimag := dimag.along ((h₂.trans h₃).trans h₄)
  refine .bind (.atan2 hA dimag dreal hangles) fun _ c₅ h₅ dangles => ?_
  obtain ⟨⟨hangle2, dangles⟩, hnew⟩ := dangles
  replace dmagnitudes := dmagnitudes.along h₅
  replace haxes := haxes.along (hbefore.trans h₅)
  refine .bind (.reduce_known dmagnitudes haxes hrank hmagnitude) fun _ c₆ h₆ dmagnitude => ?_
  replace dangles := dangles.along h₆
  replace haxes := haxes.along h₆
  refine .bind (.reduce_known dangles haxes hrank hangle) fun _ c₇ h₇ dangle => ?_
  refine .bind (.compute trivial hcos (.cons dangle .nil)) fun _ c₈ h₈ dcos => ?_
  replace dangle := dangle.along h₈
  refine .bind (.compute trivial hsin (.cons dangle .nil)) fun _ c₉ h₉ dsin => ?_
  replace dcos := dcos.along h₉
  replace dmagnitude := dmagnitude.along ((h₇.trans h₈).trans h₉)
  refine .bind (.compute trivial hp (.cons dmagnitude (.cons dcos .nil))) fun _ c₁₀ h₁₀ dp => ?_
  replace dsin := dsin.along h₁₀
  replace dmagnitude := dmagnitude.along h₁₀
  refine .bind (.compute trivial hq (.cons dmagnitude (.cons dsin .nil))) fun _ c₁₁ h₁₁ dq => ?_
  have hafter := ((((h₆.trans h₇).trans h₈).trans h₉).trans h₁₀).trans h₁₁
  have hsize := hbefore.grows.toExtends.size_le
  exact .pure ⟨⟨dp.along h₁₁, dq⟩, _, _, hangle2.mono hafter.grows.toExtends, hsize.trans hnew⟩

end Runs

end Lowering

end TensorLowering
