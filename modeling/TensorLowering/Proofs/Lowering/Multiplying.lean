import TensorLowering.Proofs.Lowering.Halving
import TensorLowering.Proofs.Lowering.Running
import TensorLowering.Proofs.Tensor.Pairs

/-!
# Multiplying by halves

The programs that multiply the elements along axes, on planes that stand for tables of complex
numbers (`AreTables`): taking a slice, multiplying two tables, all rounds on an axis
(`Runs.multiplyAlong`), and all axes one after the other (`Runs.productByHalving`). None of them
fails, and the table they lead to is the one that `combineAll` makes of the elements.
-/

namespace TensorLowering.Lowering

open Dataflow (ValueId Graph)
open Dataflow.Graph (Scenario Denotes)
open Shape (collapse Within collapse_self)

variable {b : Builder} {A F : Prop} {σ : Scenario} {g : Graph} {e : ElementType} {planes : Planes}
  {shape : List Nat} {f f' : List Nat → e.Carrier × e.Carrier}

/-! ## Tables -/

/-- The planes stand for the tables of the real and of the imaginary parts. -/
def Planes.AreTables (σ : Scenario) (g : Graph) (planes : Planes) (shape : List Nat)
    (f : List Nat → e.Carrier × e.Carrier) : Prop :=
  planes.Denote σ g (some (.tabulate e shape fun c => (f c).1))
    (some (.tabulate e shape fun c => (f c).2))

namespace Planes.AreTables

theorem along {g' : Graph} (h : planes.AreTables σ g shape f) (hg : g.Leads A g') :
    planes.AreTables σ g' shape f :=
  Planes.Denote.along h hg

theorem congr (h : planes.AreTables σ g shape f) (hf : ∀ c, Within c shape → f c = f' c) :
    planes.AreTables σ g shape f' := by
  unfold AreTables at h ⊢
  rwa [← Tensor.tabulate_congr fun c hc => congrArg Prod.fst (hf c hc),
    ← Tensor.tabulate_congr fun c hc => congrArg Prod.snd (hf c hc)]

end Planes.AreTables

/-- The product of complex numbers with parts of a type that has the arithmetic. -/
abbrev Arithmetic.complexMul {α : Type} (a : Arithmetic α) : α × α → α × α → α × α :=
  Lowering.complexMul a.add a.sub a.mul

section Halves

variable {β : Type} {combine : β → β → β} {axis size : Nat} {h : List Nat → β} {c : List Nat}

/-- In the lower half of an axis, what the slices of both halves are combined to. -/
theorem halve_of_lt (hi : c.getD axis 0 < size / 2) : halve combine axis size h c =
    combine (h (c.set axis (0 + c.getD axis 0))) (h (c.set axis (size / 2 + c.getD axis 0))) := by
  have hlt : axis < c.length ∨ c.length ≤ axis := Nat.lt_or_ge axis c.length
  have hself : c.set axis (0 + c.getD axis 0) = c := by
    rcases hlt with hlt | hge
    · simp [hlt]
    · exact List.set_eq_of_length_le hge
  rw [halve, if_pos hi, hself]

/-- Behind the lower half there is at most one more element, the last one. -/
theorem halve_of_not_lt (hlt : axis < c.length) (hi : c.getD axis 0 = size / 2) :
    halve combine axis size h c =
      h ((c.set axis (c.getD axis 0 - size / 2)).set axis
        (size - 1 + (c.set axis (c.getD axis 0 - size / 2)).getD axis 0)) := by
  have hzero : (c.set axis (c.getD axis 0 - size / 2)).getD axis 0 = 0 := by
    simp [hlt] at hi ⊢
    omega
  rw [halve, if_neg (by omega), hzero, List.set_set, Nat.add_zero]

/-- On an axis of odd size: both slices combined, and the last element behind them. -/
theorem halve_eq_ite (hlt : axis < c.length) (hi : c.getD axis 0 ≤ size / 2) :
    halve combine axis size h c = if c.getD axis 0 < size / 2 then
      combine (h (c.set axis (0 + c.getD axis 0))) (h (c.set axis (size / 2 + c.getD axis 0)))
    else h ((c.set axis (c.getD axis 0 - size / 2)).set axis
      (size - 1 + (c.set axis (c.getD axis 0 - size / 2)).getD axis 0)) := by
  split
  · rename_i hlower
    exact halve_of_lt hlower
  · rename_i hlower
    exact halve_of_not_lt hlt (Nat.le_antisymm hi (Nat.not_lt.mp hlower))

end Halves

namespace Runs

/-- Emitting an operation that computes something from tensors that are there. -/
theorem compute {op : Op} {inputs : List ValueId} {vs : List Tensor} {v : Tensor}
    (hop : op.ChecksAll) (hv : op.compute vs = .ok v)
    (hin : List.Forall₂ (Denotes σ b.graph) inputs (vs.map some)) :
    Runs A b (Build.emit op inputs) F fun g id => Denotes σ g id (some v) :=
  .apply_eq hop hin (Op.result?_of_compute hv) nofun

theorem gather {axis : Int} {data indices : ValueId} {t u v : Tensor}
    (ht : Denotes σ b.graph data (some t)) (hu : Denotes σ b.graph indices (some u))
    (hv : t.gather axis u = .ok v) :
    Runs A b (Build.emit (.gather axis) [data, indices]) F fun g id => Denotes σ g id (some v) :=
  have hcompute : (Op.gather axis).compute [t, u] = .ok v := hv
  compute trivial hcompute (.cons ht (.cons hu .nil))

theorem concat {axis : Int} {first second : ValueId} {t u v : Tensor}
    (ht : Denotes σ b.graph first (some t)) (hu : Denotes σ b.graph second (some u))
    (hv : Tensor.concat axis t [u] = .ok v) :
    Runs A b (Build.emit (.concat axis) [first, second]) F fun g id => Denotes σ g id (some v) :=
  have hcompute : (Op.concat axis).compute [t, u] = .ok v := hv
  compute trivial hcompute (.cons ht (.cons hu .nil))

theorem squeeze {axes : List Int} {data : ValueId} {t v : Tensor}
    (ht : Denotes σ b.graph data (some t)) (hv : t.squeeze axes = .ok v) :
    Runs A b (Build.emit (.squeeze axes) [data]) F fun g id => Denotes σ g id (some v) :=
  have hcompute : (Op.squeeze axes).compute [t] = .ok v := hv
  compute trivial hcompute (.cons ht .nil)

theorem slice {axis size start count : Nat} (hp : planes.AreTables σ b.graph shape f)
    (hsize : shape[axis]? = some size) (hword : size < 9223372036854775808)
    (hle : start + count ≤ size) (hcapacity : count < 1152921504606846976) :
    Runs A b (planes.slice axis start count) F fun g out =>
      out.AreTables σ g (shape.set axis count) fun c => f (c.set axis (start + c.getD axis 0)) := by
  have hindices : indicesFrom start count = .ok ((List.range' start count).map Int.ofNat) :=
    if_pos (by omega)
  unfold Planes.slice
  refine .query_bind hindices (.bind (.ints _) fun indices c₁ h₁ hi => ?_)
  have hp := hp.along h₁
  have hgather (u : List Nat → e.Carrier) := Tensor.gather_range (f := u) hsize hword hle
  refine .bind (.gather hp.real (hi σ) (hgather _)) fun real c₂ h₂ hreal => ?_
  refine .bind (.gather (hp.imag.along h₂) ((hi σ).along h₂) (hgather _)) fun imag c₃ h₃ himag => ?_
  exact .pure ⟨hreal.along h₃, himag⟩

theorem mul_tables {lhs rhs : Planes} {a : Arithmetic e.Carrier} (ha : e.arithmetic? = some a)
    (hl : lhs.AreTables σ b.graph shape f) (hr : rhs.AreTables σ b.graph shape f') :
    Runs A b (lhs.mul rhs) F fun g out =>
      out.AreTables σ g shape fun c => Arithmetic.complexMul a (f c) (f' c) := by
  have hop (op : Op) (operation : {α : Type} → Arithmetic α → α → α → α)
      (hop : ∀ vs, op.compute vs = op.binary vs (Tensor.arithmetic operation))
      (u v : List Nat → e.Carrier) :
      op.result? [some (.tabulate e shape u), some (.tabulate e shape v)] =
        some (.tabulate e shape fun c => operation a (u c) (v c)) := by
    rw [Op.result?_two, hop]
    exact congrArg Except.toOption (Tensor.arithmetic_tabulate ha operation)
  have hmul := hop .multiply Arithmetic.mul fun _ => rfl
  have hsub := hop .subtract Arithmetic.sub fun _ => rfl
  have hadd := hop .add Arithmetic.add fun _ => rfl
  have hproduct := Runs.mul (A := A) hl hr rfl (F := F) (by
    intro hnone
    rw [productReal?, hmul, hmul, hsub] at hnone
    cases hnone)
  rw [productReal?, productImag?, hmul, hmul, hmul, hmul, hsub, hadd] at hproduct
  exact hproduct

/-- All rounds on an axis that is not empty, by induction on its size. -/
theorem multiplyAlong {axis size : Nat} {a : Arithmetic e.Carrier} (ha : e.arithmetic? = some a)
    (hp : planes.AreTables σ b.graph shape f) (hsize : shape[axis]? = some size)
    (hpos : 0 < size) (hword : size < 2305843009213693952) :
    Runs A b (Lowering.multiplyAlong axis size planes) F fun g out =>
      out.AreTables σ g (shape.set axis 1)
        (combineAlong (Arithmetic.complexMul a) axis size f) := by
  induction size using Nat.strong_induction_on generalizing b planes shape f with
  | _ size ih =>
    obtain ⟨hlt, hget⟩ := List.getElem?_eq_some_iff.mp hsize
    rw [Lowering.multiplyAlong]
    by_cases hone : size ≤ 1
    · obtain rfl : size = 1 := by omega
      rw [dif_pos hone, combineAlong_of_le hone, ← hget, List.set_getElem_self]
      exact .pure hp
    have hset (n : Nat) : (shape.set axis n)[axis]? = some n := List.getElem?_set_self hlt
    have hnext {c : Builder} {next : Planes}
        (hnext : next.AreTables σ c.graph (shape.set axis (size / 2 + size % 2))
          (halve (Arithmetic.complexMul a) axis size f)) :
        Runs A c (Lowering.multiplyAlong axis (size / 2 + size % 2) next) F fun g out =>
          out.AreTables σ g (shape.set axis 1)
            (combineAlong (Arithmetic.complexMul a) axis size f) := by
      have hrest := ih _ (by omega) hnext (hset _) (by omega) (by omega)
      rwa [List.set_set, ← combineAlong_of_lt (Nat.not_le.mp hone)] at hrest
    rw [dif_neg hone]
    refine .bind (.slice hp hsize (by omega) (by omega) (by omega)) fun lower c₁ h₁ hlower => ?_
    have hp := hp.along h₁
    refine .bind (.slice hp hsize (by omega) (by omega) (by omega)) fun upper c₂ h₂ hupper => ?_
    have hp := hp.along h₂
    refine .bind (.mul_tables ha (hlower.along h₂) hupper) fun folded c₃ h₃ hfolded => ?_
    have hp := hp.along h₃
    by_cases hodd : size % 2 = 1
    · rw [if_pos hodd]
      refine .bind (.slice hp hsize (by omega) (by omega) (by omega)) fun last c₄ h₄ hlast => ?_
      have hfolded := hfolded.along h₄
      have hconcat (u v : List Nat → e.Carrier) :=
        Tensor.concat_along (m := size / 2) (n := 1) (f := u) (g := v) hlt
      refine .bind (.concat hfolded.real hlast.real (hconcat _ _)) fun real c₅ h₅ hreal => ?_
      refine .bind (.concat (hfolded.imag.along h₅) (hlast.imag.along h₅) (hconcat _ _)) ?_
      intro imag c₆ h₆ himag
      have htables : (Planes.mk real imag).AreTables σ c₆.graph (shape.set axis (size / 2 + 1))
          fun c => if c.getD axis 0 < size / 2 then
            Arithmetic.complexMul a (f (c.set axis (0 + c.getD axis 0)))
              (f (c.set axis (size / 2 + c.getD axis 0)))
          else f ((c.set axis (c.getD axis 0 - size / 2)).set axis
            (size - 1 + (c.set axis (c.getD axis 0 - size / 2)).getD axis 0)) := by
        simp only [Planes.AreTables, apply_ite Prod.fst, apply_ite Prod.snd]
        exact ⟨hreal.along h₆, himag⟩
      rw [hodd] at hnext ⊢
      refine hnext (htables.congr fun c hc => (halve_eq_ite ?_ ?_).symm)
      · rwa [hc.length_eq, List.length_set]
      · exact Nat.le_of_lt_succ (Shape.getD_lt_of_within_set hc hlt)
    · rw [if_neg hodd]
      refine hnext ?_
      have heven : size / 2 + size % 2 = size / 2 := by omega
      rw [heven]
      exact hfolded.congr fun c hc => (halve_of_lt (Shape.getD_lt_of_within_set hc hlt)).symm

/-- All rounds on each of the axes, by induction on the axes. -/
theorem multiplyAll {known : List KnownAxis} {a : Arithmetic e.Carrier}
    (ha : e.arithmetic? = some a) (hp : planes.AreTables σ b.graph shape f)
    (hnodup : (known.map (·.axis)).Nodup)
    (hknown : ∀ k ∈ known, shape[k.axis]? = some k.size ∧ 0 < k.size ∧
      k.size < 2305843009213693952) :
    Runs A b (known.foldlM (fun planes k => Lowering.multiplyAlong k.axis k.size planes) planes) F
      fun g out => out.AreTables σ g (collapse 1 true (known.map (·.axis)) shape)
        (combineAll (Arithmetic.complexMul a) known f) := by
  induction known generalizing b planes shape f with
  | nil =>
    rw [List.map_nil, Shape.collapse_nil]
    exact .pure hp
  | cons k known ih =>
    obtain ⟨hk, hnodup⟩ := List.nodup_cons.mp hnodup
    obtain ⟨⟨hsize, hpos, hword⟩, hknown⟩ := List.forall_mem_cons.mp hknown
    rw [List.foldlM_cons, combineAll_cons]
    refine .bind (.multiplyAlong ha hp hsize hpos hword) fun next c _ hnext => ?_
    rw [List.map_cons, Shape.collapse_keep_cons]
    refine ih hnext hnodup fun l hl => ?_
    rw [List.getElem?_set_ne (axis_ne hk hl)]
    exact hknown l hl

/-- What the rounds on all axes have led to stands in the result, with or without the axes. -/
theorem productByHalving {known : List KnownAxis} {a : Arithmetic e.Carrier} (keepDims : Bool)
    (ha : e.arithmetic? = some a) (hp : planes.AreTables σ b.graph shape f)
    (hnodup : (known.map (·.axis)).Nodup)
    (hknown : ∀ k ∈ known, shape[k.axis]? = some k.size ∧ 0 < k.size ∧
      k.size < 2305843009213693952) :
    Runs A b (Lowering.productByHalving planes known keepDims) F fun g out =>
      ∃ h, out.AreTables σ g (collapse 1 keepDims (known.map (·.axis)) shape) h ∧
        ∀ c, Within c (collapse 1 true (known.map (·.axis)) shape) →
          h (collapse 0 keepDims (known.map (·.axis)) c) =
            combineAll (Arithmetic.complexMul a) known f c := by
  unfold Lowering.productByHalving
  refine .bind (.multiplyAll ha hp hnodup hknown) fun product c₁ _ hproduct => ?_
  have hrest := Shape.collapse_collapse_keep 1 keepDims (known.map (·.axis)) shape
  by_cases hkeep : (keepDims || known.isEmpty) = true
  · have hself {α : Type} (one : α) (xs : List α) :
        collapse one keepDims (known.map (·.axis)) xs = collapse one true (known.map (·.axis)) xs := by
      rcases Bool.or_eq_true_iff.mp hkeep with hkeep | hempty
      · rw [hkeep]
      · rw [List.isEmpty_iff.mp hempty, List.map_nil, Shape.collapse_nil, Shape.collapse_nil]
    rw [if_pos hkeep, hself 1 shape]
    refine .pure ⟨_, hproduct, fun c hc => ?_⟩
    rw [hself 0 c, collapse_self hc]
  · obtain ⟨hkeep', hempty⟩ : keepDims = false ∧ known ≠ [] := by
      simpa using hkeep
    rw [if_neg hkeep]
    have hne : known.map (·.axis) ≠ [] := fun h => hempty (List.map_eq_nil_iff.mp h)
    have hones : ∀ i ∈ known.map (·.axis),
        (collapse 1 true (known.map (·.axis)) shape)[i]? = some 1 := fun i hi => by
      obtain ⟨k, hk, rfl⟩ := List.mem_map.mp hi
      rw [Shape.getElem?_collapse_keep, (hknown k hk).1, Option.map_some, if_pos hi]
    have hsqueeze (u : List Nat → e.Carrier) := Tensor.squeeze_tabulate (f := u) hne hones
    rw [List.map_map] at hsqueeze
    refine .bind (.squeeze hproduct.real (hsqueeze _)) fun real c₂ h₂ hreal => ?_
    refine .bind (.squeeze (hproduct.imag.along h₂) (hsqueeze _)) fun imag c₃ h₃ himag => ?_
    rw [hkeep'] at hrest ⊢
    rw [← hrest]
    refine .pure ⟨fun c => combineAll (Arithmetic.complexMul a) known f (Shape.insertOnes 0
      (known.map (·.axis)) (List.range (collapse 1 true (known.map (·.axis)) shape).length) c),
      ⟨hreal.along h₃, himag⟩, fun p hp => ?_⟩
    exact congrArg _ (Shape.insertOnes_collapse hones hp)

theorem toComplex_tables {partType : ElementType} (hpart : partType = e) (hfloat : e.isFloat = true)
    (hp : planes.AreTables σ b.graph shape f) :
    Runs A b (planes.toComplex partType) F fun g lowered => ∃ r, lowered = .complex r ∧
      r.partType = e ∧ r.Denotes σ g (some (.ofPairs e shape f)) := by
  obtain ⟨p, hpack, htype, hreal, himag⟩ :=
    exists_pack? (t := .tabulate e shape fun c => (f c).1)
      (y := some (.tabulate e shape fun c => (f c).2)) rfl
  obtain rfl : p = .ofPairs e shape f :=
    Tensor.eq_ofPairs htype hreal (Option.some.inj himag).symm
  rw [hpart]
  refine .imp (.toComplex hp rfl hfloat ?_ nofun) id fun g lowered _ h => ?_
  · intro t ht
    obtain rfl := Option.some.inj ht
    rfl
  · rwa [hpack] at h

theorem planes_tables {z : ComplexValue}
    (hz : Graph.Denotes σ b.graph z.packed (some (.ofPairs e shape f))) :
    Runs A b z.planes F fun g planes => planes.AreTables σ g shape f := by
  have hpairs : ArePairs (some (Tensor.ofPairs e shape f)) := fun p hp => by
    rw [← Option.some.inj hp, Tensor.shape_ofPairs, List.getLast?_concat]
  refine .imp (.planes hz hpairs nofun) id fun g planes _ h => ?_
  rwa [Option.map_some, Option.map_some, Tensor.plane_ofPairs.1, Tensor.plane_ofPairs.2] at h

/-- How the real plane is taken. -/
theorem planes_has {z : ComplexValue} : Runs A b z.planes True fun g planes =>
    ∃ i, g.Has planes.real (.gather (-1)) [z.packed, i] ∧ g.Has i (.constant (.ofInt 0)) [] := by
  unfold ComplexValue.planes Build.int Build.constant
  refine .bind (.emit_any trivial nofun) fun realIndex c₁ _ hi => ?_
  refine .bind (.emit_any trivial nofun) fun imagIndex c₂ h₂ _ => ?_
  refine .bind (.emit_any trivial nofun) fun real c₃ h₃ hreal => ?_
  refine .bind (.emit_any trivial nofun) fun imag c₄ h₄ _ => ?_
  have hlast := h₄.grows.toExtends
  have hrest := (h₂.trans h₃).grows.toExtends
  exact .pure ⟨realIndex, hreal.mono hlast, (hi.mono hrest).mono hlast⟩

end Runs

end TensorLowering.Lowering
