import TensorLowering.Lowering.Rule.Arithmetic
import TensorLowering.Lowering.Rule.Complex
import TensorLowering.Lowering.Rule.Pad
import TensorLowering.Lowering.Rule.Select
import TensorLowering.Proofs.Lowering.Checks
import TensorLowering.Proofs.Lowering.Preparing

/-!
# What rules make of planes

Sums, differences, selections and paddings of complex tensors: what the result has as its planes is
what the same rule makes of the planes of the operands. For each of them there is one function on
tensors that may be missing, and two runs: of the rule on plain operands, and of the rule on complex
operands, which packs the function's results for the real and for the imaginary planes.
-/

namespace TensorLowering.Lowering

open Dataflow (ValueId Graph)
open Dataflow.Graph (Scenario Denotes)

variable {b : Builder} {A F : Prop} {σ : Scenario} {node : ResolvedNode} {e : ElementType}

/-! ## Operands -/

/-- A complex operand with parts of the type: its packed tensor has pairs of them. -/
structure ComplexValue.IsOperand (σ : Scenario) (g : Graph) (e : ElementType) (z : ComplexValue)
    (x : Option Tensor) : Prop extends z.Denotes σ g x where
  partType : z.partType = e
  pairs : ArePairs x
  elementType : ∀ p, x = some p → p.elementType = e

theorem ComplexValue.IsOperand.along {g g' : Graph} {z : ComplexValue} {x : Option Tensor}
    (h : z.IsOperand σ g e x) (hg : g.Leads A g') : z.IsOperand σ g' e x :=
  { h.toDenotes.along hg with partType := h.partType, pairs := h.pairs, elementType := h.elementType }

/-- The tensor of one plane. -/
def plane? (k : Nat) (x : Option Tensor) : Option Tensor :=
  x.map (·.plane k)

theorem sameType_plane? (x : Option Tensor) (k l : Nat) :
    Op.SameType (plane? k x) (plane? l x) := by
  cases x <;> rfl

theorem plane?_eq_none {k : Nat} {x : Option Tensor} : plane? k x = none ↔ x = none :=
  Option.map_eq_none_iff

theorem elementType_plane? {k : Nat} {x : Option Tensor}
    (hx : ∀ p, x = some p → p.elementType = e) :
    ∀ t, plane? k x = some t → t.elementType = e := by
  intro t ht
  obtain ⟨p, rfl, rfl⟩ := Option.map_eq_some_iff.mp ht
  exact hx p rfl

/-- Taking the planes of an operand. -/
theorem Runs.operand_planes {z : ComplexValue} {x : Option Tensor}
    (hz : z.IsOperand σ b.graph e x) (hF : x = none → F) :
    Runs A b z.planes F fun g planes => planes.Denote σ g (plane? 0 x) (plane? 1 x) :=
  .planes hz.packed hz.pairs hF

/-! ## Sums and differences -/

/-- The operation gives what the function makes of its inputs, which treats planes alike. -/
structure PlaneOperation (operation : List ValueId → Build ValueId)
    (f : List (Option Tensor) → Option Tensor) : Prop where
  runs : ∀ {A σ b F values ys}, List.Forall₂ (Denotes σ b.graph) values ys → (f ys = none → F) →
    Runs A b (operation values) F fun g id => Denotes σ g id (f ys)
  sameType : ∀ {ys ys'}, List.Forall₂ Op.SameType ys ys' → Op.SameType (f ys) (f ys')
  elementType : ∀ {e ys}, (∀ y ∈ ys, ∀ t, y = some t → t.elementType = e) →
    ∀ t, f ys = some t → t.elementType = e
  none : ∀ {ys}, none ∈ ys → f ys = none

theorem elementType_arithmetic {op : Op} (hop : op.IsArithmetic) {ys : List (Option Tensor)}
    (hys : ∀ y ∈ ys, ∀ t, y = some t → t.elementType = e) (t : Tensor) (ht : op.result? ys = some t) :
    t.elementType = e := by
  obtain ⟨vs, rfl, hcompute⟩ := Op.result?_eq_some.mp ht
  obtain ⟨operation, heq⟩ := hop.compute_eq
  rw [heq] at hcompute
  obtain ⟨u, v, rfl, hcompute⟩ := Op.binary_eq_ok.mp hcompute
  obtain ⟨shape, -, htype⟩ := Tensor.type_arithmetic hcompute
  exact (congrArg TensorType.elementType htype).trans (hys (some u) List.mem_cons_self u rfl)

theorem planeOperation_emit {op : Op} (hop : op.IsArithmetic) :
    PlaneOperation (Build.emit op) op.result? where
  runs hvalues hF := by
    have hchecks : op.ChecksAll := by
      cases op <;> trivial
    exact .imp (.apply hchecks hvalues hF) id fun _ _ _ h => h.2
  sameType := Op.TypesLike.result? (Op.typesLike_arithmetic hop hop) (Op.typesLike_arithmetic hop hop)
  elementType hys := elementType_arithmetic hop hys
  none := Op.result?_of_none_mem

/-- The sum of the tensors from left to right. -/
def sum? : List (Option Tensor) → Option Tensor
  | [] => none
  | y :: ys => ys.foldl (fun sum y => Op.add.result? [sum, y]) y

theorem sum?_cons_cons {y z : Option Tensor} {ys : List (Option Tensor)} :
    sum? (y :: z :: ys) = sum? (Op.add.result? [y, z] :: ys) := rfl

theorem sum?_of_none_mem {ys : List (Option Tensor)} (h : none ∈ ys) : sum? ys = none := by
  cases ys with
  | nil => rfl
  | cons y ys =>
    induction ys generalizing y with
    | nil => exact (List.mem_singleton.mp h).symm
    | cons z ys ih =>
      rw [sum?_cons_cons]
      by_cases hyz : none ∈ [y, z]
      · exact ih _ (by rw [Op.result?_of_none_mem hyz]; exact .head _)
      · have hys : none ∈ ys := by
          have hsplit : none ∈ [y, z] ++ ys := h
          exact (List.mem_append.mp hsplit).resolve_left hyz
        exact ih _ (.tail _ hys)

theorem sameType_sum? {ys ys' : List (Option Tensor)} (h : List.Forall₂ Op.SameType ys ys') :
    Op.SameType (sum? ys) (sum? ys') := by
  obtain _ | @⟨y, y', ys, ys', hy, hys⟩ := h
  · rfl
  · induction hys generalizing y y' with
    | nil => exact hy
    | cons hz _ ih => exact ih (Op.sameType_arithmetic trivial trivial hy hz)

theorem elementType_sum? {ys : List (Option Tensor)}
    (hys : ∀ y ∈ ys, ∀ t, y = some t → t.elementType = e) :
    ∀ t, sum? ys = some t → t.elementType = e := by
  cases ys with
  | nil => nofun
  | cons y ys =>
    induction ys generalizing y with
    | nil => exact hys y (.head _)
    | cons z ys ih =>
      obtain ⟨hy, hys⟩ := List.forall_mem_cons.mp hys
      obtain ⟨hz, hys⟩ := List.forall_mem_cons.mp hys
      have hop : Op.add.IsArithmetic := trivial
      have hsum : ∀ t, Op.add.result? [y, z] = some t → t.elementType = e :=
        elementType_arithmetic hop
          (List.forall_mem_cons.mpr ⟨hy, List.forall_mem_singleton.mpr hz⟩)
      exact ih _ (List.forall_mem_cons.mpr ⟨hsum, hys⟩)

theorem Runs.sum {values : List ValueId} {ys : List (Option Tensor)} {first : ValueId}
    {y : Option Tensor} (hfirst : Denotes σ b.graph first y)
    (hvalues : List.Forall₂ (Denotes σ b.graph) values ys) (hF : sum? (y :: ys) = none → F) :
    Runs A b (values.foldlM (fun sum value => Build.emit .add [sum, value]) first) F fun g id =>
      Denotes σ g id (sum? (y :: ys)) := by
  induction values generalizing b ys first y with
  | nil =>
    obtain rfl := List.forall₂_nil_left_iff.mp hvalues
    exact .pure hfirst
  | cons value values ih =>
    obtain ⟨z, zs, hz, hzs, rfl⟩ := List.forall₂_cons_left_iff.mp hvalues
    rw [List.foldlM_cons]
    refine .bind (.apply_eq trivial (.cons hfirst (.cons hz .nil)) rfl fun h => hF ?_) ?_
    · rw [sum?_cons_cons, h]
      exact sum?_of_none_mem (.head _)
    intro sum c hc hsum
    exact (ih hsum (hzs.imp fun _ _ h => h.along hc) hF :)

theorem planeOperation_sumOf : PlaneOperation (Rule.sumOf node) sum? where
  runs hvalues hF := by
    obtain _ | ⟨hfirst, hvalues⟩ := hvalues
    · exact .throw (hF rfl)
    · exact .sum hfirst hvalues hF
  sameType := sameType_sum?
  elementType := elementType_sum?
  none := sum?_of_none_mem

theorem commonMarking_plain (values : List ValueId) :
    node.commonMarking (values.map .plain) = .ok (.plain values) := by
  have hnone : (values.map Lowered.plain).filterMap Lowered.complex? = [] := by
    simp [List.filterMap_map, Lowered.complex?, Function.comp_def]
  rw [ResolvedNode.commonMarking, hnone]
  simp [Function.comp_def, Lowered.value]

theorem commonMarking_complex {zs : List ComplexValue} (hne : zs ≠ [])
    (he : ∀ z ∈ zs, z.partType = e) :
    node.commonMarking (zs.map .complex) = .ok (.complex e zs) := by
  obtain ⟨first, others, rfl⟩ := List.exists_cons_of_ne_nil hne
  obtain ⟨rfl, hothers⟩ := List.forall_mem_cons.mp he
  have hsome : ((first :: others).map Lowered.complex).filterMap Lowered.complex? =
      first :: others := by
    simp [List.filterMap_map, Lowered.complex?, Function.comp_def]
  have hsame : others.find? (·.partType != first.partType) = none := by
    rw [List.find?_eq_none]
    exact fun z hz => by simp [hothers z hz]
  rw [ResolvedNode.commonMarking, hsome]
  simp [hsame]

theorem pairMarking_complex {z w : ComplexValue} (hz : z.partType = e) (hw : w.partType = e) :
    node.pairMarking (.complex z) (.complex w) = .ok (.complex e z w) := by
  subst hz
  exact if_pos hw

section

variable {operation : List ValueId → Build ValueId} {f : List (Option Tensor) → Option Tensor}

theorem Runs.planewise_plain (hop : PlaneOperation operation f) {values : List ValueId}
    {ys : List (Option Tensor)} (hvalues : List.Forall₂ (Denotes σ b.graph) values ys)
    (hF : f ys = none → F) :
    Runs A b (planewise node (values.map .plain) operation) F fun g lowered =>
      ∃ v, lowered = .plain v ∧ Denotes σ g v (f ys) := by
  unfold planewise
  refine .liftM_bind (commonMarking_plain values) ?_
  refine .bind (hop.runs hvalues hF) fun v c _ hv => ?_
  exact .pure ⟨v, rfl, hv⟩

theorem Runs.mapM_planes {zs : List ComplexValue} {xs : List (Option Tensor)}
    (hzs : List.Forall₂ (fun z x => z.IsOperand σ b.graph e x) zs xs) (hF : none ∈ xs → F) :
    Runs A b (zs.mapM ComplexValue.planes) F fun g planes =>
      List.Forall₂ (Denotes σ g) (planes.map (·.real)) (xs.map (plane? 0)) ∧
        List.Forall₂ (Denotes σ g) (planes.map (·.imag)) (xs.map (plane? 1)) := by
  have hplanes : Runs A b (zs.mapM ComplexValue.planes) F fun g planes =>
      List.Forall₂ (fun planes x => planes.Denote σ g (plane? 0 x) (plane? 1 x)) planes xs := by
    refine .mapM (P := fun g (z : ComplexValue) x => z.IsOperand σ g e x)
      (T := fun g (planes : Planes) x => planes.Denote σ g (plane? 0 x) (plane? 1 x)) ?_ ?_ ?_ hzs
    · exact fun hz hg => hz.along hg
    · exact fun hp hg => hp.along hg
    · exact fun hx hz => .operand_planes hz fun h => hF (h ▸ hx)
  refine hplanes.imp id fun g planes _ h => ?_
  simp only [List.forall₂_map_left_iff, List.forall₂_map_right_iff]
  exact ⟨h.imp fun _ _ h => h.real, h.imp fun _ _ h => h.imag⟩

/-- What is packed of tensors with elements of the part type is an operand again. -/
theorem ComplexValue.isOperand_pack? {g : Graph} {z : ComplexValue} {x y : Option Tensor}
    (hpart : z.partType = e) (hz : z.Denotes σ g (pack? x y)) (hsame : Op.SameType x y)
    (hx : ∀ t, x = some t → t.elementType = e) : z.IsOperand σ g e (pack? x y) where
  toDenotes := hz
  partType := hpart
  pairs := arePairs_pack? hsame
  elementType p hp := by
    obtain ⟨hreal, -⟩ := plane_pack? hsame
    rw [hp] at hreal
    exact hx (p.plane 0) hreal.symm

/-- The results for the two planes are packed. -/
theorem Runs.planewise_complex (hop : PlaneOperation operation f) (hfloat : e.isFloat = true)
    {zs : List ComplexValue} {xs : List (Option Tensor)} (hne : zs ≠ [])
    (hzs : List.Forall₂ (fun z x => z.IsOperand σ b.graph e x) zs xs)
    (hF : f (xs.map (plane? 0)) = none → F) :
    Runs A b (planewise node (zs.map .complex) operation) F fun g lowered => ∃ z,
      lowered = .complex z ∧
        z.IsOperand σ g e (pack? (f (xs.map (plane? 0))) (f (xs.map (plane? 1)))) := by
  have hpart : ∀ z ∈ zs, z.partType = e := fun z hz => by
    obtain ⟨x, -, hx⟩ := exists_of_forall₂_left hzs hz
    exact hx.partType
  have helements : ∀ t, f (xs.map (plane? 0)) = some t → t.elementType = e := by
    refine hop.elementType fun y hy t ht => ?_
    obtain ⟨x, hx, rfl⟩ := List.mem_map.mp hy
    obtain ⟨z, -, hz⟩ := exists_of_forall₂_right hzs hx
    exact elementType_plane? hz.elementType t ht
  have hsame : Op.SameType (f (xs.map (plane? 0))) (f (xs.map (plane? 1))) := by
    refine hop.sameType ?_
    rw [List.forall₂_map_left_iff, List.forall₂_map_right_iff]
    exact List.forall₂_same.mpr fun x _ => sameType_plane? x 0 1
  have himagF : f (xs.map (plane? 1)) = none → F := fun h => hF (by
    rw [h] at hsame
    exact Option.map_eq_none_iff.mp hsame)
  have hnone : none ∈ xs → F := fun h => hF (hop.none (List.mem_map.mpr ⟨none, h, rfl⟩))
  unfold planewise
  refine .liftM_bind (commonMarking_complex hne hpart) ?_
  refine .bind (.mapM_planes hzs hnone) fun planes c hc hplanes => ?_
  refine .bind (hop.runs hplanes.1 hF) fun real c₁ h₁ hreal => ?_
  have himags := hplanes.2.imp fun _ _ h => h.along h₁
  refine .bind (hop.runs himags himagF) fun imag c₂ h₂ himag => ?_
  refine .imp (.toComplex ⟨hreal.along h₂, himag⟩ hsame hfloat helements hF) id ?_
  rintro g lowered _ ⟨z, rfl, hz, hdenotes⟩
  exact ⟨z, rfl, ComplexValue.isOperand_pack? hz hdenotes hsame helements⟩

end

/-! ## Rules for sums and differences -/

theorem check_ok {minInputs : Nat} {opTypes : List String} (hop : node.opType ∈ opTypes)
    (hlen : minInputs ≤ node.inputs.length) : node.check minInputs opTypes true = .ok () :=
  ResolvedNode.check_eq_ok.mpr ⟨hop, hlen, .inl rfl⟩

section

variable {source : Source.Node} {opTypes : List String} {name : String} {op : Op}
  {x y : Option Tensor}

theorem Runs.perPlane_plain (hop : op.IsArithmetic) (hmem : source.opType ∈ opTypes)
    {v w : ValueId} (hx : Denotes σ b.graph v x) (hy : Denotes σ b.graph w y)
    (hF : op.result? [x, y] = none → F) :
    Runs A b ((Rule.perPlane name opTypes op).lower ⟨source, [.plain v, .plain w]⟩) F
      fun g outputs => ∃ v, outputs = [.plain v] ∧ Denotes σ g v (op.result? [x, y]) := by
  unfold Rule.perPlane
  refine .liftM_bind (check_ok hmem (Nat.le_refl _)) ?_
  refine .liftM_bind rfl (.liftM_bind rfl ?_)
  refine .bind (.planewise_plain (planeOperation_emit hop) (.cons hx (.cons hy .nil)) hF) ?_
  rintro lowered c _ ⟨v, rfl, hv⟩
  exact .pure ⟨v, rfl, hv⟩

theorem Runs.perPlane_complex (hop : op.IsArithmetic) (hfloat : e.isFloat = true)
    (hmem : source.opType ∈ opTypes) {z w : ComplexValue} (hz : z.IsOperand σ b.graph e x)
    (hw : w.IsOperand σ b.graph e y) (hF : op.result? [plane? 0 x, plane? 0 y] = none → F) :
    Runs A b ((Rule.perPlane name opTypes op).lower ⟨source, [.complex z, .complex w]⟩) F
      fun g outputs => ∃ r, outputs = [.complex r] ∧ r.IsOperand σ g e
        (pack? (op.result? [plane? 0 x, plane? 0 y]) (op.result? [plane? 1 x, plane? 1 y])) := by
  unfold Rule.perPlane
  refine .liftM_bind (check_ok hmem (Nat.le_refl _)) ?_
  refine .liftM_bind rfl (.liftM_bind rfl ?_)
  refine .bind (.planewise_complex (planeOperation_emit hop) hfloat (List.cons_ne_nil z [w])
    (.cons hz (.cons hw .nil)) hF) ?_
  rintro lowered c _ ⟨r, rfl, hr⟩
  exact .pure ⟨r, rfl, hr⟩

variable {zs : List ComplexValue} {xs ys : List (Option Tensor)}

theorem Runs.addN_plain (hmem : source.opType ∈ ["AddN", "ADD_N"]) {values : List ValueId}
    (hne : values ≠ []) (hvalues : List.Forall₂ (Denotes σ b.graph) values ys)
    (hF : sum? ys = none → F) :
    Runs A b (Rule.addN.lower ⟨source, values.map .plain⟩) F fun g outputs =>
      ∃ v, outputs = [.plain v] ∧ Denotes σ g v (sum? ys) := by
  have hlen : 1 ≤ (values.map Lowered.plain).length := by
    rw [List.length_map]
    exact List.length_pos_iff.mpr hne
  unfold Rule.addN
  refine .liftM_bind (check_ok hmem hlen) ?_
  refine .bind (.planewise_plain planeOperation_sumOf hvalues hF) ?_
  rintro lowered c _ ⟨v, rfl, hv⟩
  exact .pure ⟨v, rfl, hv⟩

theorem Runs.addN_complex (hfloat : e.isFloat = true) (hmem : source.opType ∈ ["AddN", "ADD_N"])
    (hne : zs ≠ []) (hzs : List.Forall₂ (fun z x => z.IsOperand σ b.graph e x) zs xs)
    (hF : sum? (xs.map (plane? 0)) = none → F) :
    Runs A b (Rule.addN.lower ⟨source, zs.map .complex⟩) F fun g outputs => ∃ r,
      outputs = [.complex r] ∧
        r.IsOperand σ g e (pack? (sum? (xs.map (plane? 0))) (sum? (xs.map (plane? 1)))) := by
  have hlen : 1 ≤ (zs.map Lowered.complex).length := by
    rw [List.length_map]
    exact List.length_pos_iff.mpr hne
  unfold Rule.addN
  refine .liftM_bind (check_ok hmem hlen) ?_
  refine .bind (.planewise_complex planeOperation_sumOf hfloat hne hzs hF) ?_
  rintro lowered c _ ⟨r, rfl, hr⟩
  exact .pure ⟨r, rfl, hr⟩

end

/-! ## Selection -/

/-- The program readies a condition as the function says, given the real or the imaginary plane of a
branch. -/
structure Preparation (prepare : ValueId → ValueId → Build ValueId)
    (f : Option Tensor → Option Tensor → Option Tensor) : Prop where
  runs : ∀ {A σ b F condition value c x}, Denotes σ b.graph condition c →
    Denotes σ b.graph value x → (f c x = none → F) →
    Runs A b (prepare condition value) F fun g id =>
      ∃ c', Denotes σ g id c' ∧ (x ≠ none → c' = f c x)
  congr : ∀ {c x y}, Op.SameType x y → f c x = f c y
  none : ∀ {x}, f none x = none

theorem preparation_extendCondition : Preparation Rule.extendCondition extended? where
  runs := .extendCondition
  congr := extended?_congr
  none := Op.result?_of_none_mem (.head _)

theorem preparation_pure : Preparation (fun condition _ => pure condition) fun c _ => c where
  runs hc _ _ := .pure ⟨_, hc, fun _ => rfl⟩
  congr _ := rfl
  none := rfl

/-- The choice between two tensors by the readied condition. -/
def chosen? (f : Option Tensor → Option Tensor → Option Tensor) (c x y : Option Tensor) :
    Option Tensor :=
  Op.select.result? [f c x, x, y]

section

variable {prepare : ValueId → ValueId → Build ValueId}
  {f : Option Tensor → Option Tensor → Option Tensor} {c x y : Option Tensor}

theorem sameType_chosen? (hp : Preparation prepare f) (k l : Nat) :
    Op.SameType (chosen? f c (plane? k x) (plane? k y)) (chosen? f c (plane? l x) (plane? l y)) := by
  rw [chosen?, hp.congr (sameType_plane? x k l)]
  exact Op.TypesLike.result? Op.typesLike_select Op.typesLike_select
    (.cons (.refl _) (.cons (sameType_plane? x k l) (.cons (sameType_plane? y k l) .nil)))

theorem chosen?_of_none_mem (hp : Preparation prepare f) (h : none ∈ [c, x, y]) :
    chosen? f c x y = none := by
  refine Op.result?_of_none_mem ?_
  rcases List.mem_cons.mp h with rfl | h
  · rw [hp.none]
    exact .head _
  · exact .tail _ h

theorem elementType_chosen? (hx : ∀ t, x = some t → t.elementType = e) (t : Tensor)
    (ht : chosen? f c x y = some t) : t.elementType = e := by
  obtain ⟨vs, hvs, hcompute⟩ := Op.result?_eq_some.mp ht
  obtain ⟨condition, u, v, rfl, hcompute⟩ := Op.ternary_eq_ok.mp hcompute
  obtain ⟨-, hvs⟩ := List.cons.inj hvs
  obtain ⟨hu, -⟩ := List.cons.inj hvs
  obtain ⟨-, -, inner, shape, -, -, htype⟩ := Tensor.demands_of_select hcompute
  exact (congrArg TensorType.elementType htype).trans (hx u hu)

/-- Choosing by a condition that was readied for the first branch, or for one of its type. -/
theorem Runs.select {condition v w : ValueId} {c' x' : Option Tensor}
    (hp : Preparation prepare f) (hx' : Op.SameType x x') (hc : Denotes σ b.graph condition c')
    (hc' : x' ≠ none → c' = f c x') (hx : Denotes σ b.graph v x) (hy : Denotes σ b.graph w y)
    (hF : chosen? f c x y = none → F) :
    Runs A b (Build.emit .select [condition, v, w]) F fun g id =>
      Denotes σ g id (chosen? f c x y) := by
  have heq : Op.select.result? [c', x, y] = chosen? f c x y := by
    by_cases hnone : x = none
    · have hmem : none ∈ [c', x, y] := by simp [hnone]
      have hmem' : none ∈ [f c x, x, y] := by simp [hnone]
      rw [chosen?, Op.result?_of_none_mem hmem, Op.result?_of_none_mem hmem']
    · have hsome : x' ≠ none := by
        rintro rfl
        exact hnone (Option.map_eq_none_iff.mp hx')
      rw [chosen?, hp.congr hx', hc' hsome]
  exact .apply_eq trivial (.cons hc (.cons hx (.cons hy .nil))) heq hF

variable {source : Source.Node} {condition : ValueId}

theorem Runs.selection_plain (hp : Preparation prepare f) {v w : ValueId}
    (hc : Denotes σ b.graph condition c) (hx : Denotes σ b.graph v x) (hy : Denotes σ b.graph w y)
    (hF : chosen? f c x y = none → F) :
    Runs A b ((Rule.selection source.opType prepare).lower
        ⟨source, [.plain condition, .plain v, .plain w]⟩) F fun g outputs =>
      ∃ v, outputs = [.plain v] ∧ Denotes σ g v (chosen? f c x y) := by
  have hprepareF : f c x = none → F := fun h => hF (Op.result?_of_none_mem (h ▸ .head _))
  unfold Rule.selection
  refine .liftM_bind (check_ok (.head _) (Nat.le_refl _)) ?_
  refine .liftM_bind rfl (.liftM_bind rfl (.liftM_bind rfl (.liftM_bind rfl ?_)))
  refine .bind (hp.runs hc hx hprepareF) fun condition c₁ h₁ hprepared => ?_
  obtain ⟨c', hc, hc'⟩ := hprepared
  refine .bind (.select hp (.refl x) hc hc' (hx.along h₁) (hy.along h₁) hF) ?_
  exact fun v c₂ _ hv => .pure ⟨v, rfl, hv⟩

theorem Runs.selection_complex (hp : Preparation prepare f) (hfloat : e.isFloat = true)
    {z w : ComplexValue} (hc : Denotes σ b.graph condition c) (hz : z.IsOperand σ b.graph e x)
    (hw : w.IsOperand σ b.graph e y) (hF : chosen? f c (plane? 0 x) (plane? 0 y) = none → F) :
    Runs A b ((Rule.selection source.opType prepare).lower
        ⟨source, [.plain condition, .complex z, .complex w]⟩) F fun g outputs =>
      ∃ r, outputs = [.complex r] ∧ r.Denotes σ g
        (pack? (chosen? f c (plane? 0 x) (plane? 0 y)) (chosen? f c (plane? 1 x) (plane? 1 y))) := by
  have hsame := sameType_chosen? (c := c) (x := x) (y := y) hp 0 1
  have himagF : chosen? f c (plane? 1 x) (plane? 1 y) = none → F := fun h => hF (by
    rw [h] at hsame
    exact Option.map_eq_none_iff.mp hsame)
  have hmem {u : Option Tensor} (hu : u ∈ [f c (plane? 0 x), plane? 0 x, plane? 0 y])
      (h : u = none) : F := hF (Op.result?_of_none_mem (h ▸ hu))
  have helement := elementType_plane? (k := 0) hz.elementType
  unfold Rule.selection
  refine .liftM_bind (check_ok (.head _) (Nat.le_refl _)) ?_
  refine .liftM_bind rfl (.liftM_bind rfl (.liftM_bind rfl ?_))
  refine .liftM_bind (pairMarking_complex hz.partType hw.partType) ?_
  have hzF : x = none → F := fun h => hmem (.tail _ (.head _)) (plane?_eq_none.mpr h)
  have hwF : y = none → F := fun h => hmem (.tail _ (.tail _ (.head _))) (plane?_eq_none.mpr h)
  refine .bind (.operand_planes hz hzF) fun zPlanes c₁ h₁ hx => ?_
  refine .bind (.operand_planes (hw.along h₁) hwF) fun wPlanes c₂ h₂ hy => ?_
  have hx := hx.along h₂
  refine .bind (hp.runs (hc.along (h₁.trans h₂)) hx.real (hmem (.head _))) ?_
  intro condition c₃ h₃ hprepared
  obtain ⟨c', hc, hc'⟩ := hprepared
  have hx := hx.along h₃
  have hy := hy.along h₃
  refine .bind (.select hp (.refl _) hc hc' hx.real hy.real hF) fun real c₄ h₄ hreal => ?_
  have hx := hx.along h₄
  have hy := hy.along h₄
  refine .bind (.select hp (sameType_plane? x 1 0) (hc.along h₄) hc' hx.imag hy.imag himagF) ?_
  intro imag c₅ h₅ himag
  have helements := elementType_chosen? (f := f) (c := c) (y := plane? 0 y) helement
  refine .bind (.toComplex ⟨hreal.along h₅, himag⟩ hsame hfloat helements hF) ?_
  rintro lowered c₆ _ ⟨r, rfl, -, hr⟩
  exact .pure ⟨r, rfl, hr⟩

end

/-! ## Padding -/

section

variable {source : Source.Node} {paddings fill : ValueId} {table f : Tensor} {n : Nat}
  {x : Option Tensor}

/-- The tensor padded with the fill value by the columns of the table. -/
def filled? (table f : Tensor) (x : Option Tensor) : Option Tensor :=
  (Op.pad .constant).result? [x, some (padColumn 0 table), some (padColumn 1 table), some f]

/-- The tensor padded with zeros by the columns of the table. -/
def padded? (table : Tensor) (x : Option Tensor) : Option Tensor :=
  (Op.pad .constant).result? [x, some (padColumn 0 table), some (padColumn 1 table),
    x.map fun t => .zero t.elementType]

/-- The zero of the element type of a value, which is that of its tensor. -/
theorem Runs.zeroLike {value : ValueId} (hx : Denotes σ b.graph value x) :
    Runs A b (Build.zeroLike value) F fun g id => ∃ f, Denotes σ g id (some f) ∧ f.shape = [] ∧
      ∀ t, x = some t → f = .zero t.elementType := by
  obtain ⟨e, hread, helement⟩ := hx.exists_elementType
  unfold Build.zeroLike
  refine .query_bind hread (.imp (.constant _) id fun g id _ hid => ⟨_, hid σ, rfl, ?_⟩)
  exact fun t ht => congrArg Tensor.zero (helement t ht).symm

/-- Padding depends on the integers of the counts only. -/
theorem pad_congr {mode : PadMode} {t before before' after after' : Tensor} {fill : Option Tensor}
    (hb : before.ints = before'.ints) (ha : after.ints = after'.ints) :
    Tensor.pad mode t before after fill = Tensor.pad mode t before' after' fill := by
  simp only [Tensor.pad, hb, ha]

theorem result?_pad_some {t before after f : Tensor} :
    (Op.pad .constant).result? [some t, some before, some after, some f] =
      (Tensor.pad .constant t before after (some f)).toOption :=
  Op.result?_map_some [t, before, after, f]

theorem result?_pad_none {before after f : Option Tensor} :
    (Op.pad .constant).result? [none, before, after, f] = none :=
  Op.result?_of_none_mem (.head _)

theorem filled?_none : filled? table f none = none :=
  result?_pad_none

/-- Padding with the zero of its element type. -/
theorem filled?_zero (hf : ∀ t, x = some t → f = .zero t.elementType) :
    filled? table f x = padded? table x := by
  cases x with
  | none => rw [filled?, padded?, result?_pad_none, result?_pad_none]
  | some t =>
    obtain rfl := hf t rfl
    rfl

section

variable {before after : Tensor}

theorem result?_pad (hb : ListsColumn 0 table [] before) (ha : ListsColumn 1 table [] after) :
    (Op.pad .constant).result? [x, some before, some after, some f] = filled? table f x := by
  cases x with
  | none => rw [filled?, result?_pad_none, result?_pad_none]
  | some t =>
    obtain ⟨counts, hcounts, hbefore⟩ := hb.ints
    obtain ⟨counts', hcounts', hafter⟩ := ha.ints
    rw [List.append_nil, ← hcounts] at hbefore
    rw [List.append_nil, ← hcounts'] at hafter
    rw [filled?, result?_pad_some, result?_pad_some, pad_congr hbefore hafter]

variable (hf : ∀ t, x = some t → ∃ c, f = .scalar t.elementType c)
  (hb : ListsColumn 0 table [0] before) (ha : ListsColumn 1 table [0] after)
  (hpairs : ArePairs x)
include hb ha hpairs

include hf in
/-- Padding pairs by one zero more pads each of their planes. -/
theorem plane?_pad {k : Nat} (hk : k < 2) :
    plane? k ((Op.pad .constant).result? [x, some before, some after, some f]) =
      filled? table f (plane? k x) := by
  cases x with
  | none => rw [result?_pad_none, plane?, Option.map_none, filled?_none]
  | some t =>
    obtain ⟨c, rfl⟩ := hf t rfl
    obtain ⟨counts, hcounts, hbefore⟩ := hb.ints
    obtain ⟨counts', hcounts', hafter⟩ := ha.ints
    rw [plane?, plane?, filled?, Option.map_some, result?_pad_some, result?_pad_some]
    exact (Tensor.pad_plane (hpairs t rfl) hk (by decide) hcounts hcounts' hbefore hafter).symm

omit hb ha hpairs in
theorem elementType_pad (he : ∀ t, x = some t → t.elementType = e) :
    ∀ t, (Op.pad .constant).result? [x, some before, some after, some f] = some t →
      t.elementType = e := by
  intro p hp
  cases x with
  | none =>
    rw [result?_pad_none] at hp
    cases hp
  | some t =>
    rw [result?_pad_some, toOption_eq_some] at hp
    obtain ⟨_, _, shape, -, -, -, -, -, htype⟩ := Tensor.type_pad hp
    exact (congrArg TensorType.elementType htype).trans (he t rfl)

theorem arePairs_pad : ArePairs ((Op.pad .constant).result? [x, some before, some after, some f]) := by
  intro p hp
  cases x with
  | none =>
    rw [result?_pad_none] at hp
    cases hp
  | some t =>
    obtain ⟨counts, -, hbefore⟩ := hb.ints
    obtain ⟨counts', -, hafter⟩ := ha.ints
    rw [result?_pad_some, toOption_eq_some] at hp
    exact Tensor.getLast?_pad hp hbefore hafter (hpairs t rfl) (by decide) List.getLast?_concat
      List.getLast?_concat

end

/-- If one plane can be padded, so can the other. -/
theorem filled?_plane?_eq_none (hf : ∀ t, x = some t → ∃ c, f = .scalar t.elementType c) {k l : Nat}
    (h : filled? table f (plane? k x) = none) : filled? table f (plane? l x) = none := by
  cases x with
  | none => exact filled?_none
  | some t =>
    obtain ⟨c, rfl⟩ := hf t rfl
    rw [Option.eq_none_iff_forall_ne_some]
    intro v hv
    have hv := result?_pad_some.symm.trans hv
    obtain ⟨counts, counts', shape, hb, ha, hlb, hla, hs, -⟩ :=
      Tensor.type_pad (toOption_eq_some.mp hv)
    obtain ⟨w, hw⟩ := Tensor.exists_pad (t := t.plane k) c hb ha hlb hla hs
    have hsome : filled? table (.scalar t.elementType c) (plane? k (some t)) = some w :=
      result?_pad_some.trans (congrArg Except.toOption hw)
    rw [h] at hsome
    cases hsome

theorem padded?_plane?_eq_none {k l : Nat} (h : padded? table (plane? k x) = none) :
    padded? table (plane? l x) = none := by
  cases x with
  | none => exact result?_pad_none
  | some t =>
    have hf (p : Tensor) (hp : some t = some p) :
        ∃ c, Tensor.zero t.elementType = .scalar p.elementType c := by
      obtain rfl := Option.some.inj hp
      exact ⟨_, rfl⟩
    exact filled?_plane?_eq_none hf h

theorem Runs.constantPad_plain {v : ValueId} (hx : Denotes σ b.graph v x)
    (hd : Denotes σ b.graph paddings (some table)) (hshape : table.shape = [n, 2])
    (hfill : Denotes σ b.graph fill (some f)) (hscalar : f.shape = [])
    (hF : filled? table f x = none → F) :
    Runs A b (Rule.constantPad (.plain v) paddings fill) F fun g lowered =>
      ∃ v, lowered = .plain v ∧ Denotes σ g v (filled? table f x) := by
  unfold Rule.constantPad
  refine .bind (.padCounts hd hshape false) fun counts c₁ h₁ hcounts => ?_
  obtain ⟨before, after, hbefore, hafter, hb, ha⟩ := hcounts
  rw [← result?_pad hb ha] at hF ⊢
  refine .bind (.pad (hx.along h₁) hbefore hafter (hfill.along h₁) hb.rank ha.rank hscalar hF) ?_
  exact fun padded c₂ _ hpadded => .pure ⟨padded, rfl, hpadded.2⟩

theorem Runs.constantPad_complex {z : ComplexValue} (hz : z.IsOperand σ b.graph e x)
    (hfloat : e.isFloat = true) (hd : Denotes σ b.graph paddings (some table))
    (hshape : table.shape = [n, 2]) (hfill : Denotes σ b.graph fill (some f))
    (hscalar : f.shape = []) (hf : ∀ t, x = some t → ∃ c, f = .scalar t.elementType c)
    (hF : filled? table f (plane? 0 x) = none → F) :
    Runs A b (Rule.constantPad (.complex z) paddings fill) F fun g lowered =>
      ∃ r y, lowered = .complex r ∧ r.Denotes σ g y ∧ ArePairs y ∧
        ∀ k < 2, plane? k y = filled? table f (plane? k x) := by
  unfold Rule.constantPad
  refine .bind (.padCounts hd hshape true) fun counts c₁ h₁ hcounts => ?_
  obtain ⟨before, after, hbefore, hafter, hb, ha⟩ := hcounts
  have hplanes {k : Nat} (hk : k < 2) := plane?_pad hf hb ha hz.pairs hk
  have hpairs := arePairs_pad (f := f) hb ha hz.pairs
  have helements : ∀ t, (Op.pad .constant).result? [x, some before, some after, some f] = some t →
      t.elementType = e := elementType_pad hz.elementType
  have hpadF : (Op.pad .constant).result? [x, some before, some after, some f] = none → F := by
    intro h
    refine hF ?_
    rw [← hplanes (by decide), h]
    rfl
  have hx := hz.packed.along h₁
  refine .bind (.pad hx hbefore hafter (hfill.along h₁) hb.rank ha.rank hscalar hpadF) ?_
  intro padded c₂ h₂ hpadded
  have hunmarked : c₂.graph.Unmarked padded := ⟨_, _, hpadded.1, rfl⟩
  show Runs A c₂ (Lowering.markComplex padded z.partType) F _
  rw [hz.partType]
  refine .imp (.markComplex hpadded.2 hunmarked hpairs hfloat helements hpadF) id ?_
  rintro g lowered _ ⟨r, rfl, -, hr⟩
  exact ⟨r, _, rfl, hr, hpairs, fun k hk => hplanes hk⟩

theorem Runs.pad_plain {v : ValueId} (hx : Denotes σ b.graph v x)
    (hd : Denotes σ b.graph paddings (some table)) (hshape : table.shape = [n, 2])
    (hop : source.opType = "Pad") (hF : padded? table x = none → F) :
    Runs A b (Rule.pad.lower ⟨source, [.plain v, .plain paddings]⟩) F fun g outputs =>
      ∃ v, outputs = [.plain v] ∧ Denotes σ g v (padded? table x) := by
  unfold Rule.pad
  refine .liftM_bind (check_ok (hop ▸ .head _) (Nat.le_refl _)) ?_
  refine .liftM_bind rfl (.liftM_bind rfl ?_)
  refine .bind (.zeroLike hx) fun fill c₁ h₁ hfill => ?_
  obtain ⟨f, hfill, hscalar, hf⟩ := hfill
  rw [← filled?_zero hf] at hF ⊢
  refine .bind (.constantPad_plain (hx.along h₁) (hd.along h₁) hshape hfill hscalar hF) ?_
  rintro lowered c₂ _ ⟨v, rfl, hv⟩
  exact .pure ⟨v, rfl, hv⟩

theorem Runs.pad_complex {z : ComplexValue} (hz : z.IsOperand σ b.graph e x)
    (hfloat : e.isFloat = true)
    (hd : Denotes σ b.graph paddings (some table)) (hshape : table.shape = [n, 2])
    (hop : source.opType = "Pad") (hF : padded? table (plane? 0 x) = none → F) :
    Runs A b (Rule.pad.lower ⟨source, [.complex z, .plain paddings]⟩) F fun g outputs =>
      ∃ r y, outputs = [.complex r] ∧ r.Denotes σ g y ∧ ArePairs y ∧
        ∀ k < 2, plane? k y = padded? table (plane? k x) := by
  unfold Rule.pad
  refine .liftM_bind (check_ok (hop ▸ .head _) (Nat.le_refl _)) ?_
  refine .liftM_bind rfl (.liftM_bind rfl ?_)
  refine .bind (.zeroLike hz.packed) fun fill c₁ h₁ hfill => ?_
  obtain ⟨f, hfill, hscalar, hf⟩ := hfill
  have hzero (k : Nat) : filled? table f (plane? k x) = padded? table (plane? k x) := by
    refine filled?_zero fun t ht => ?_
    obtain ⟨p, hp, rfl⟩ := Option.map_eq_some_iff.mp ht
    exact hf p hp
  rw [← hzero 0] at hF
  have hscalars (t : Tensor) (ht : x = some t) : ∃ c, f = .scalar t.elementType c := ⟨_, hf t ht⟩
  refine .bind (.constantPad_complex (hz.along h₁) hfloat (hd.along h₁) hshape hfill hscalar
    hscalars hF) ?_
  rintro lowered c₂ _ ⟨r, y, rfl, hr, hpairs, hplanes⟩
  exact .pure ⟨r, y, rfl, hr, hpairs, fun k hk => (hplanes k hk).trans (hzero k)⟩

end

/-! ## Products and projections -/

section

variable {source : Source.Node} {z w : ComplexValue} {x y : Option Tensor}

/-- There is a product only of tensors that exist. -/
theorem productReal?_of_none_mem {u u' v v' : Option Tensor} (h : none ∈ [u, v]) :
    productReal? u u' v v' = none := by
  rw [productReal?, Op.result?_of_none_mem h]
  exact Op.result?_of_none_mem (.head _)

theorem Runs.mul_complex (hfloat : e.isFloat = true) (hop : source.opType = "Mul")
    (hz : z.IsOperand σ b.graph e x) (hw : w.IsOperand σ b.graph e y)
    (hF : productReal? (plane? 0 x) (plane? 1 x) (plane? 0 y) (plane? 1 y) = none → F) :
    Runs A b (Rule.mul.lower ⟨source, [.complex z, .complex w]⟩) F fun g outputs =>
      ∃ r, outputs = [.complex r] ∧ r.Denotes σ g
        (pack? (productReal? (plane? 0 x) (plane? 1 x) (plane? 0 y) (plane? 1 y))
          (productImag? (plane? 0 x) (plane? 1 x) (plane? 0 y) (plane? 1 y))) := by
  have hzF : x = none → F := fun h => hF (productReal?_of_none_mem (by
    rw [plane?_eq_none.mpr h]
    exact .head _))
  have hwF : y = none → F := fun h => hF (productReal?_of_none_mem (by
    rw [plane?_eq_none.mpr h]
    exact .tail _ (.head _)))
  have hmul : Op.multiply.IsArithmetic := trivial
  have hsub : Op.subtract.IsArithmetic := trivial
  have hx (k : Nat) := elementType_plane? (k := k) hz.elementType
  have hy (k : Nat) := elementType_plane? (k := k) hw.elementType
  have hproduct (k : Nat) := elementType_arithmetic hmul
    (List.forall_mem_cons.mpr ⟨hx k, List.forall_mem_singleton.mpr (hy k)⟩)
  have helements := elementType_arithmetic hsub
    (List.forall_mem_cons.mpr ⟨hproduct 0, List.forall_mem_singleton.mpr (hproduct 1)⟩)
  unfold Rule.mul
  refine .liftM_bind (check_ok (hop ▸ .head _) (Nat.le_refl _)) ?_
  refine .liftM_bind rfl (.liftM_bind rfl ?_)
  refine .liftM_bind (pairMarking_complex hz.partType hw.partType) ?_
  refine .bind (.operand_planes hz hzF) fun lhs c₁ h₁ hlhs => ?_
  refine .bind (.operand_planes (hw.along h₁) hwF) fun rhs c₂ h₂ hrhs => ?_
  refine .bind (.mul (hlhs.along h₂) hrhs (sameType_plane? y 0 1) hF) fun product c₃ _ hp => ?_
  have hsame := sameType_product (x := plane? 0 x) (y := plane? 1 x) (sameType_plane? y 0 1)
  refine .bind (.toComplex hp hsame hfloat helements hF) ?_
  rintro lowered c₄ _ ⟨r, rfl, -, hr⟩
  exact .pure ⟨r, rfl, hr⟩

/-- A projection of a complex tensor is one of its planes. -/
theorem Runs.real (hop : source.opType = "Real") (hz : z.Denotes σ b.graph x) (hx : ArePairs x)
    (hF : plane? 0 x = none → F) :
    Runs A b (Rule.real.lower ⟨source, [.complex z]⟩) F fun g outputs =>
      ∃ v, outputs = [.plain v] ∧ Denotes σ g v (plane? 0 x) := by
  unfold Rule.real
  refine .liftM_bind (check_ok (hop ▸ .head _) (Nat.le_refl _)) (.liftM_bind rfl ?_)
  refine .bind (.planes hz.packed hx fun h => hF (plane?_eq_none.mpr h)) fun planes c _ hp => ?_
  exact .pure ⟨planes.real, rfl, hp.real⟩

theorem Runs.imag (hop : source.opType = "Imag") (hz : z.Denotes σ b.graph x) (hx : ArePairs x)
    (hF : plane? 1 x = none → F) :
    Runs A b (Rule.imag.lower ⟨source, [.complex z]⟩) F fun g outputs =>
      ∃ v, outputs = [.plain v] ∧ Denotes σ g v (plane? 1 x) := by
  unfold Rule.imag
  refine .liftM_bind (check_ok (hop ▸ .head _) (Nat.le_refl _)) (.liftM_bind rfl ?_)
  refine .bind (.planes hz.packed hx fun h => hF (plane?_eq_none.mpr h)) fun planes c _ hp => ?_
  exact .pure ⟨planes.imag, rfl, hp.imag⟩

end

end TensorLowering.Lowering
