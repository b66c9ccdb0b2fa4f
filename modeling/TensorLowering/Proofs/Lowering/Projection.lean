import TensorLowering.Lowering.Registry
import TensorLowering.Proofs.Lowering.Planewise

/-!
# Projections of complex results

Lowering a node on complex tensors and then taking a plane of the result gives what lowering the node
on that plane of its operands gives (`translation_planewise`), for sums, differences, selections and
paddings. A plane of a product is made of both planes of the operands in the way of complex numbers.
Either both sides evaluate to the same tensor or neither evaluates to one.
-/

namespace TensorLowering.Lowering

open Dataflow (ValueId Graph Feeds)
open Dataflow.Graph (Scenario Denotes)

/-! ## Nodes one after the other -/

/-- The program, run on behalf of a source node. -/
def Build.onBehalf {α : Type} (node : Source.Node) (program : Build α) : Build α :=
  ExceptT.mk fun b =>
    let (result, c) := program.exec ⟨b.graph, node.name, node.opType, 0⟩
    (result, { b with graph := c.graph })

/-- What the rule for its op type makes of a source node with the given inputs. -/
def translate (node : Source.Node) (inputs : List Lowered) : Build (List Lowered) :=
  match Registry.standard.find? node.opType with
  | some rule => .onBehalf node (rule.lower ⟨node, inputs⟩)
  | none => throw (.node node.name node.opType (.opType Registry.standard.opTypes))

/-- The plain inputs, and what the projection makes of each complex one. -/
def project (projection : Source.Node) (inputs : List Lowered) : Build (List Lowered) := do
  let projected ← inputs.mapM fun input =>
    if input.isComplex then translate projection [input] else pure [input]
  return projected.flatten

/-- The program succeeds, and what it returns evaluates to the one tensor. -/
def Evaluates (feeds : Feeds) (program : Build (List Lowered)) (b : Builder) (t : Tensor) : Prop :=
  ∃ outputs c, program.exec b = (.ok outputs, c) ∧
    c.graph.evaluate feeds (outputs.map Lowered.value) = .ok [t]

instance (feeds : Feeds) (program : Build (List Lowered)) (b : Builder) (t : Tensor) :
    Decidable (Evaluates feeds program b t) :=
  match h : program.exec b with
  | (.ok outputs, c) =>
    decidable_of_iff (c.graph.evaluate feeds (outputs.map Lowered.value) = .ok [t])
      (by simp [Evaluates, h])
  | (.error _, _) => .isFalse (by simp [Evaluates, h])

variable {b : Builder} {A F : Prop} {σ : Scenario} {node : Source.Node} {inputs : List Lowered}

theorem Runs.translate {rule : Rule} {Q : Graph → List Lowered → Prop}
    (hrule : Registry.standard.find? node.opType = some rule)
    (h : Runs A ⟨b.graph, node.name, node.opType, 0⟩ (rule.lower ⟨node, inputs⟩) F Q) :
    Runs A b (translate node inputs) F Q := by
  intro hb
  have hran := h hb
  rw [Lowering.translate, hrule]
  exact ⟨hran.leads, hran.post, hran.error⟩

theorem Runs.evaluates_value_iff {feeds : Feeds} {program : Build (List Lowered)}
    {x : Option Tensor} (h : Runs A b program (x = none) fun g outputs =>
      ∃ output, outputs = [output] ∧ Denotes ⟨feeds, True⟩ g output.value x)
    (hb : b.graph.WellFormed) {t : Tensor} : Evaluates feeds program b t ↔ x = some t := by
  have hran := h hb
  unfold Evaluates
  generalize program.exec b = outcome at hran
  obtain ⟨result, c⟩ := outcome
  cases result with
  | ok outputs =>
    obtain ⟨output, rfl, hv⟩ := hran.post _ rfl
    rw [← hv.evaluate_iff trivial hran.leads.after]
    constructor
    · rintro ⟨_, _, ⟨rfl, rfl⟩, heval⟩
      exact heval
    · exact fun heval => ⟨_, _, rfl, heval⟩
  | error e =>
    have hnone := hran.error e rfl
    constructor
    · rintro ⟨_, _, ⟨⟩, -⟩
    · rintro rfl
      cases hnone

theorem Runs.evaluates_iff {feeds : Feeds} {program : Build (List Lowered)} {x : Option Tensor}
    (h : Runs A b program (x = none) fun g outputs =>
      ∃ v, outputs = [.plain v] ∧ Denotes ⟨feeds, True⟩ g v x)
    (hb : b.graph.WellFormed) {t : Tensor} : Evaluates feeds program b t ↔ x = some t :=
  Runs.evaluates_value_iff (h.imp id fun _ _ _ ⟨v, houtputs, hv⟩ => ⟨.plain v, houtputs, hv⟩) hb

theorem Runs.evaluates_marker_iff {feeds : Feeds} {program : Build (List Lowered)}
    {x : Option Tensor} (h : Runs A b program (x = none) fun g outputs =>
      ∃ z, outputs = [.complex z] ∧ z.Denotes ⟨feeds, True⟩ g x)
    (hb : b.graph.WellFormed) {t : Tensor} : Evaluates feeds program b t ↔ x = some t :=
  Runs.evaluates_value_iff
    (h.imp id fun _ _ hg ⟨z, houtputs, hz⟩ => ⟨.complex z, houtputs, hz.marker hg.after⟩) hb

/-! ## Projections -/

/-- The parts of a complex number. -/
inductive Part where
  | real
  | imag
deriving DecidableEq, Repr

namespace Part

/-- The op type of the projection to the part. -/
def opType : Part → String
  | real => "Real"
  | imag => "Imag"

/-- The place of the part on the last axis of a packed tensor. -/
def place : Part → Nat
  | real => 0
  | imag => 1

theorem place_lt (part : Part) : part.place < 2 := by
  cases part <;> decide

/-- The part of the product of two packed tensors `a + bi` and `c + di`: `ac - bd` or `ad + bc`. -/
def ofProduct (p q : Tensor) : Part → Except TensorLowering.Error Tensor
  | real => do
    let ac ← Op.multiply.compute [p.plane 0, q.plane 0]
    let bd ← Op.multiply.compute [p.plane 1, q.plane 1]
    Op.subtract.compute [ac, bd]
  | imag => do
    let ad ← Op.multiply.compute [p.plane 0, q.plane 1]
    let bc ← Op.multiply.compute [p.plane 1, q.plane 0]
    Op.add.compute [ad, bc]

end Part

variable {part : Part} {projection : Source.Node} {e : ElementType}

theorem Runs.translate_part (hp : projection.opType = part.opType) {z : ComplexValue}
    {x : Option Tensor} (hz : z.Denotes σ b.graph x) (hx : ArePairs x)
    (hF : plane? part.place x = none → F) :
    Runs A b (Lowering.translate projection [.complex z]) F fun g outputs =>
      ∃ v, outputs = [.plain v] ∧ Denotes σ g v (plane? part.place x) := by
  cases part with
  | real => exact .translate (hp ▸ rfl) (.real hp hz hx hF)
  | imag => exact .translate (hp ▸ rfl) (.imag hp hz hx hF)

/-- The tensors of plain inputs, and a plane of the tensors of complex ones. -/
inductive Projects (σ : Scenario) (g : Graph) (e : ElementType) (part : Part) :
    Lowered → Option Tensor → Prop where
  | plain {v : ValueId} {y : Option Tensor} (h : Denotes σ g v y) : Projects σ g e part (.plain v) y
  | complex {z : ComplexValue} {x : Option Tensor} (h : z.IsOperand σ g e x) :
      Projects σ g e part (.complex z) (plane? part.place x)

theorem Projects.along {g g' : Graph} {input : Lowered} {y : Option Tensor}
    (h : Projects σ g e part input y) (hg : g.Leads A g') : Projects σ g' e part input y := by
  cases h with
  | plain h => exact .plain (h.along hg)
  | complex h => exact .complex (h.along hg)

theorem Runs.project (hp : projection.opType = part.opType) {ys : List (Option Tensor)}
    (hin : List.Forall₂ (Projects σ b.graph e part) inputs ys) (hF : none ∈ ys → F) :
    Runs A b (Lowering.project projection inputs) F fun g outputs =>
      ∃ values, outputs = values.map .plain ∧ List.Forall₂ (Denotes σ g) values ys := by
  unfold Lowering.project
  refine .bind (.mapM (P := fun g input y => Projects σ g e part input y)
    (T := fun g outputs y => ∃ v, outputs = [Lowered.plain v] ∧ Denotes σ g v y) ?_ ?_ ?_ hin) ?_
  · exact fun h hg => h.along hg
  · rintro g g' outputs y ⟨v, rfl, hv⟩ hg
    exact ⟨v, rfl, hv.along hg⟩
  · intro b input y hy h
    cases h with
    | plain h => exact .pure ⟨_, rfl, h⟩
    | complex h => exact .translate_part hp h.toDenotes h.pairs fun hnone => hF (hnone ▸ hy)
  · intro projected c _ hprojected
    refine .pure ?_
    clear hin hF
    induction hprojected with
    | nil => exact ⟨[], rfl, .nil⟩
    | cons hv _ ih =>
      obtain ⟨v, rfl, hv⟩ := hv
      obtain ⟨values, hvalues, hdenotes⟩ := ih
      refine ⟨v :: values, ?_, .cons hv hdenotes⟩
      rw [List.flatten_cons, hvalues]
      rfl

/-! ## Calls -/

/-- A complex operand with parts of the type: a marked packed tensor that ends in pairs, if it can be
evaluated. -/
structure ComplexValue.IsOperandOf (g : Graph) (feeds : Feeds) (e : ElementType)
    (z : ComplexValue) : Prop where
  partType : z.partType = e
  marked : g.Has z.marker (.complexMark e) [z.packed]
  pairs : ∀ p, g.evaluate feeds [z.packed] = .ok [p] → p.shape.getLast? = some 2

theorem ComplexValue.IsOperandOf.of_evaluate {g : Graph} {feeds : Feeds} {z : ComplexValue}
    {p : Tensor} (hpart : z.partType = e) (hmarked : g.Has z.marker (.complexMark e) [z.packed])
    (heval : g.evaluate feeds [z.packed] = .ok [p]) (hlast : p.shape.getLast? = some 2) :
    z.IsOperandOf g feeds e where
  partType := hpart
  marked := hmarked
  pairs q hq := by
    obtain rfl := List.head_eq_of_cons_eq (Except.ok.inj (heval.symm.trans hq))
    exact hlast

/-- Inputs with which a node works plane by plane, by its op type. -/
inductive PlaneCall (g : Graph) (feeds : Feeds) (e : ElementType) : String → List Lowered → Prop where
  | binary {opType : String} {x y : ComplexValue} (hop : opType ∈ ["Add", "AddV2", "Sub"])
      (hx : x.IsOperandOf g feeds e) (hy : y.IsOperandOf g feeds e) :
      PlaneCall g feeds e opType [.complex x, .complex y]
  | sum {opType : String} {zs : List ComplexValue} (hop : opType ∈ ["AddN", "ADD_N"])
      (hne : zs ≠ []) (hzs : ∀ z ∈ zs, z.IsOperandOf g feeds e) :
      PlaneCall g feeds e opType (zs.map .complex)
  | select {opType : String} {condition : ValueId} {x y : ComplexValue}
      (hop : opType ∈ ["Select", "SelectV2"]) (hcondition : condition < g.nodes.size)
      (hx : x.IsOperandOf g feeds e) (hy : y.IsOperandOf g feeds e) :
      PlaneCall g feeds e opType [.plain condition, .complex x, .complex y]
  | pad {x : ComplexValue} {paddings : ValueId} {table : Tensor} {n : Nat}
      (hx : x.IsOperandOf g feeds e) (htable : g.evaluate feeds [paddings] = .ok [table])
      (hshape : table.shape = [n, 2]) :
      PlaneCall g feeds e "Pad" [.complex x, .plain paddings]

variable {g : Graph} {feeds : Feeds}

/-- What the graph says about a value that is marked as complex. -/
theorem operand_of_marked (hg : g.WellFormed) {marker packed : ValueId}
    (h : g.Has marker (.complexMark e) [packed]) : ∃ x, g.operand? packed = some x ∧
      x.elementType = e ∧ e.isFloat = true ∧ ∀ dims, x.shape.dims? = some dims →
        ∃ last, dims.getLast? = some last ∧ ∀ size, last = some size → size = 2 := by
  obtain ⟨operands, type, -, hoperands, ht, -⟩ := h.recorded hg
  obtain _ | ⟨hx, _ | _⟩ := hoperands
  obtain ⟨he, hfloat, -, hlast⟩ := Op.inferComplexMark_eq_ok.mp ht
  exact ⟨_, hx, he, he ▸ hfloat, hlast⟩

theorem packed_of_marked (hg : g.WellFormed) {marker packed : ValueId}
    (h : g.Has marker (.complexMark e) [packed]) : e.isFloat = true ∧ packed < g.nodes.size ∧
      ∀ v, g.Fits packed v → v.elementType = e := by
  obtain ⟨x, hx, he, hfloat, -⟩ := operand_of_marked hg h
  obtain ⟨node, hnode, -⟩ := Option.map_eq_some_iff.mp hx
  refine ⟨hfloat, (Array.getElem?_eq_some_iff.mp hnode).1, fun v hv => ?_⟩
  obtain ⟨y, hy, hv⟩ := hv
  obtain rfl := Option.some.inj (hx.symm.trans hy)
  exact hv.elementType.trans he

/-- What a value comes to under the feeds. -/
def outcome? (g : Graph) (feeds : Feeds) (id : ValueId) : Option Tensor :=
  (g.meaning feeds id).toOption

theorem outcome?_eq_some (hg : g.WellFormed) {id : ValueId} (hid : id < g.nodes.size) {v : Tensor} :
    outcome? g feeds id = some v ↔ g.evaluate feeds [id] = .ok [v] :=
  ((Graph.denotes_meaning (σ := ⟨feeds, True⟩) hg hid).evaluate_iff trivial hg).symm

theorem denotes_outcome? (hg : g.WellFormed) {id : ValueId} (hid : id < g.nodes.size) :
    Denotes ⟨feeds, True⟩ g id (outcome? g feeds id) :=
  Graph.denotes_meaning hg hid

theorem denotes_of_evaluate (hg : g.WellFormed) {id : ValueId} {v : Tensor}
    (h : g.evaluate feeds [id] = .ok [v]) : Denotes ⟨feeds, True⟩ g id (some v) := by
  have hid := Graph.lt_size_of_evaluate_eq_ok h id List.mem_cons_self
  exact (outcome?_eq_some hg hid).mpr h ▸ denotes_outcome? hg hid

theorem ComplexValue.IsOperandOf.isOperand (hg : g.WellFormed) {z : ComplexValue}
    (h : z.IsOperandOf g feeds e) :
    z.IsOperand ⟨feeds, True⟩ g e (outcome? g feeds z.packed) := by
  obtain ⟨-, hlt, helement⟩ := packed_of_marked hg h.marked
  have hpacked : Graph.Denotes ⟨feeds, True⟩ g z.packed (outcome? g feeds z.packed) :=
    Graph.denotes_meaning hg hlt
  exact {
    marked := h.partType.symm ▸ h.marked
    packed := hpacked
    partType := h.partType
    pairs := fun p hp => h.pairs p ((outcome?_eq_some hg hlt).mp hp)
    elementType := fun p hp => helement p (hpacked.fits p hp) }

/-! ## Both ways -/

/-- Lowering the node gives a complex value with the planes `f`. -/
structure GivesPlanes (σ : Scenario) (b : Builder) (node : Source.Node) (inputs : List Lowered)
    (f : Part → Option Tensor) : Prop where
  packed : Runs False b (translate node inputs) (f .real = none) fun g outputs =>
    ∃ r y, outputs = [.complex r] ∧ r.Denotes σ g y ∧ ArePairs y ∧
      ∀ part : Part, plane? part.place y = f part
  missing : f .real = none → ∀ part, f part = none

/-- Moreover, lowering it on a plane of the operands gives that plane. -/
structure WorksOnPlanes (σ : Scenario) (b : Builder) (e : ElementType) (node : Source.Node)
    (inputs : List Lowered) (f : Part → Option Tensor) : Prop extends
    GivesPlanes σ b node inputs f where
  plain : ∀ part, ∃ ys, List.Forall₂ (Projects σ b.graph e part) inputs ys ∧
    (none ∈ ys → f part = none) ∧
    ∀ c values, List.Forall₂ (Denotes σ c.graph) values ys →
      Runs False c (translate node (values.map .plain)) (f part = none) fun g outputs =>
        ∃ v, outputs = [.plain v] ∧ Denotes σ g v (f part)

section Planes

variable {f : Part → Option Tensor}

/-- The planes may be packed from two results of one type. -/
theorem GivesPlanes.of_pack (hsame : Op.SameType (f .real) (f .imag))
    (h : Runs False b (translate node inputs) (f .real = none) fun g outputs =>
      ∃ r, outputs = [.complex r] ∧ r.Denotes σ g (pack? (f .real) (f .imag))) :
    GivesPlanes σ b node inputs f where
  packed := by
    refine h.imp id fun g outputs _ hr => ?_
    obtain ⟨r, rfl, hr⟩ := hr
    obtain ⟨hreal, himag⟩ := plane_pack? hsame
    refine ⟨r, _, rfl, hr, arePairs_pack? hsame, fun part => ?_⟩
    cases part with
    | real => exact hreal
    | imag => exact himag
  missing hnone part := by
    cases part with
    | real => exact hnone
    | imag =>
      rw [hnone] at hsame
      exact Option.map_eq_none_iff.mp (Eq.symm hsame)

theorem GivesPlanes.evaluates_iff (h : GivesPlanes ⟨feeds, True⟩ b node inputs f)
    (hb : b.graph.WellFormed) (hp : projection.opType = part.opType) {t : Tensor} :
    Evaluates feeds (translate node inputs >>= translate projection) b t ↔ f part = some t := by
  refine Runs.evaluates_iff (A := False) ?_ hb
  refine .bind (h.packed.imp (fun hnone => h.missing hnone part) fun _ _ _ hr => hr) ?_
  rintro outputs c _ ⟨r, y, rfl, hr, hpairs, hplanes⟩
  rw [← hplanes part]
  exact .translate_part hp hr hpairs id

theorem WorksOnPlanes.evaluates_project_iff (h : WorksOnPlanes ⟨feeds, True⟩ b e node inputs f)
    (hb : b.graph.WellFormed) (hp : projection.opType = part.opType) {t : Tensor} :
    Evaluates feeds (project projection inputs >>= translate node) b t ↔ f part = some t := by
  obtain ⟨ys, hys, hnone, hruns⟩ := h.plain part
  refine Runs.evaluates_iff (A := False) (.bind (.project hp hys hnone) ?_) hb
  rintro outputs c _ ⟨values, rfl, hvalues⟩
  exact hruns c values hvalues

end Planes

section Calls

variable {x y c : Option Tensor} {z w : ComplexValue} (hfloat : e.isFloat = true)
include hfloat

theorem worksOnPlanes_perPlane {name : String} {opTypes : List String} {op : Op}
    (hop : op.IsArithmetic) (hmem : node.opType ∈ opTypes)
    (hrule : Registry.standard.find? node.opType = some (.perPlane name opTypes op))
    (hz : z.IsOperand σ b.graph e x) (hw : w.IsOperand σ b.graph e y) :
    WorksOnPlanes σ b e node [.complex z, .complex w]
      fun part => op.result? [plane? part.place x, plane? part.place y] := by
  have hsame := Op.sameType_arithmetic hop hop (sameType_plane? x 0 1) (sameType_plane? y 0 1)
  have hpacked := Runs.translate (A := False) hrule (.perPlane_complex hop hfloat hmem hz hw id)
  refine ⟨.of_pack hsame (hpacked.imp id fun _ _ _ ⟨r, houtputs, hr⟩ =>
    ⟨r, houtputs, hr.toDenotes⟩), fun part => ?_⟩
  refine ⟨_, .cons (.complex hz) (.cons (.complex hw) .nil), Op.result?_of_none_mem, ?_⟩
  intro c values hvalues
  obtain _ | ⟨hv, _ | ⟨hv', _ | _⟩⟩ := hvalues
  exact .translate hrule (.perPlane_plain hop hmem hv hv' id)

theorem worksOnPlanes_addN {zs : List ComplexValue} {xs : List (Option Tensor)}
    (hmem : node.opType ∈ ["AddN", "ADD_N"])
    (hrule : Registry.standard.find? node.opType = some .addN) (hne : zs ≠ [])
    (hzs : List.Forall₂ (fun z x => z.IsOperand σ b.graph e x) zs xs) :
    WorksOnPlanes σ b e node (zs.map .complex)
      fun part => sum? (xs.map (plane? part.place)) := by
  have hsame : Op.SameType (sum? (xs.map (plane? 0))) (sum? (xs.map (plane? 1))) := by
    refine sameType_sum? ?_
    rw [List.forall₂_map_left_iff, List.forall₂_map_right_iff]
    exact List.forall₂_same.mpr fun x _ => sameType_plane? x 0 1
  have hpacked := Runs.translate (A := False) hrule (.addN_complex hfloat hmem hne hzs id)
  refine ⟨.of_pack hsame (hpacked.imp id fun _ _ _ ⟨r, houtputs, hr⟩ =>
    ⟨r, houtputs, hr.toDenotes⟩), fun part => ?_⟩
  have hprojects : List.Forall₂ (Projects σ b.graph e part) (zs.map .complex)
      (xs.map (plane? part.place)) := by
    rw [List.forall₂_map_left_iff, List.forall₂_map_right_iff]
    exact hzs.imp fun _ _ hz => .complex hz
  refine ⟨_, hprojects, sum?_of_none_mem, fun c values hvalues => ?_⟩
  have hvalues' : values ≠ [] := by
    rw [← List.length_pos_iff, hvalues.length_eq, List.length_map, ← hzs.length_eq]
    exact List.length_pos_iff.mpr hne
  exact .translate hrule (.addN_plain hmem hvalues' hvalues id)

theorem worksOnPlanes_selection {prepare : ValueId → ValueId → Build ValueId}
    {f : Option Tensor → Option Tensor → Option Tensor} {condition : ValueId}
    (hp : Preparation prepare f)
    (hrule : Registry.standard.find? node.opType = some (.selection node.opType prepare))
    (hc : Denotes σ b.graph condition c) (hz : z.IsOperand σ b.graph e x)
    (hw : w.IsOperand σ b.graph e y) :
    WorksOnPlanes σ b e node [.plain condition, .complex z, .complex w]
      fun part => chosen? f c (plane? part.place x) (plane? part.place y) := by
  refine ⟨.of_pack (sameType_chosen? hp 0 1)
    (.translate hrule (.selection_complex hp hfloat hc hz hw id)), fun part => ?_⟩
  refine ⟨_, .cons (.plain hc) (.cons (.complex hz) (.cons (.complex hw) .nil)),
    chosen?_of_none_mem hp, fun c values hvalues => ?_⟩
  obtain _ | ⟨hv, _ | ⟨hv', _ | ⟨hv'', _ | _⟩⟩⟩ := hvalues
  exact .translate hrule (.selection_plain hp hv hv' hv'' id)

theorem worksOnPlanes_pad {paddings : ValueId} {table : Tensor} {n : Nat}
    (hop : node.opType = "Pad") (hz : z.IsOperand σ b.graph e x)
    (hd : Denotes σ b.graph paddings (some table)) (hshape : table.shape = [n, 2]) :
    WorksOnPlanes σ b e node [.complex z, .plain paddings]
      fun part => padded? table (plane? part.place x) := by
  have hrule : Registry.standard.find? node.opType = some .pad := hop ▸ rfl
  have hnone {y : Option Tensor} (h : none ∈ [y, some table]) : padded? table y = none := by
    obtain rfl : y = none := by simpa [eq_comm] using h
    exact result?_pad_none
  have hpacked := Runs.translate (A := False) hrule (.pad_complex hz hfloat hd hshape hop id)
  refine ⟨⟨hpacked.imp id fun g outputs _ hr => ?_, fun h part => padded?_plane?_eq_none h⟩,
    fun part => ?_⟩
  · obtain ⟨r, y, rfl, hr, hpairs, hplanes⟩ := hr
    exact ⟨r, y, rfl, hr, hpairs, fun part => hplanes part.place part.place_lt⟩
  · refine ⟨_, .cons (.complex hz) (.cons (.plain hd) .nil), hnone, fun c values hvalues => ?_⟩
    obtain _ | ⟨hv, _ | ⟨hv', _ | _⟩⟩ := hvalues
    exact .translate hrule (.pad_plain hv hv' hshape hop id)

end Calls

theorem find?_addN (h : node.opType ∈ ["AddN", "ADD_N"]) :
    Registry.standard.find? node.opType = some .addN := by
  rcases List.mem_pair.mp h with h | h <;> exact h ▸ rfl

theorem find?_add (h : node.opType ∈ ["Add", "AddV2"]) :
    Registry.standard.find? node.opType = some .add := by
  rcases List.mem_pair.mp h with h | h <;> exact h ▸ rfl

theorem find?_select (h : node.opType = "Select") :
    Registry.standard.find? node.opType = some (.selection node.opType Rule.extendCondition) := by
  rw [h]
  rfl

theorem exists_worksOnPlanes (hg : b.graph.WellFormed)
    (h : PlaneCall b.graph feeds e node.opType inputs) :
    ∃ f, WorksOnPlanes ⟨feeds, True⟩ b e node inputs f := by
  have hfloat {z : ComplexValue} (hz : z.IsOperandOf b.graph feeds e) : e.isFloat = true :=
    (packed_of_marked hg hz.marked).1
  have hadd : Op.add.IsArithmetic := trivial
  have hsubtract : Op.subtract.IsArithmetic := trivial
  generalize hop : node.opType = opType at h
  cases h with
  | @binary _ x y hmem hx hy =>
    have hz := hx.isOperand hg
    have hw := hy.isOperand hg
    simp only [List.mem_cons, List.not_mem_nil, or_false] at hmem
    obtain hmem | rfl := or_assoc.mpr hmem
    · have hmem : node.opType ∈ ["Add", "AddV2"] := by simpa [hop] using hmem
      exact ⟨_, worksOnPlanes_perPlane (hfloat hx) hadd hmem (find?_add hmem) hz hw⟩
    · have hmem : node.opType ∈ ["Sub"] := List.mem_singleton.mpr hop
      have hrule : Registry.standard.find? node.opType = some .sub := hop ▸ rfl
      exact ⟨_, worksOnPlanes_perPlane (hfloat hx) hsubtract hmem hrule hz hw⟩
  | @sum _ zs hmem hne hzs =>
    obtain ⟨z, hz⟩ := List.exists_mem_of_ne_nil zs hne
    have hmem : node.opType ∈ ["AddN", "ADD_N"] := hop ▸ hmem
    have hoperands : List.Forall₂ (fun z x => z.IsOperand ⟨feeds, True⟩ b.graph e x) zs
        (zs.map fun z => outcome? b.graph feeds z.packed) := by
      rw [List.forall₂_map_right_iff, List.forall₂_same]
      exact fun z hz => (hzs z hz).isOperand hg
    exact ⟨_, worksOnPlanes_addN (hfloat (hzs z hz)) hmem (find?_addN hmem) hne hoperands⟩
  | select hmem hc hx hy =>
    have hcondition := Graph.denotes_meaning (σ := ⟨feeds, True⟩) hg hc
    have hz := hx.isOperand hg
    have hw := hy.isOperand hg
    rcases List.mem_pair.mp hmem with rfl | rfl
    · exact ⟨_, worksOnPlanes_selection (hfloat hx) preparation_extendCondition (find?_select hop)
        hcondition hz hw⟩
    · have hrule : Registry.standard.find? node.opType =
          some (.selection node.opType fun condition _ => pure condition) := by
        rw [hop]
        rfl
      exact ⟨_, worksOnPlanes_selection (hfloat hx) preparation_pure hrule hcondition hz hw⟩
  | @pad _ paddings table n hx htable hshape =>
    have hd := denotes_of_evaluate hg htable
    exact ⟨_, worksOnPlanes_pad (hfloat hx) hop (hx.isOperand hg) hd hshape⟩

/-- The part of the product of two packed tensors, if they and their product exist. -/
def product? (x y : Option Tensor) : Part → Option Tensor
  | .real => productReal? (plane? 0 x) (plane? 1 x) (plane? 0 y) (plane? 1 y)
  | .imag => productImag? (plane? 0 x) (plane? 1 x) (plane? 0 y) (plane? 1 y)

theorem result?_toOption {op : Op} {x y : Except TensorLowering.Error Tensor} :
    op.result? [x.toOption, y.toOption] = (do op.compute [← x, ← y]).toOption := by
  cases x with
  | error => exact Op.result?_of_none_mem (.head _)
  | ok t =>
    cases y with
    | error => exact Op.result?_of_none_mem (.tail _ (.head _))
    | ok u => exact Op.result?_two

theorem product?_some {p q : Tensor} :
    product? (some p) (some q) part = (part.ofProduct p q).toOption := by
  cases part <;>
    simp only [product?, productReal?, productImag?, plane?, Option.map_some, Op.result?_two,
      result?_toOption, Part.ofProduct]

theorem product?_eq_some {x y : Option Tensor} {t : Tensor} : product? x y part = some t ↔
    ∃ p q, x = some p ∧ y = some q ∧ part.ofProduct p q = .ok t := by
  have hnone (h : x = none ∨ y = none) : product? x y part = none := by
    have hmem (k l : Nat) : none ∈ [plane? k x, plane? l y] := by
      rcases h with rfl | rfl <;> simp [plane?]
    cases part <;>
      simp only [product?, productReal?, productImag?, Op.result?_of_none_mem (hmem _ _)] <;>
      exact Op.result?_of_none_mem (.head _)
  cases x with
  | none => simp [hnone (.inl rfl)]
  | some p =>
    cases y with
    | none => simp [hnone (.inr rfl)]
    | some q =>
      rw [product?_some, toOption_eq_some]
      simp

theorem givesPlanes_mul (hfloat : e.isFloat = true) {x y : Option Tensor} {z w : ComplexValue}
    (hop : node.opType = "Mul") (hz : z.IsOperand σ b.graph e x) (hw : w.IsOperand σ b.graph e y) :
    GivesPlanes σ b node [.complex z, .complex w] (product? x y) := by
  have hrule : Registry.standard.find? node.opType = some .mul := hop ▸ rfl
  exact .of_pack (sameType_product (sameType_plane? y 0 1))
    (.translate hrule (.mul_complex hfloat hop hz hw id))

/-- Lowering a node on complex operands and then projecting its result comes to the same tensor as
projecting the operands and then lowering the node, or neither comes to a tensor. A projection of a
product is computed from the planes of the operands. -/
theorem translation_planewise (hg : Graph.Reachable b.graph)
    (hp : projection.opType = part.opType) :
    (∀ node inputs, PlaneCall b.graph feeds e node.opType inputs → ∀ t,
      Evaluates feeds (translate node inputs >>= translate projection) b t ↔
        Evaluates feeds (project projection inputs >>= translate node) b t) ∧
    ∀ (node : Source.Node) (x y : ComplexValue), node.opType = "Mul" →
      x.IsOperandOf b.graph feeds e → y.IsOperandOf b.graph feeds e → ∀ t,
      Evaluates feeds (translate node [.complex x, .complex y] >>= translate projection) b t ↔
        ∃ p q, b.graph.evaluate feeds [x.packed] = .ok [p] ∧
          b.graph.evaluate feeds [y.packed] = .ok [q] ∧ part.ofProduct p q = .ok t := by
  have hw := hg.wellFormed
  constructor
  · intro node inputs hcall t
    obtain ⟨f, hf⟩ := exists_worksOnPlanes hw hcall
    rw [hf.evaluates_iff hw hp, hf.evaluates_project_iff hw hp]
  · intro node x y hop hx hy t
    obtain ⟨hfloat, hxlt, -⟩ := packed_of_marked hw hx.marked
    obtain ⟨-, hylt, -⟩ := packed_of_marked hw hy.marked
    have hproduct := givesPlanes_mul hfloat hop (hx.isOperand hw) (hy.isOperand hw)
    rw [hproduct.evaluates_iff hw hp, product?_eq_some]
    simp only [outcome?_eq_some hw hxlt, outcome?_eq_some hw hylt]

/-- A complex vector of unknown length, and a table that pads a vector by one element. -/
def vector : Builder where
  graph := Graph.build {} [
    .parameter "z" .f32 (.ranked [none, some 2]),
    .op "z/complex" (.complexMark .f32) [0],
    .constant "paddings" ⟨.i64, [1, 2], #[1, 0], by decide⟩]
  node := "padded"
  opType := "Pad"

/-- The vector has one element, `1 + 2i`. -/
def oneElement : Feeds :=
  [("z", ⟨.f32, [1, 2], #[⟨0x3f800000⟩, ⟨0x40000000⟩], by decide⟩)]

theorem vector_meaning : vector.graph.evaluate oneElement [0] =
    .ok [⟨.f32, [1, 2], #[⟨0x3f800000⟩, ⟨0x40000000⟩], rfl⟩] := by
  decide +kernel

theorem vector_isOperandOf : ComplexValue.IsOperandOf vector.graph oneElement .f32 ⟨1, 0, .f32⟩ :=
  .of_evaluate rfl ⟨_, rfl, rfl, rfl⟩ vector_meaning rfl

/-- The imaginary plane of the padded vector is `0, 2`, and that of its square is `4`. -/
theorem vector_planewise :
    Graph.Reachable vector.graph ∧
    Evaluates oneElement (translate ⟨"padded", "Pad", [], []⟩ [.complex ⟨1, 0, .f32⟩, .plain 2] >>=
      translate ⟨"im", "Imag", [], []⟩) vector ⟨.f32, [2], #[⟨0⟩, ⟨0x40000000⟩], rfl⟩ ∧
    Evaluates oneElement (translate ⟨"square", "Mul", [], []⟩
      [.complex ⟨1, 0, .f32⟩, .complex ⟨1, 0, .f32⟩] >>= translate ⟨"im", "Imag", [], []⟩) vector
      ⟨.f32, [1], #[⟨0x40800000⟩], rfl⟩ := by
  have hg : Graph.Reachable vector.graph := Graph.reachable_build {} _
  have htable : vector.graph.evaluate oneElement [2] = .ok [⟨.i64, [1, 2], #[1, 0], rfl⟩] := by
    decide +kernel
  have hp : (⟨"im", "Imag", [], []⟩ : Source.Node).opType = Part.imag.opType := rfl
  obtain ⟨hplanes, hproduct⟩ := translation_planewise hg hp
  refine ⟨hg, ?_, ?_⟩
  · refine (hplanes ⟨"padded", "Pad", [], []⟩ _ (.pad vector_isOperandOf htable rfl) _).mpr ?_
    decide +kernel
  · refine (hproduct ⟨"square", "Mul", [], []⟩ _ _ rfl vector_isOperandOf vector_isOperandOf _).mpr ?_
    exact ⟨_, _, vector_meaning, vector_meaning, by decide +kernel⟩

end TensorLowering.Lowering
