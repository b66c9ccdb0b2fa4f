import TensorLowering.Lowering.Planes
import TensorLowering.Proofs.Dataflow.Adding
import TensorLowering.Proofs.Lowering.Keeps
import TensorLowering.Proofs.Tensor.Planes

/-!
# What programs compute

`Runs` says which tensors the values stand for that a program returns, in a scenario, and under which
condition the program may fail. Emitting an operation gives a value that stands for what the
operation makes of the tensors of its inputs, and fails only if it makes nothing of them
(`Runs.emit`, `Runs.apply`). From it follow rules for the building blocks that work with the planes
of complex values: taking them, multiplying them, and packing them again.

Few programs take angles. A run adds such operations only under a condition of its own (`Leads`); the
rules for programs that take none hold under any condition, also under one that is false.
-/

namespace TensorLowering

open Dataflow (ValueId Graph)
open Dataflow.Graph (Scenario Denotes)

namespace Dataflow.Graph

/-- The later graph results from a well-formed one by adding operations, which take angles only under
the condition. -/
structure Leads (g : Graph) (A : Prop) (g' : Graph) : Prop where
  wellFormed : g.WellFormed
  grows : g.Grows (fun op => op = .atan2 → A) g'

variable {A : Prop} {g g' g'' : Graph} {σ : Scenario} {id : ValueId} {x : Option Tensor}

theorem Leads.after (h : g.Leads A g') : g'.WellFormed :=
  h.grows.wellFormed h.wellFormed

theorem Leads.trans (h : g.Leads A g') (h' : g'.Leads A g'') : g.Leads A g'' :=
  ⟨h.wellFormed, h.grows.trans h'.grows⟩

theorem Denotes.along (h : Denotes σ g id x) (hg : g.Leads A g') : Denotes σ g' id x :=
  h.mono hg.wellFormed hg.after hg.grows.toExtends

end Dataflow.Graph

namespace Lowering

variable {α β : Type} {b : Builder} {A F F' : Prop} {Q Q' : Graph → α → Prop}
  {R : Graph → β → Prop} {σ : Scenario}

/-- An outcome of a run from the builder: the graph leads to a later one, with angles only under the
first condition, what was returned, if anything was, has the property, and the run failed only under
the second condition. -/
structure Ran (A : Prop) (b : Builder) (F : Prop) (Q : Graph → α → Prop)
    (outcome : Except Error α × Builder) : Prop where
  leads : b.graph.Leads A outcome.2.graph
  post : ∀ a, outcome.1 = .ok a → Q outcome.2.graph a
  error : ∀ e, outcome.1 = .error e → F

/-- Run from the builder, the program takes angles only under the first condition and fails only under
the second, and what it returns otherwise has the property. -/
def Runs (A : Prop) (b : Builder) (program : Build α) (F : Prop) (Q : Graph → α → Prop) : Prop :=
  b.graph.WellFormed → Ran A b F Q (program.exec b)

namespace Runs

theorem imp {program : Build α} (h : Runs A b program F Q) (hF : F → F')
    (hQ : ∀ g a, b.graph.Leads A g → Q g a → Q' g a) : Runs A b program F' Q' := fun hb =>
  have hran := h hb
  ⟨hran.leads, fun a ha => hQ _ a hran.leads (hran.post a ha), fun e he => hF (hran.error e he)⟩

/-- What holds whenever the program succeeds may be added. -/
theorem and {program : Build α} {P : Graph → α → Prop} (h : Runs A b program F Q)
    (h' : Runs A b program True P) : Runs A b program F fun g a => Q g a ∧ P g a := fun hb =>
  ⟨(h hb).leads, fun a ha => ⟨(h hb).post a ha, (h' hb).post a ha⟩, (h hb).error⟩

theorem pure {a : α} (hQ : Q b.graph a) : Runs A b (pure a) F Q := fun hb =>
  ⟨⟨hb, .refl⟩, fun _ ha => Except.ok.inj ha ▸ hQ, nofun⟩

theorem throw {e : Error} (hF : F) : Runs A b (throw e) F Q := fun hb =>
  ⟨⟨hb, .refl⟩, nofun, fun _ _ => hF⟩

/-- Two programs in a row. -/
theorem bind {program : Build α} {next : α → Build β} (h : Runs A b program F Q)
    (hnext : ∀ a c, b.graph.Leads A c.graph → Q c.graph a → Runs A c (next a) F R) :
    Runs A b (program >>= next) F R := by
  intro hb
  have hran := h hb
  rw [Build.exec_bind]
  generalize program.exec b = outcome at hran
  obtain ⟨_ | a, c⟩ := outcome
  · exact ⟨hran.leads, nofun, fun e _ => hran.error _ rfl⟩
  · have hrest := hnext a c hran.leads (hran.post a rfl) hran.leads.after
    exact ⟨hran.leads.trans hrest.leads, hrest.post, hrest.error⟩

/-- A check that passes. -/
theorem liftM_bind {x : Except Error α} {a : α} {next : α → Build β} (hx : x = .ok a)
    (h : Runs A b (next a) F R) : Runs A b ((MonadLiftT.monadLift x : Build α) >>= next) F R := by
  intro hb
  rw [Build.exec_bind, Build.exec_liftM, hx]
  exact h hb

/-- A question to the graph that has an answer. -/
theorem query_bind {read : Graph → Except TensorLowering.Error α} {a : α} {next : α → Build β}
    (hread : read b.graph = .ok a) (h : Runs A b (next a) F R) :
    Runs A b (Build.query read >>= next) F R := by
  intro hb
  rw [Build.exec_bind, Build.exec_query, hread]
  exact h hb

/-- Collecting results, where what holds of an earlier graph holds of later ones. -/
theorem mapM {γ : Type} {f : α → Build β} {P : Graph → α → γ → Prop} {T : Graph → β → γ → Prop}
    {xs : List α} {zs : List γ} (hP : ∀ {g g' x z}, P g x z → g.Leads A g' → P g' x z)
    (hT : ∀ {g g' y z}, T g y z → g.Leads A g' → T g' y z)
    (h : ∀ {b x z}, z ∈ zs → P b.graph x z → Runs A b (f x) F fun g y => T g y z)
    (hxs : List.Forall₂ (P b.graph) xs zs) :
    Runs A b (xs.mapM f) F fun g ys => List.Forall₂ (T g) ys zs := by
  induction xs generalizing zs b with
  | nil =>
    obtain rfl := List.forall₂_nil_left_iff.mp hxs
    exact .pure .nil
  | cons x xs ih =>
    obtain ⟨z, zs, hx, hrest, rfl⟩ := List.forall₂_cons_left_iff.mp hxs
    rw [List.mapM_cons]
    refine .bind (h List.mem_cons_self hx) fun y c hc hy => ?_
    have hrest := hrest.imp fun _ _ hx => hP hx hc
    refine .bind (ih (fun hz => h (List.mem_cons_of_mem _ hz)) hrest) fun ys c' hc' hys => ?_
    exact .pure (.cons (hT hy hc') hys)

/-! ## Emitting -/

/-- Emitting adds to the graph, under the next name. -/
theorem of_add {op : Op} {inputs : List ValueId} {Q : Graph → ValueId → Prop}
    (hangle : op = .atan2 → A)
    (hQ : ∀ id g, b.graph.add (b.nextName op) op inputs = .ok (id, g) → Q g id)
    (hF : ∀ cause, b.graph.add (b.nextName op) op inputs = .error cause → F) :
    Runs A b (Build.emit op inputs) F Q := by
  intro hb
  rw [Build.exec_emit]
  cases hadd : b.graph.add (b.nextName op) op inputs with
  | ok added =>
    refine ⟨⟨hb, .add .refl hangle hadd⟩, fun id hid => ?_, nofun⟩
    obtain rfl := Except.ok.inj hid
    exact hQ _ _ hadd
  | error cause => exact ⟨⟨hb, .refl⟩, nofun, fun _ _ => hF cause hadd⟩

/-- Where the run may fail, any operation may be emitted. -/
theorem emit_any {op : Op} {inputs : List ValueId} (hF : F) (hangle : op = .atan2 → A) :
    Runs A b (Build.emit op inputs) F fun g id => g.Has id op inputs :=
  .of_add hangle (fun _ _ hadd => Graph.has_of_add hadd) fun _ _ => hF

/-- Emitting fails only if the operation is not accepted on the tensors of its inputs. -/
theorem emit_has {op : Op} {inputs : List ValueId} {xs : List (Option Tensor)}
    (hangle : op = .atan2 → A)
    (hmark : op.isComplexMark = true → ∀ input ∈ inputs, b.graph.Unmarked input)
    (hin : List.Forall₂ (Denotes σ b.graph) inputs xs) (hok : op.Accepts xs ∨ F) :
    Runs A b (Build.emit op inputs) F fun g id => g.Has id op inputs := by
  rcases hok with ⟨vs, v, type, rfl, hv, ht⟩ | hF
  · obtain ⟨id, g, hadd⟩ := Graph.exists_add_of_compute (b.nextName op)
      (Graph.forall₂_denotes_some hin).1 hmark ht hv
    refine of_add hangle (fun _ _ hadd => Graph.has_of_add hadd) fun cause herror => ?_
    cases hadd.symm.trans herror
  · exact emit_any hF hangle

/-- What is emitted stands for the result of the operation. -/
theorem emit {op : Op} {inputs : List ValueId} {xs : List (Option Tensor)} (hangle : op = .atan2 → A)
    (hop : op.IsComputed)
    (hmark : op.isComplexMark = true → ∀ input ∈ inputs, b.graph.Unmarked input)
    (hin : List.Forall₂ (Denotes σ b.graph) inputs xs) (hok : op.Accepts xs ∨ F) :
    Runs A b (Build.emit op inputs) F fun g id =>
      g.Has id op inputs ∧ Denotes σ g id (op.result? xs) := by
  refine imp (emit_has hangle hmark hin hok) id fun g id h hhas => ⟨hhas, ?_⟩
  exact hhas.denotes h.after hop (hin.imp fun _ _ hx => hx.along h)

/-- The same for the operations that check everything when they compute. -/
theorem apply {op : Op} {inputs : List ValueId} {xs : List (Option Tensor)} (hop : op.ChecksAll)
    (hin : List.Forall₂ (Denotes σ b.graph) inputs xs) (hF : op.result? xs = none → F) :
    Runs A b (Build.emit op inputs) F fun g id =>
      g.Has id op inputs ∧ Denotes σ g id (op.result? xs) := by
  have hmark : op.isComplexMark = false := by
    cases op <;> first | rfl | exact hop.elim
  refine emit ?_ ?_ ?_ hin ?_
  · rintro rfl
    exact hop.elim
  · cases op <;> trivial
  · simp [hmark]
  · cases hx : op.result? xs with
    | some v => exact .inl (hop.accepts hx)
    | none => exact .inr (hF hx)

/-- What they give may be known in another form. -/
theorem apply_eq {op : Op} {inputs : List ValueId} {xs : List (Option Tensor)} {y : Option Tensor}
    (hop : op.ChecksAll) (hin : List.Forall₂ (Denotes σ b.graph) inputs xs)
    (hy : op.result? xs = y) (hF : y = none → F) :
    Runs A b (Build.emit op inputs) F fun g id => Denotes σ g id y := by
  subst hy
  exact imp (apply hop hin hF) id fun _ _ _ h => h.2

/-- A constant can always be added. -/
theorem constant (value : Tensor) :
    Runs A b (Build.constant value) F fun g id => ∀ σ, Denotes σ g id (some value) := by
  have hcompute : (Op.constant value).compute [] = .ok value := rfl
  have hnil (σ : Scenario) (g : Graph) : List.Forall₂ (Denotes σ g) [] ([].map some) := .nil
  have hok : (Op.constant value).Accepts [] ∨ F := .inl ⟨[], value, _, rfl, hcompute, rfl⟩
  refine imp (emit_has nofun nofun (hnil ⟨[], True⟩ _) hok) id fun g id h hhas σ => ?_
  exact hhas.denotes_of_compute h.after (hnil σ g) hcompute

theorem int (value : Int) :
    Runs A b (Build.int value) F fun g id => ∀ σ, Denotes σ g id (some (.ofInt value)) :=
  .constant _

theorem ints (values : List Int) :
    Runs A b (Build.ints values) F fun g id => ∀ σ, Denotes σ g id (some (.ofInts values)) :=
  .constant _

end Runs

/-! ## Planes -/

/-- The planes stand for the two tensors. -/
structure Planes.Denote (σ : Scenario) (g : Graph) (planes : Planes) (x y : Option Tensor) :
    Prop where
  real : Denotes σ g planes.real x
  imag : Denotes σ g planes.imag y

variable {x y u v : Option Tensor}

theorem Planes.Denote.along {planes : Planes} {g g' : Graph} (h : planes.Denote σ g x y)
    (hg : g.Leads A g') : planes.Denote σ g' x y :=
  ⟨h.real.along hg, h.imag.along hg⟩

/-- The value is a marked one, and its packed tensor stands for the tensor. -/
structure ComplexValue.Denotes (σ : Scenario) (g : Graph) (z : ComplexValue) (x : Option Tensor) :
    Prop where
  marked : g.Has z.marker (.complexMark z.partType) [z.packed]
  packed : Graph.Denotes σ g z.packed x

theorem ComplexValue.Denotes.along {g g' : Graph} {z : ComplexValue} (h : z.Denotes σ g x)
    (hg : g.Leads A g') : z.Denotes σ g' x :=
  ⟨h.marked.mono hg.grows.toExtends, h.packed.along hg⟩

/-- The packed tensor of a complex value is also what its mark comes to. -/
theorem ComplexValue.Denotes.marker {g : Graph} {z : ComplexValue} (hg : g.WellFormed)
    (h : z.Denotes σ g x) : Graph.Denotes σ g z.marker x := by
  have hmark : (Op.complexMark z.partType).result? [x] = x := by
    cases x with
    | none => exact Op.result?_of_none_mem (.head _)
    | some p => exact Op.result?_one
  exact hmark ▸ h.marked.denotes hg trivial (.cons h.packed .nil)

/-- Each tensor of pairs has two places on its last axis. -/
def ArePairs (x : Option Tensor) : Prop :=
  ∀ p, x = some p → p.shape.getLast? = some 2

theorem ArePairs.exists_tabulate {p : Tensor} (h : ArePairs (some p)) :
    ∃ e shape f, p = .tabulate e (shape ++ [2]) f := by
  obtain ⟨shape, hshape⟩ := List.getLast?_eq_some_iff.mp (h p rfl)
  exact ⟨_, shape, Tensor.exists_tabulate (congrArg (TensorType.mk _ ∘ .fixed) hshape)⟩

/-- The tensors side by side on a new last axis. -/
def pack? (x y : Option Tensor) : Option Tensor :=
  (Op.concat (-1)).result? [(Op.unsqueeze [-1]).result? [x], (Op.unsqueeze [-1]).result? [y]]

theorem exists_pack? {t : Tensor} (h : Op.SameType (some t) y) : ∃ p, pack? (some t) y = some p ∧
    p.type = ⟨t.elementType, .fixed (t.shape ++ [2])⟩ ∧ p.plane 0 = t ∧ y = some (p.plane 1) := by
  obtain ⟨t', rfl, ht⟩ := h.exists_eq_some
  obtain ⟨up, up', p, hup, hup', hp, htype, rfl, rfl⟩ := Tensor.exists_pack ht
  have hx : (Op.unsqueeze [-1]).result? [some (p.plane 0)] = some up :=
    Op.result?_one.trans (congrArg Except.toOption hup)
  have hy : (Op.unsqueeze [-1]).result? [some (p.plane 1)] = some up' :=
    Op.result?_one.trans (congrArg Except.toOption hup')
  have hpack : pack? (some (p.plane 0)) (some (p.plane 1)) = some p := by
    rw [pack?, hx, hy]
    exact Op.result?_two.trans (congrArg Except.toOption hp)
  exact ⟨p, hpack, htype, rfl, rfl⟩

theorem pack?_none : pack? none y = none := by
  have hnone : (Op.unsqueeze [-1]).result? [none] = none := Op.result?_of_none_mem (.head _)
  rw [pack?, hnone]
  exact Op.result?_of_none_mem (.head _)

/-- What is packed has the tensors as its planes. -/
theorem plane_pack? (h : Op.SameType x y) :
    (pack? x y).map (·.plane 0) = x ∧ (pack? x y).map (·.plane 1) = y := by
  cases x with
  | none =>
    obtain rfl : y = none := Option.map_eq_none_iff.mp (Eq.symm h)
    rw [pack?_none]
    exact ⟨rfl, rfl⟩
  | some t =>
    obtain ⟨p, hp, -, rfl, rfl⟩ := exists_pack? h
    rw [hp]
    exact ⟨rfl, rfl⟩

theorem arePairs_pack? (h : Op.SameType x y) : ArePairs (pack? x y) := by
  intro p hp
  cases x with
  | none =>
    rw [pack?_none] at hp
    cases hp
  | some t =>
    obtain ⟨p', hp', htype, -⟩ := exists_pack? h
    obtain rfl := Option.some.inj (hp'.symm.trans hp)
    rw [PartialShape.fixed.inj (congrArg TensorType.shape htype), List.getLast?_concat]

/-- Only tensors of one type can be packed. -/
theorem sameType_of_pack? {p : Tensor} (h : pack? x y = some p) : Op.SameType x y := by
  obtain ⟨_, _, hx, hy, hpack⟩ := Op.result?_two_eq_some.mp h
  obtain ⟨t, rfl, ht⟩ := Op.result?_one_eq_some.mp hx
  obtain ⟨t', rfl, ht'⟩ := Op.result?_one_eq_some.mp hy
  exact congrArg some (Tensor.type_eq_of_pack ht ht' hpack)

/-- Gathering an index from the pairs takes a plane. -/
theorem result?_gather {k : Nat} (hk : k < 2) (h : ArePairs x) :
    (Op.gather (-1)).result? [x, some (.ofInt k)] = x.map (·.plane k) := by
  cases x with
  | none => exact Op.result?_of_none_mem (.head _)
  | some p =>
    have hlast := h p rfl
    have hrank : 0 < p.shape.length := by
      rw [List.length_pos_iff]
      intro hnil
      rw [hnil] at hlast
      cases hlast
    have haxis := Shape.resolveAxis_neg_one hrank
    exact Op.result?_two.trans
      (congrArg Except.toOption (Tensor.gather_plane haxis hlast hk (by decide)))

namespace Runs

/-- Taking the planes fails only if there is no tensor. -/
theorem planes {value : ComplexValue} (hx : Graph.Denotes σ b.graph value.packed x)
    (hpairs : ArePairs x) (hF : x = none → F) :
    Runs A b value.planes F fun g planes =>
      planes.Denote σ g (x.map (·.plane 0)) (x.map (·.plane 1)) := by
  have hreal : (Op.gather (-1)).result? [x, some (.ofInt 0)] = x.map (·.plane 0) :=
    result?_gather (by decide) hpairs
  have himag : (Op.gather (-1)).result? [x, some (.ofInt 1)] = x.map (·.plane 1) :=
    result?_gather (by decide) hpairs
  unfold ComplexValue.planes
  refine .bind (.int 0) fun realIndex c₁ h₁ hr => ?_
  refine .bind (.int 1) fun imagIndex c₂ h₂ hi => ?_
  have hF (k : Nat) (h : x.map (·.plane k) = none) : F := hF (Option.map_eq_none_iff.mp h)
  have hx := hx.along (h₁.trans h₂)
  have hr := (hr σ).along h₂
  refine .bind (.apply_eq trivial (.cons hx (.cons hr .nil)) hreal (hF 0)) fun real c₃ h₃ hp => ?_
  have hx := hx.along h₃
  have hi := (hi σ).along h₃
  refine .bind (.apply_eq trivial (.cons hx (.cons hi .nil)) himag (hF 1)) fun imag c₄ h₄ hq => ?_
  exact .pure ⟨hp.along h₄, hq⟩

/-- Pairs of floats of the part type may be marked. -/
theorem markComplex {packed : ValueId} {partType : ElementType}
    (hx : Graph.Denotes σ b.graph packed x) (hmark : b.graph.Unmarked packed) (hpairs : ArePairs x)
    (hfloat : partType.isFloat = true) (hpart : ∀ t, x = some t → t.elementType = partType)
    (hF : x = none → F) :
    Runs A b (Lowering.markComplex packed partType) F fun g lowered =>
      ∃ z, lowered = .complex z ∧ z.partType = partType ∧ z.Denotes σ g x := by
  have hok : (Op.complexMark partType).Accepts [x] ∨ F := by
    cases x with
    | none => exact .inr (hF rfl)
    | some p =>
      obtain ⟨type, ht⟩ := Op.exists_inferComplexMark (.complexMark partType) (hpart p rfl)
        hfloat (hpairs p rfl)
      exact .inl ⟨[p], p, type, rfl, rfl, ht⟩
  have hunmarked : ∀ input ∈ [packed], b.graph.Unmarked input :=
    fun input hi => List.mem_singleton.mp hi ▸ hmark
  unfold Lowering.markComplex
  refine .bind (.emit nofun trivial (fun _ => hunmarked) (.cons hx .nil) hok) ?_
  intro marker c h hmarker
  exact .pure ⟨_, rfl, rfl, hmarker.1, hx.along h⟩

/-- Packing fails only if it gives nothing. -/
theorem pack {planes : Planes} (hp : planes.Denote σ b.graph x y) (hF : pack? x y = none → F) :
    Runs A b planes.pack F fun g packed =>
      g.Unmarked packed ∧ Graph.Denotes σ g packed (pack? x y) := by
  unfold Planes.pack
  refine .bind (.apply_eq trivial (.cons hp.real .nil) rfl fun h => hF ?_) fun real c₁ h₁ hr => ?_
  · rw [pack?, h]
    exact Op.result?_of_none_mem (.head _)
  have hi := hp.imag.along h₁
  refine .bind (.apply_eq trivial (.cons hi .nil) rfl fun h => hF ?_) fun imag c₂ h₂ hi => ?_
  · rw [pack?, h]
    exact Op.result?_of_none_mem (.tail _ (.head _))
  refine imp (.apply trivial (.cons (hr.along h₂) (.cons hi .nil)) hF) id ?_
  exact fun g packed _ hpacked => ⟨⟨_, _, hpacked.1, rfl⟩, hpacked.2⟩

theorem toComplex_of_pack? {planes : Planes} {partType : ElementType}
    (hp : planes.Denote σ b.graph x y) (hfloat : partType.isFloat = true)
    (hpart : ∀ t, x = some t → t.elementType = partType) (hF : pack? x y = none → F) :
    Runs A b (planes.toComplex partType) F fun g lowered =>
      ∃ z, lowered = .complex z ∧ z.partType = partType ∧ z.Denotes σ g (pack? x y) := by
  have hpairs : ArePairs (pack? x y) := fun p hpack => arePairs_pack? (sameType_of_pack? hpack) p hpack
  have hpartPacked : ∀ p, pack? x y = some p → p.elementType = partType := by
    intro p hpack
    obtain ⟨hreal, -⟩ := plane_pack? (sameType_of_pack? hpack)
    rw [hpack] at hreal
    exact hpart (p.plane 0) hreal.symm
  unfold Planes.toComplex
  exact .bind (.pack hp hF) fun packed c h hpacked =>
    markComplex hpacked.2 hpacked.1 hpairs hfloat hpartPacked hF

/-- Packing fails only if there is nothing to pack. -/
theorem toComplex {planes : Planes} {partType : ElementType} (hp : planes.Denote σ b.graph x y)
    (htype : Op.SameType x y) (hfloat : partType.isFloat = true)
    (hpart : ∀ t, x = some t → t.elementType = partType) (hF : x = none → F) :
    Runs A b (planes.toComplex partType) F fun g lowered =>
      ∃ z, lowered = .complex z ∧ z.partType = partType ∧ z.Denotes σ g (pack? x y) :=
  toComplex_of_pack? hp hfloat hpart fun h => hF (by rw [← (plane_pack? htype).1, h]; rfl)

end Runs

/-! ## Products -/

/-- The real plane of the product of `x + yi` and `u + vi`. -/
def productReal? (x y u v : Option Tensor) : Option Tensor :=
  Op.subtract.result? [Op.multiply.result? [x, u], Op.multiply.result? [y, v]]

/-- The imaginary plane of the product of `x + yi` and `u + vi`. -/
def productImag? (x y u v : Option Tensor) : Option Tensor :=
  Op.add.result? [Op.multiply.result? [x, v], Op.multiply.result? [y, u]]

theorem sameType_product (huv : Op.SameType u v) :
    Op.SameType (productReal? x y u v) (productImag? x y u v) := by
  have hac : Op.SameType (Op.multiply.result? [x, u]) (Op.multiply.result? [x, v]) :=
    Op.sameType_arithmetic trivial trivial (.refl x) huv
  have hbd : Op.SameType (Op.multiply.result? [y, v]) (Op.multiply.result? [y, u]) :=
    Op.sameType_arithmetic trivial trivial (.refl y) huv.symm
  exact Op.sameType_arithmetic trivial trivial hac hbd

/-- The product fails only if its planes do not exist. -/
theorem Runs.mul {lhs rhs : Planes} (hl : lhs.Denote σ b.graph x y) (hr : rhs.Denote σ b.graph u v)
    (huv : Op.SameType u v) (hF : productReal? x y u v = none → F) :
    Runs A b (lhs.mul rhs) F fun g planes =>
      planes.Denote σ g (productReal? x y u v) (productImag? x y u v) := by
  have hF' : productImag? x y u v = none → F := fun h => hF (by
    have hsame := sameType_product (x := x) (y := y) huv
    rw [h] at hsame
    exact Option.map_eq_none_iff.mp hsame)
  unfold Planes.mul
  refine .bind (.apply_eq trivial (.cons hl.real (.cons hr.real .nil)) rfl fun h => hF ?_) ?_
  · rw [productReal?, h]
    exact Op.result?_of_none_mem (.head _)
  intro ac c₁ h₁ hac
  replace hl := hl.along h₁
  replace hr := hr.along h₁
  refine .bind (.apply_eq trivial (.cons hl.imag (.cons hr.imag .nil)) rfl fun h => hF ?_) ?_
  · rw [productReal?, h]
    exact Op.result?_of_none_mem (.tail _ (.head _))
  intro bd c₂ h₂ hbd
  replace hl := hl.along h₂
  replace hr := hr.along h₂
  refine .bind (.apply_eq trivial (.cons hl.real (.cons hr.imag .nil)) rfl fun h => hF' ?_) ?_
  · rw [productImag?, h]
    exact Op.result?_of_none_mem (.head _)
  intro ad c₃ h₃ had
  replace hl := hl.along h₃
  replace hr := hr.along h₃
  refine .bind (.apply_eq trivial (.cons hl.imag (.cons hr.real .nil)) rfl fun h => hF' ?_) ?_
  · rw [productImag?, h]
    exact Op.result?_of_none_mem (.tail _ (.head _))
  intro bc c₄ h₄ hbc
  have hac := hac.along ((h₂.trans h₃).trans h₄)
  have hbd := hbd.along (h₃.trans h₄)
  refine .bind (.apply_eq trivial (.cons hac (.cons hbd .nil)) rfl hF) fun real c₅ h₅ hreal => ?_
  have had := had.along (h₄.trans h₅)
  have hbc := hbc.along h₅
  refine .bind (.apply_eq trivial (.cons had (.cons hbc .nil)) rfl hF') fun imag c₆ h₆ himag => ?_
  exact .pure ⟨hreal.along h₆, himag⟩

end Lowering

end TensorLowering
