import TensorLowering.Lowering.Padding
import TensorLowering.Lowering.Rule.Select
import TensorLowering.Proofs.Lowering.Running

/-!
# What rules compute of shapes and paddings

A condition in the older form is reshaped to the rank of the branches: what comes of it depends on
the shape of a branch only (`extended?_congr`). The two columns of a table of paddings are its
planes, and for packed data each of them has a zero more (`Runs.padCounts`).
-/

namespace TensorLowering.Lowering

open Dataflow (ValueId Graph)
open Dataflow.Graph (Scenario Denotes)

variable {b : Builder} {A F : Prop} {σ : Scenario} {value : ValueId} {x y c : Option Tensor}

/-! ## Shapes -/

/-- The shape of a tensor as a vector. -/
def shapeVector (t : Tensor) : Tensor :=
  .ofShape .i64 t.shape

@[simp] theorem shape_shapeVector (t : Tensor) : (shapeVector t).shape = [t.shape.length] := by
  simp [shapeVector, Tensor.ofShape, Tensor.convert, Tensor.ofInts]

/-- The shape of a tensor can always be asked for. -/
theorem Runs.shapeOf {t : Tensor} (ht : Denotes σ b.graph value (some t)) :
    Runs A b (Build.shapeOf value) F fun g shape => Denotes σ g shape (some (shapeVector t)) := by
  have hcompute : (Op.shapeOf .i64).compute [t] = .ok (shapeVector t) := rfl
  have hok : (Op.shapeOf .i64).Accepts [some t] ∨ F := .inl ⟨[t], _, _, rfl, hcompute, rfl⟩
  refine .imp (.emit_has nofun nofun (.cons ht .nil) hok) id fun g shape h hhas => ?_
  have hin : List.Forall₂ (Denotes σ g) [value] ([t].map some) := .cons (ht.along h) .nil
  exact hhas.denotes_of_compute h.after hin hcompute

/-! ## Conditions -/

/-- The number of axes that the condition has less than `x`. -/
def missing? (condition x : Tensor) : Option Tensor :=
  Op.subtract.result?
    [some (shapeVector (shapeVector x)), some (shapeVector (shapeVector condition))]

/-- As many ones. -/
def ones? (condition x : Tensor) : Option Tensor :=
  Op.broadcast.result? [some (.ofInt 1), missing? condition x]

/-- The shape of the condition, followed by the ones. -/
def extendedShape? (condition x : Tensor) : Option Tensor :=
  (Op.concat 0).result? [some (shapeVector condition), ones? condition x]

/-- The condition with axes of size 1 at the end up to the rank of `x`. -/
def extended? (condition x : Option Tensor) : Option Tensor :=
  (Op.reshape false).result? [condition,
    condition.bind fun condition => x.bind (extendedShape? condition)]

theorem extended?_congr (h : Op.SameType x y) : extended? c x = extended? c y := by
  cases x with
  | none =>
    obtain rfl : y = none := Option.map_eq_none_iff.mp (Eq.symm h)
    rfl
  | some t =>
    obtain ⟨t', rfl, ht⟩ := h.exists_eq_some
    have hshape : shapeVector t = shapeVector t' := by
      rw [shapeVector, Op.shape_of_type ht, shapeVector]
    simp only [extended?, extendedShape?, ones?, missing?, Option.bind_some, hshape]

section Known

variable {t u v : Tensor}

theorem ones?_eq_none (h : missing? t u = none) : ones? t u = none := by
  rw [ones?, h]
  exact Op.result?_of_none_mem (.tail _ (.head _))

theorem extendedShape?_eq_none (h : ones? t u = none) : extendedShape? t u = none := by
  rw [extendedShape?, h]
  exact Op.result?_of_none_mem (.tail _ (.head _))

theorem extended?_eq_none (h : extendedShape? t u = none) : extended? (some t) (some u) = none := by
  rw [extended?, Option.bind_some, Option.bind_some, h]
  exact Op.result?_of_none_mem (.tail _ (.head _))

theorem length_missing? (h : missing? t u = some v) : v.shape.length = 1 := by
  obtain ⟨_, _, ⟨rfl⟩, ⟨rfl⟩, hcompute⟩ := Op.result?_two_eq_some.mp h
  obtain ⟨shape, hs, htype⟩ := Tensor.type_arithmetic hcompute
  simp only [shape_shapeVector, List.length_singleton, Shape.broadcast_self] at hs
  rw [PartialShape.fixed.inj (congrArg TensorType.shape htype), ← Except.ok.inj hs]
  rfl

theorem length_extendedShape? (h : extendedShape? t u = some v) : v.shape.length = 1 := by
  obtain ⟨_, ones, ⟨rfl⟩, -, hcompute⟩ := Op.result?_two_eq_some.mp h
  obtain ⟨a, -, -, htype⟩ := Tensor.type_concat hcompute
  rw [PartialShape.fixed.inj (congrArg TensorType.shape htype), List.length_set, shape_shapeVector]
  rfl

theorem accepts_ones? (h : ones? t u = some v) :
    Op.broadcast.Accepts [some (.ofInt 1), missing? t u] := by
  obtain ⟨_, n, ⟨rfl⟩, hn, hcompute⟩ := Op.result?_two_eq_some.mp h
  obtain ⟨type, ht⟩ := Op.exists_inferBroadcast .broadcast hcompute (length_missing? hn)
  exact ⟨[.ofInt 1, n], v, type, congrArg ([some (.ofInt 1), ·]) hn, hcompute, ht⟩

theorem accepts_extended? (h : extended? (some t) (some u) = some v) :
    (Op.reshape false).Accepts [some t, extendedShape? t u] := by
  obtain ⟨_, shape, ⟨rfl⟩, hshape, hcompute⟩ := Op.result?_two_eq_some.mp h
  obtain ⟨type, ht⟩ :=
    Op.exists_inferReshape (.reshape false) hcompute (length_extendedShape? hshape)
  exact ⟨[t, shape], v, type, congrArg ([some t, ·]) hshape, hcompute, ht⟩

end Known

section ExtendCondition

variable {condition : ValueId}

/-- The condition is reshaped to the value. -/
def Reshaped (σ : Scenario) (condition : ValueId) (s : Option Tensor) (g : Graph) (id : ValueId) :
    Prop :=
  ∃ shape, g.Has id (.reshape false) [condition, shape] ∧ Denotes σ g shape s

/-- Whatever its new shape, the condition is reshaped. -/
theorem Runs.extendCondition_any (hF : F) :
    Runs A b (Rule.extendCondition condition value) F fun g id => ∃ s, Reshaped σ condition s g id := by
  have hangle : Op.shapeOf .i64 = .atan2 → A := nofun
  unfold Rule.extendCondition Build.rankOf Build.shapeOf
  refine .bind (.emit_any hF hangle) fun conditionShape _ _ _ => ?_
  refine .bind (.emit_any hF hangle) fun conditionRank _ _ _ => ?_
  refine .bind (Q := fun _ _ => True) (.bind (.emit_any hF hangle) fun xShape _ _ _ => ?_) ?_
  · exact .imp (.emit_any hF hangle) id fun _ _ _ _ => trivial
  intro xRank _ _ _
  refine .bind (.emit_any hF nofun) fun missing _ _ _ => ?_
  refine .bind (.int 1) fun one _ _ _ => ?_
  refine .bind (.emit_any hF nofun) fun ones _ _ _ => ?_
  refine .bind (.emit_any hF nofun) fun shape c _ hshape => ?_
  refine .imp (.emit_any hF nofun) id fun g id h hid => ?_
  exact ⟨_, shape, hid, Graph.denotes_meaning h.after (hshape.mono h.grows.toExtends).lt_size⟩

theorem Runs.extendCondition_known {t u : Tensor} (hc : Denotes σ b.graph condition (some t))
    (hx : Denotes σ b.graph value (some u)) (hF : extended? (some t) (some u) = none → F) :
    Runs A b (Rule.extendCondition condition value) F fun g id =>
      Reshaped σ condition (extendedShape? t u) g id := by
  have hshapeF : extendedShape? t u = none → F := fun h => hF (extended?_eq_none h)
  have honesF : ones? t u = none → F := fun h => hshapeF (extendedShape?_eq_none h)
  have honesOk : Op.broadcast.Accepts [some (.ofInt 1), missing? t u] ∨ F := by
    cases hones : ones? t u with
    | none => exact .inr (honesF hones)
    | some v => exact .inl (accepts_ones? hones)
  have hok : (Op.reshape false).Accepts [some t, extendedShape? t u] ∨ F := by
    cases hv : extended? (some t) (some u) with
    | none => exact .inr (hF hv)
    | some v => exact .inl (accepts_extended? hv)
  unfold Rule.extendCondition Build.rankOf
  refine .bind (.shapeOf hc) fun conditionShape _ h₁ hs => ?_
  refine .bind (.shapeOf hs) fun conditionRank _ h₂ hr => ?_
  have hx := hx.along (h₁.trans h₂)
  refine .bind (.bind (.shapeOf hx) fun _ _ _ hshape => .shapeOf hshape) fun xRank _ h₃ hxr => ?_
  have hr := hr.along h₃
  refine .bind (.apply_eq trivial (.cons hxr (.cons hr .nil)) rfl ?_) fun missing _ h₄ hm => ?_
  · exact fun h => honesF (ones?_eq_none h)
  refine .bind (.int 1) fun one _ h₅ ho => ?_
  have hm := hm.along h₅
  refine .bind (.emit nofun trivial nofun (.cons (ho σ) (.cons hm .nil)) honesOk) ?_
  intro ones _ h₆ hones
  have h₂₆ := (((h₂.trans h₃).trans h₄).trans h₅).trans h₆
  refine .bind (.apply_eq trivial (.cons (hs.along h₂₆) (.cons hones.2 .nil)) rfl hshapeF) ?_
  intro shape _ h₇ hshape
  have hc := hc.along ((h₁.trans h₂₆).trans h₇)
  refine .imp (.emit_has nofun nofun (.cons hc (.cons hshape .nil)) hok) id ?_
  exact fun g id h hid => ⟨shape, hid, hshape.along h⟩

end ExtendCondition

/-- The condition can be extended wherever its new shape exists and is one of as many elements. -/
theorem Runs.extendCondition {condition : ValueId} (hc : Denotes σ b.graph condition c)
    (hx : Denotes σ b.graph value x) (hF : extended? c x = none → F) :
    Runs A b (Rule.extendCondition condition value) F fun g id =>
      ∃ c', Denotes σ g id c' ∧ (x ≠ none → c' = extended? c x) := by
  have hdenotes {s : Option Tensor} {g : Graph} {id : ValueId} (h : b.graph.Leads A g)
      (hid : Reshaped σ condition s g id) : Denotes σ g id ((Op.reshape false).result? [c, s]) := by
    obtain ⟨shape, hhas, hs⟩ := hid
    exact hhas.denotes h.after trivial (.cons (hc.along h) (.cons hs .nil))
  have hnone (s : Option Tensor) : (Op.reshape false).result? [none, s] = none :=
    Op.result?_of_none_mem (.head _)
  have hany (hF : F) : Runs A b (Rule.extendCondition condition value) F fun g id =>
      ∃ s, Reshaped σ condition s g id := .extendCondition_any hF
  cases c with
  | none =>
    refine .imp (hany (hF (hnone _))) id fun g id h hid => ?_
    obtain ⟨s, hid⟩ := hid
    exact ⟨_, hdenotes h hid, fun _ => (hnone s).trans (hnone _).symm⟩
  | some t =>
    cases x with
    | none =>
      refine .imp (hany (hF (Op.result?_of_none_mem (.tail _ (.head _))))) id fun g id h hid => ?_
      obtain ⟨s, hid⟩ := hid
      exact ⟨_, hdenotes h hid, fun hx => absurd rfl hx⟩
    | some u =>
      refine .imp (.extendCondition_known hc hx hF) id fun g id h hid => ?_
      exact ⟨_, hdenotes h hid, fun _ => rfl⟩

/-! ## Paddings -/

/-- A column of a table of paddings. -/
def padColumn (k : Nat) (table : Tensor) : Tensor :=
  (table.convert .i64).plane k

/-- The tensor lists the counts of a column, and then further ones. -/
structure ListsColumn (k : Nat) (table : Tensor) (more : List Int) (t : Tensor) : Prop where
  elementType : t.elementType = .i64
  rank : t.shape.length = 1
  ints : ∃ counts, (padColumn k table).ints = .ok counts ∧ t.ints = .ok (counts ++ more)

theorem exists_ints {t : Tensor} (h : t.elementType = .i64) : ∃ values, t.ints = .ok values := by
  obtain ⟨e, shape, data, hsize⟩ := t
  obtain rfl : e = .i64 := h
  exact ⟨_, rfl⟩

/-- Integers can be put after a vector of integers. -/
theorem exists_concat_ofInts {t : Tensor} (helement : t.elementType = .i64)
    (hrank : t.shape.length = 1) (more : List Int) :
    ∃ t', (Op.concat 0).result? [some t, some (.ofInts more)] = some t' ∧
      t'.elementType = .i64 ∧ t'.shape.length = 1 ∧ ∀ values, t.ints = .ok values →
        t'.ints = (Tensor.ofInts more).ints.map (values ++ ·) := by
  obtain ⟨m, hm⟩ := List.length_eq_one_iff.mp hrank
  obtain ⟨t', ht'⟩ : ∃ t', Tensor.concat 0 t [.ofInts more] = .ok t' := by
    obtain ⟨f, hf⟩ : ∃ f, t = Tensor.tabulate .i64 ([] ++ m :: []) f :=
      Tensor.exists_tabulate (congrArg₂ TensorType.mk helement (congrArg _ hm))
    obtain ⟨g, hg⟩ : ∃ g, Tensor.ofInts more = Tensor.tabulate .i64 ([] ++ more.length :: []) g :=
      Tensor.exists_tabulate rfl
    rw [hf, hg]
    exact ⟨_, Tensor.concat_tabulate _ rfl⟩
  obtain ⟨a, -, -, htype⟩ := Tensor.type_concat ht'
  have helement' : t'.elementType = .i64 :=
    (congrArg TensorType.elementType htype).trans helement
  have hrank' : t'.shape.length = 1 := by
    rw [PartialShape.fixed.inj (congrArg TensorType.shape htype), List.length_set, hrank]
  refine ⟨t', Op.result?_two.trans (congrArg Except.toOption ht'), helement', hrank', ?_⟩
  intro values hvalues
  obtain ⟨result, hresult⟩ := exists_ints helement'
  obtain ⟨values', more', hvalues', hmore, rfl⟩ := Tensor.ints_concat ht' hresult
  obtain rfl := Except.ok.inj (hvalues.symm.trans hvalues')
  rw [hresult, hmore]
  rfl

section Columns

variable {table : Tensor} {n k : Nat}

theorem listsColumn_padColumn (h : table.shape = [n, 2]) :
    ListsColumn k table [] (padColumn k table) := by
  obtain ⟨counts, hcounts⟩ := exists_ints (t := padColumn k table) rfl
  refine ⟨rfl, ?_, counts, hcounts, by rw [hcounts, List.append_nil]⟩
  rw [padColumn, Tensor.shape_plane]
  show table.shape.dropLast.length = 1
  rw [h]
  rfl

/-- Gathering an index from the second axis takes a column. -/
theorem result?_gather_column (h : table.shape = [n, 2]) (hk : k < 2) :
    (Op.gather 1).result? [some (table.convert .i64), some (.ofInt k)] =
      some (padColumn k table) := by
  have hshape : (table.convert .i64).shape = [n, 2] := h
  have haxis : Shape.resolveAxis 1 (table.convert .i64).shape.length =
      .ok ((table.convert .i64).shape.length - 1) := by
    rw [hshape]
    rfl
  have hlast : (table.convert .i64).shape.getLast? = some 2 := by
    rw [hshape]
    rfl
  exact Op.result?_two.trans
    (congrArg Except.toOption (Tensor.gather_plane haxis hlast hk (by decide)))

/-- A zero can be put after a column. -/
theorem exists_zeroAfter {t : Tensor} (h : ListsColumn k table [] t) :
    ∃ t', (Op.concat 0).result? [some t, some (.ofInts [0])] = some t' ∧
      ListsColumn k table [0] t' := by
  obtain ⟨t', ht', helement, hrank, hints⟩ := exists_concat_ofInts h.elementType h.rank [0]
  obtain ⟨counts, hcounts, hvalues⟩ := h.ints
  rw [List.append_nil] at hvalues
  exact ⟨t', ht', helement, hrank, counts, hcounts, hints counts hvalues⟩

end Columns

theorem Runs.padCounts {paddings : ValueId} {table : Tensor} {n : Nat}
    (hd : Denotes σ b.graph paddings (some table)) (hshape : table.shape = [n, 2])
    (isComplex : Bool) :
    Runs A b (Lowering.padCounts paddings isComplex) F fun g counts =>
      ∃ before after, Denotes σ g counts.before (some before) ∧
        Denotes σ g counts.after (some after) ∧
        ListsColumn 0 table (if isComplex then [0] else []) before ∧
        ListsColumn 1 table (if isComplex then [0] else []) after := by
  have hconvert : (Op.convert .i64).result? [some table] = some (table.convert .i64) :=
    Op.result?_one
  have hfirst : (Op.gather 1).result? [some (table.convert .i64), some (.ofInt 0)] =
      some (padColumn 0 table) := result?_gather_column hshape (by decide)
  have hsecond : (Op.gather 1).result? [some (table.convert .i64), some (.ofInt 1)] =
      some (padColumn 1 table) := result?_gather_column hshape (by decide)
  have hbefore := listsColumn_padColumn (k := 0) hshape
  have hafter := listsColumn_padColumn (k := 1) hshape
  unfold Lowering.padCounts
  refine .bind (.apply_eq trivial (.cons hd .nil) hconvert nofun) fun converted _ _ ht => ?_
  refine .bind (.int 0) fun beforeColumn _ h₁ h0 => ?_
  refine .bind (.int 1) fun afterColumn _ h₂ h1 => ?_
  have ht := ht.along (h₁.trans h₂)
  have h0 := (h0 σ).along h₂
  refine .bind (.apply_eq trivial (.cons ht (.cons h0 .nil)) hfirst nofun) fun before _ h₃ hb => ?_
  have ht := ht.along h₃
  have h1 := (h1 σ).along h₃
  refine .bind (.apply_eq trivial (.cons ht (.cons h1 .nil)) hsecond nofun) fun after _ h₄ ha => ?_
  have hb := hb.along h₄
  cases isComplex with
  | false => exact .pure ⟨_, _, hb, ha, hbefore, hafter⟩
  | true =>
    obtain ⟨before', hbefore', hlistsBefore⟩ := exists_zeroAfter hbefore
    obtain ⟨after', hafter', hlistsAfter⟩ := exists_zeroAfter hafter
    refine .bind (.ints [0]) fun untouched _ h₅ hu => ?_
    have hb := hb.along h₅
    refine .bind (.apply_eq trivial (.cons hb (.cons (hu σ) .nil)) hbefore' nofun) ?_
    intro before _ h₆ hb
    have hu := (hu σ).along h₆
    have ha := ha.along (h₅.trans h₆)
    refine .bind (.apply_eq trivial (.cons ha (.cons hu .nil)) hafter' nofun) fun after _ h₇ ha => ?_
    exact .pure ⟨_, _, hb.along h₇, ha, hlistsBefore, hlistsAfter⟩

/-- Padding with vectors of counts and a scalar fails only if it computes nothing. -/
theorem Runs.pad {data before after fill : ValueId} {u v f : Tensor}
    (hx : Denotes σ b.graph data x) (hu : Denotes σ b.graph before (some u))
    (hv : Denotes σ b.graph after (some v)) (hf : Denotes σ b.graph fill (some f))
    (hurank : u.shape.length = 1) (hvrank : v.shape.length = 1) (hfshape : f.shape = [])
    (hF : (Op.pad .constant).result? [x, some u, some v, some f] = none → F) :
    Runs A b (Build.emit (.pad .constant) [data, before, after, fill]) F fun g id =>
      g.Has id (.pad .constant) [data, before, after, fill] ∧
        Denotes σ g id ((Op.pad .constant).result? [x, some u, some v, some f]) := by
  have hok : (Op.pad .constant).Accepts [x, some u, some v, some f] ∨ F := by
    cases hr : (Op.pad .constant).result? [x, some u, some v, some f] with
    | none => exact .inr (hF hr)
    | some r =>
      cases x with
      | none =>
        rw [Op.result?_of_none_mem (.head _)] at hr
        cases hr
      | some t =>
        have hcompute : Tensor.pad .constant t u v (some f) = .ok r :=
          toOption_eq_some.mp ((Op.result?_map_some [t, u, v, f]).symm.trans hr)
        have hscalar : ∀ f', some f = some f' → f'.shape = [] := fun _ hf' =>
          Option.some.inj hf' ▸ hfshape
        obtain ⟨type, ht⟩ := Op.exists_inferPad (.pad .constant) hcompute hurank hvrank hscalar
        exact .inl ⟨[t, u, v, f], r, type, rfl, hcompute, ht⟩
  exact .emit nofun trivial nofun (.cons hx (.cons hu (.cons hv (.cons hf .nil)))) hok

end TensorLowering.Lowering
