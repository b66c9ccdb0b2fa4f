import TensorLowering.Proofs.Lowering.Angles
import TensorLowering.Proofs.Lowering.ExactProduct

/-!
# Axes that are listed twice

Reductions look at the axes that a list names, not at how often it names them. Typing and computing
a reduction agree on lists that name the same axes, so a node with a repeated axis is lowered as if
the axis were listed once. Only the search for known axes tells the lists apart: it finds none where
an axis is repeated, so a complex product is then taken in polar form
(`repeatedAxes_unreported`).
-/

namespace TensorLowering

open Dataflow (ValueId Graph)

/-! ## Reductions along the same axes -/

/-- A vector of numbers, or a single one, that name these axes of a tensor of the rank. -/
structure Tensor.ListsAxes (table : Tensor) (rank : Nat) (named : List Nat) : Prop where
  rank_le : table.shape.length ≤ 1
  named : ∃ listed, table.ints = .ok listed ∧
    listed.mapM (Shape.resolveAxis · rank) = .ok named

variable {table table' : Tensor} {rank : Nat} {named named' : List Nat}

theorem Tensor.ListsAxes.resolveAxes (h : table.ListsAxes rank named)
    (h' : table'.ListsAxes rank named') (hsame : ∀ a, a ∈ named ↔ a ∈ named') :
    ∃ listed listed' positions, table.ints = .ok listed ∧ table'.ints = .ok listed' ∧
      Shape.resolveAxes listed rank = .ok positions ∧
      Shape.resolveAxes listed' rank = .ok positions := by
  obtain ⟨listed, hlisted, hnamed⟩ := h.named
  obtain ⟨listed', hlisted', hnamed'⟩ := h'.named
  refine ⟨listed, listed', _, hlisted, hlisted', by rw [Shape.resolveAxes, hnamed]; rfl, ?_⟩
  rw [Shape.resolveAxes, hnamed']
  refine congrArg Except.ok (List.filter_congr fun a _ => ?_)
  rw [Bool.eq_iff_iff, List.contains_iff_mem, List.contains_iff_mem]
  exact (hsame a).symm

section SameAxes

variable (h : table.ListsAxes rank named) (h' : table'.ListsAxes rank named')
  (hsame : ∀ a, a ∈ named ↔ a ∈ named')
include h h' hsame

theorem Tensor.reduce_congr (kind : ReduceKind) (keepDims : Bool) {t : Tensor}
    (ht : t.shape.length = rank) : t.reduce kind keepDims table = t.reduce kind keepDims table' := by
  subst ht
  obtain ⟨listed, listed', positions, hv, hv', hp, hp'⟩ := h.resolveAxes h' hsame
  simp only [reduce, hv, hv', ok_bind, show t.rank = t.shape.length from rfl, hp, hp']

/-- Typing a reduction looks only at the axes that are named. -/
theorem Op.inferReduce_congr {op : Op} (kind : ReduceKind) (keepDims : Bool) {x : Operand}
    (hx : x.shape.rank? = some rank) :
    op.inferReduce kind keepDims x table.operand =
      op.inferReduce kind keepDims x table'.operand := by
  obtain ⟨listed, listed', positions, hv, hv', hp, hp'⟩ := h.resolveAxes h' hsame
  unfold inferReduce
  rw [integerVector_known_of_le hv h.rank_le, integerVector_known_of_le hv' h'.rank_le,
    Tensor.ints?_operand hv, Tensor.ints?_operand hv']
  rw [PartialShape.rank?_eq] at hx
  obtain ⟨dims, hdims, rfl⟩ := Option.map_eq_some_iff.mp hx
  simp only [hdims, ok_bind, hp, hp']

/-- So does folding it. -/
theorem Dataflow.Graph.knownContents_reduce_congr (kind : ReduceKind) (keepDims : Bool)
    {options : Dataflow.Folding} {x : Operand} {shape : PartialShape}
    (hx : ∀ t, x.contents = some t → t.shape.length = rank) :
    knownContents options (.reduce kind keepDims) [x, table.operand] shape =
      knownContents options (.reduce kind keepDims) [x, table'.operand] shape := by
  have hcompute {t : Tensor} (ht : t.shape.length = rank) :
      (Op.reduce kind keepDims).compute [t, table] = (Op.reduce kind keepDims).compute [t, table'] :=
    Tensor.reduce_congr h h' hsame kind keepDims ht
  have hcontents (table : Tensor) : [x, table.operand].mapM (·.contents) =
      x.contents.map fun t => [t, table] := by
    cases hc : x.contents <;> simp [hc, Tensor.operand]
  simp only [knownContents, fold?, hcontents]
  cases hc : x.contents with
  | none => rfl
  | some t => simp only [Option.map_some, hcompute (hx t hc)]

end SameAxes

namespace Dataflow.Graph

variable {g : Graph} {data axes axes' : ValueId}

/-- A constant is all there is to know about its value. -/
theorem exists_producer_of_contents (hg : g.WellFormed) {id : ValueId}
    (h : g.contents? id = some table) :
    ∃ node, g.nodes[id]? = some node ∧ node.operand = table.operand := by
  obtain ⟨node, hnode, hc⟩ := Option.bind_eq_some_iff.mp h
  have htype : node.operand.toTensorType = table.type :=
    hg.settled (operand?_of_node hnode) table hc
  refine ⟨node, hnode, ?_⟩
  show { node.type with contents := node.contents } = table.operand
  rw [hc, show node.type = table.type from htype]
  rfl

theorem denotes_of_contents (hg : g.WellFormed) {id : ValueId} (h : g.contents? id = some table)
    (σ : Scenario) : Denotes σ g id (some table) := by
  obtain ⟨node, hnode, hoperand⟩ := exists_producer_of_contents hg h
  refine ⟨(Array.getElem?_eq_some_iff.mp hnode).1, ?_, fun _ => ?_⟩
  · rintro _ ⟨⟩
    exact ⟨_, operand?_of_node hnode, operand_refines (hg.settled (operand?_of_node hnode))
      (congrArg Operand.contents hoperand)⟩
  · rw [meaning_eq hg hnode, toOption_eq_some, Node.value_eq_ok]
    exact .inl (congrArg Operand.contents hoperand)

/-- Whether a node can be added depends on its operands only. -/
theorem map_fst_add {name : String} {op : Op} {inputs : List ValueId} {producers : List Node}
    (hmark : op.isComplexMark = false) (h : inputs.mapM g.producer = .ok producers) :
    (g.add name op inputs).map Prod.fst = do
      let type ← op.infer (producers.map Node.operand)
      let _ ← knownContents g.fold op (producers.map Node.operand) type.shape
      return g.nodes.size := by
  have hunmarked : checkMark name op producers = .ok () :=
    if_neg fun hop => Bool.false_ne_true (hmark.symm.trans hop.1)
  simp only [add, h, ok_bind, hunmarked]
  cases op.infer (producers.map Node.operand) with
  | error => rfl
  | ok type =>
    simp only [ok_bind]
    cases knownContents g.fold op (producers.map Node.operand) type.shape <;> rfl

/-- The rank is recorded for the value. -/
def HasRank (g : Graph) (id : ValueId) (rank : Nat) : Prop :=
  ∃ x, g.operand? id = some x ∧ x.shape.rank? = some rank

theorem HasRank.lt_size {id : ValueId} (h : g.HasRank id rank) : id < g.nodes.size := by
  obtain ⟨x, hx, -⟩ := h
  obtain ⟨node, hnode, -⟩ := Option.map_eq_some_iff.mp hx
  exact (Array.getElem?_eq_some_iff.mp hnode).1

theorem HasRank.length_eq {id : ValueId} (h : g.HasRank id rank) {v : Tensor} (hv : g.Fits id v) :
    v.shape.length = rank := by
  obtain ⟨x, hx, hrank⟩ := h
  obtain ⟨y, hy, hv⟩ := hv
  obtain rfl := Option.some.inj (hx.symm.trans hy)
  exact Option.some.inj (hv.shape.rank? hrank)

theorem HasRank.exists_concat {id : ValueId} (h : g.HasRank id (rank + 1)) : ∃ x dims last,
    g.operand? id = some x ∧ x.shape.dims? = some (dims ++ [last]) ∧ dims.length = rank := by
  obtain ⟨x, hx, hrank⟩ := h
  rw [PartialShape.rank?_eq] at hrank
  obtain ⟨dims, hdims, hlen⟩ := Option.map_eq_some_iff.mp hrank
  rcases List.eq_nil_or_concat' dims with rfl | ⟨init, last, rfl⟩
  · cases hlen
  · exact ⟨x, init, last, hx, hdims, by simpa using hlen⟩

/-- Adding a reduction looks only at the axes that are named. -/
theorem add_reduce_congr (hg : g.WellFormed) (name : String) (kind : ReduceKind) (keepDims : Bool)
    (hrank : g.HasRank data rank) (haxes : g.contents? axes = some table)
    (haxes' : g.contents? axes' = some table') (h : table.ListsAxes rank named)
    (h' : table'.ListsAxes rank named') (hsame : ∀ a, a ∈ named ↔ a ∈ named') :
    (g.add name (.reduce kind keepDims) [data, axes]).map Prod.fst =
      (g.add name (.reduce kind keepDims) [data, axes']).map Prod.fst := by
  have hlength {v : Tensor} (hv : g.Fits data v) := hrank.length_eq hv
  obtain ⟨x, hx, hrank⟩ := hrank
  obtain ⟨node, hnode, rfl⟩ := Option.map_eq_some_iff.mp hx
  have hadd {axes : ValueId} {table : Tensor} (haxes : g.contents? axes = some table) :
      (g.add name (.reduce kind keepDims) [data, axes]).map Prod.fst = do
        let type ← (Op.reduce kind keepDims).inferReduce kind keepDims node.operand table.operand
        let _ ← knownContents g.fold (.reduce kind keepDims) [node.operand, table.operand] type.shape
        return g.nodes.size := by
    obtain ⟨constant, hconstant, hoperand⟩ := exists_producer_of_contents hg haxes
    have hproducers : [data, axes].mapM g.producer = .ok [node, constant] :=
      mapM_eq_ok.mpr (.cons (producer_eq_ok.mpr hnode) (.cons (producer_eq_ok.mpr hconstant) .nil))
    rw [map_fst_add rfl hproducers, List.map_cons, List.map_singleton, hoperand]
    rfl
  have hcontents : ∀ t, node.operand.contents = some t → t.shape.length = rank :=
    fun t ht => hlength ⟨_, hx, operand_refines (hg.settled hx) ht⟩
  rw [hadd haxes, hadd haxes', Op.inferReduce_congr h h' hsame kind keepDims hrank]
  simp only [knownContents_reduce_congr h h' hsame kind keepDims hcontents]

end Dataflow.Graph

namespace Lowering

open Dataflow.Graph (Scenario Denotes)

variable {b : Builder} {A F : Prop} {σ : Scenario} {node : Source.Node} {kind : ReduceKind}
  {keepDims : Bool} {data axes axes' : ValueId}

/-! ## Reductions of plain data -/

/-- The reductions, by the op types of their nodes. -/
def reductions : List (String × ReduceKind) := [
  ("Sum", .sum), ("Mean", .mean), ("Min", .min), ("Max", .max), ("Prod", .prod),
  ("All", .logicalAnd), ("Any", .logicalOr), ("EuclideanNorm", .l2)]

theorem find?_reduction {opType : String} (h : (opType, kind) ∈ reductions) :
    Registry.standard.find? opType = some (.reduction opType kind) := by
  have hall : ∀ r ∈ reductions, Registry.standard.find? r.1 = some (.reduction r.1 r.2) := by
    simp only [reductions, List.forall_mem_cons]
    exact ⟨rfl, rfl, rfl, rfl, rfl, rfl, rfl, rfl, nofun⟩
  exact hall _ h

/-- With plain data a reduction is one operation. -/
theorem reduction_plain
    (hkeep : (⟨node, []⟩ : ResolvedNode).attrD .bool "keep_dims" false = .ok keepDims) :
    (Rule.reduction node.opType kind).lower ⟨node, [.plain data, .plain axes]⟩ = do
      return [.plain (← Build.emit (.reduce kind keepDims) [data, axes])] := by
  have hcheck : (⟨node, [.plain data, .plain axes]⟩ : ResolvedNode).check 2 [node.opType]
      (kind == .prod) = .ok () :=
    ResolvedNode.check_eq_ok.mpr ⟨.head _, Nat.le_refl _,
      .inr (List.forall_mem_cons.mpr ⟨rfl, List.forall_mem_singleton.mpr rfl⟩)⟩
  have hkeep : (⟨node, [.plain data, .plain axes]⟩ : ResolvedNode).attrD .bool "keep_dims" false =
      .ok keepDims := hkeep
  unfold Rule.reduction
  simp only [hcheck, hkeep]
  rfl

theorem exec_emit_fst (op : Op) (inputs : List ValueId) : ((Build.emit op inputs).exec b).1 =
    ((b.graph.add (b.nextName op) op inputs).map Prod.fst).mapError b.error := by
  rw [Build.exec_emit]
  cases b.graph.add (b.nextName op) op inputs <;> rfl

theorem exec_return_fst {α β : Type} (program : Build α) (f : α → β) :
    (Build.exec (do return f (← program)) b).1 = (program.exec b).1.map f := by
  rw [Build.exec_bind]
  rcases program.exec b with ⟨_ | _, _⟩ <;> rfl

theorem exec_translate_fst {rule : Rule} {inputs : List Lowered}
    (hrule : Registry.standard.find? node.opType = some rule) :
    ((translate node inputs).exec b).1 =
      ((rule.lower ⟨node, inputs⟩).exec ⟨b.graph, node.name, node.opType, 0⟩).1 := by
  rw [translate, hrule]
  rfl

/-- Whether lowering a reduction fails does not depend on how often its axes are named. -/
theorem exec_reduction_congr (hg : b.graph.WellFormed) (hnode : (node.opType, kind) ∈ reductions)
    (hkeep : (⟨node, []⟩ : ResolvedNode).attrD .bool "keep_dims" false = .ok keepDims)
    (hrank : b.graph.HasRank data rank)
    (haxes : b.graph.contents? axes = some table) (haxes' : b.graph.contents? axes' = some table')
    (h : table.ListsAxes rank named) (h' : table'.ListsAxes rank named')
    (hsame : ∀ a, a ∈ named ↔ a ∈ named') :
    ((translate node [.plain data, .plain axes]).exec b).1 =
      ((translate node [.plain data, .plain axes']).exec b).1 := by
  have hadd (name : String) := Graph.add_reduce_congr hg name kind keepDims hrank haxes haxes' h h'
    hsame
  rw [exec_translate_fst (find?_reduction hnode), exec_translate_fst (find?_reduction hnode),
    reduction_plain hkeep, reduction_plain hkeep]
  simp only [exec_return_fst, exec_emit_fst, hadd]

/-- What a reduction of plain data evaluates to. -/
theorem evaluates_reduction_iff {feeds : Dataflow.Feeds} {t : Tensor} (hg : b.graph.WellFormed)
    (hnode : (node.opType, kind) ∈ reductions)
    (hkeep : (⟨node, []⟩ : ResolvedNode).attrD .bool "keep_dims" false = .ok keepDims)
    (hdata : data < b.graph.nodes.size) (haxes : b.graph.contents? axes = some table)
    (hrank : table.shape.length ≤ 1) :
    Evaluates feeds (translate node [.plain data, .plain axes]) b t ↔
      (Op.reduce kind keepDims).result? [outcome? b.graph feeds data, some table] = some t := by
  have hdenotes : Denotes ⟨feeds, True⟩ b.graph data (outcome? b.graph feeds data) :=
    Graph.denotes_meaning hg hdata
  refine Runs.evaluates_iff (A := False) (.translate (find?_reduction hnode) ?_) hg
  rw [reduction_plain hkeep]
  refine .bind (.reduce kind keepDims hdenotes (Graph.denotes_of_contents hg haxes _) hrank id) ?_
  exact fun id c _ hid => .pure ⟨id, rfl, hid⟩

/-! ## Complex products -/

/-- Where an axis is repeated, no known axes are found. -/
theorem knownAxes?_of_repeated {s : PartialShape} {dims : List (Option Nat)}
    (hdims : s.dims? = some dims) (h : table.ListsAxes dims.length named) (hrepeated : ¬named.Nodup) :
    knownAxes? (some table) s = none := by
  obtain ⟨listed, hlisted, hnamed⟩ := h.named
  have haxis {axis : Int} {k : KnownAxis} (hk : knownAxis? dims axis = some k) :
      Shape.resolveAxis axis dims.length = .ok k.axis := by
    simp only [knownAxis?, Option.bind_eq_bind, Option.bind_eq_some_iff] at hk
    obtain ⟨a, ha, size, -, hk⟩ := hk
    split at hk
    · obtain rfl := Option.some.inj hk
      exact Shape.resolveAxis_eq_ok.mpr ha
    · cases hk
  simp only [knownAxes?, hlisted, hdims, Except.toOption, Option.bind_eq_bind, Option.bind_some]
  cases hknown : listed.mapM (knownAxis? dims) with
  | none => rfl
  | some known =>
    have hself : known.map (·.axis) = named := by
      rw [← List.forall₂_eq_eq_eq, List.forall₂_map_left_iff]
      refine forall₂_of_common (mapM_eq_some.mp hknown) (mapM_eq_ok.mp hnamed) ?_
      exact fun axis k a hk ha => Except.ok.inj ((haxis hk).symm.trans ha)
    simp only [Option.bind_some, hself, if_neg hrepeated]

/-- Constant axes of which some is repeated, and a constant that lists the same axes, each once. -/
structure RepeatsAxes (g : Graph) (rank : Nat) (axes once : ValueId) (table single : Tensor)
    (named named' : List Nat) : Prop where
  axes : g.contents? axes = some table
  once : g.contents? once = some single
  listed : table.ListsAxes rank named
  listedOnce : single.ListsAxes rank named'
  repeated : ¬named.Nodup
  nodup : named'.Nodup
  same : ∀ a, a ∈ named ↔ a ∈ named'

section Repeated

variable {e : ElementType} {z : ComplexValue} {p single : Tensor} {once : ValueId}
  (hg : b.graph.WellFormed)
  (h : RepeatsAxes b.graph rank axes once table single named named')
  (hkeep : (⟨node, []⟩ : ResolvedNode).attrD .bool "keep_dims" false = .ok keepDims)
include hg h hkeep

/-- Lowering plain data with repeated axes is lowering it with the axes listed once. -/
theorem reduction_repeated (hnode : (node.opType, kind) ∈ reductions)
    (hrank : b.graph.HasRank data rank) :
    ((translate node [.plain data, .plain axes]).exec b).1 =
      ((translate node [.plain data, .plain once]).exec b).1 ∧
    ∀ feeds t, Evaluates feeds (translate node [.plain data, .plain axes]) b t ↔
      Evaluates feeds (translate node [.plain data, .plain once]) b t := by
  refine ⟨exec_reduction_congr hg hnode hkeep hrank h.axes h.once h.listed h.listedOnce h.same,
    fun feeds t => ?_⟩
  have hlt := hrank.lt_size
  rw [evaluates_reduction_iff hg hnode hkeep hlt h.axes h.listed.rank_le,
    evaluates_reduction_iff hg hnode hkeep hlt h.once h.listedOnce.rank_le]
  cases ho : outcome? b.graph feeds data with
  | none =>
    have hnone (table : Tensor) : (Op.reduce kind keepDims).result? [none, some table] = none :=
      Op.result?_of_none_mem (.head _)
    rw [hnone, hnone]
  | some v =>
    have hlen := hrank.length_eq (hg.fits hlt (toOption_eq_some.mp ho))
    have hcompute : (Op.reduce kind keepDims).compute [v, table] =
        (Op.reduce kind keepDims).compute [v, single] :=
      Tensor.reduce_congr h.listed h.listedOnce h.same kind keepDims hlen
    rw [Op.result?_two, Op.result?_two, hcompute]

variable (hmarked : b.graph.Has z.marker (.complexMark e) [z.packed])
  (hrank : b.graph.HasRank z.packed (rank + 1))
include hmarked hrank

omit hkeep in
/-- The planes of complex data have a polar product, and how often the axes are named is the same
to it. -/
theorem exists_polarProduct_repeated (keepDims : Bool) (hp : b.graph.Fits z.packed p) :
    ∃ u v, v.type = u.type ∧ u.elementType = e ∧
      Tensor.polarProduct keepDims (p.plane 0) (p.plane 1) table = .ok (u, v) ∧
      Tensor.polarProduct keepDims (p.plane 0) (p.plane 1) single = .ok (u, v) := by
  obtain ⟨hfloat, -, helement⟩ := packed_of_marked hg hmarked
  obtain ⟨listed, listed', positions, hv, hv', hpos, hpos'⟩ := h.listed.resolveAxes h.listedOnce h.same
  have hlen := hrank.length_eq hp
  have hplane : (p.plane 0).shape.length = rank := by
    rw [Tensor.shape_plane, List.length_dropLast, hlen, Nat.add_sub_cancel]
  have helement : (p.plane 0).elementType = e := helement p hp
  obtain ⟨u, v, htype, hu, hproduct⟩ :=
    Tensor.exists_polarProduct keepDims positions (t := p.plane 0) (u := p.plane 1) (helement ▸ hfloat)
      rfl
  rw [hplane] at hproduct
  exact ⟨u, v, htype, hu.trans helement, hproduct hv hpos, hproduct hv' hpos'⟩

omit hkeep in
/-- Along repeated axes a complex product takes angles, whatever is known about sizes. -/
theorem Runs.complexProduct_repeated (hA : A) (keepDims : Bool) (hpart : z.partType = e)
    (hz : Denotes σ b.graph z.packed (some p)) (hpairs : p.shape.getLast? = some 2) :
    Runs A b (Lowering.complexProduct z axes keepDims) F fun g lowered => ∃ r t,
      lowered = .complex r ∧ r.partType = e ∧ r.Denotes σ g (some t) ∧
        Tensor.polarProduct keepDims (p.plane 0) (p.plane 1) single =
          .ok (t.plane 0, t.plane 1) ∧
        ∃ id inputs, g.Has id .atan2 inputs ∧ b.graph.nodes.size ≤ id := by
  obtain ⟨hfloat, -, -⟩ := packed_of_marked hg hmarked
  obtain ⟨u, v, htype, helement, hproduct, hproductOnce⟩ :=
    exists_polarProduct_repeated hg h hmarked hrank keepDims (hz.fits p rfl)
  obtain ⟨x, dims, last, hx, hdims, hlen⟩ := hrank.exists_concat
  have hpairs : ArePairs (some p) := fun _ hp => Option.some.inj hp ▸ hpairs
  unfold Lowering.complexProduct
  refine .bind ((Runs.planes hz hpairs nofun).and .planes_has) fun planes c₁ h₁ hplanes => ?_
  obtain ⟨hplanes, i, hreal, hi⟩ := hplanes
  have hx₁ := h₁.grows.toExtends.operand? hx
  obtain ⟨s, dims', hs, hdims', hfiner⟩ := exists_shape_real h₁.after hreal hi hx₁ hdims
  have hlisted : table.ListsAxes dims'.length named := by
    rw [hfiner.length_eq, hlen]
    exact h.listed
  have haxes := h₁.grows.toExtends.contents? h.axes
  refine .query_bind (congrArg Except.ok haxes) (.query_bind hs ?_)
  rw [knownAxes?_of_repeated hdims' hlisted h.repeated]
  have htable := Graph.denotes_of_contents h₁.after haxes σ
  refine .bind (.productByAngles hA hplanes htable h.listed.rank_le hproduct) ?_
  rintro product c₂ h₂ ⟨hproduct, angle, inputs, hangle, hnew⟩
  have hsame : Op.SameType (some u) (some v) := congrArg some htype.symm
  obtain ⟨t, hpack, -, rfl, hv⟩ := exists_pack? hsame
  obtain rfl := Option.some.inj hv
  have hpartType : ∀ w, some (t.plane 0) = some w → w.elementType = z.partType := by
    rintro _ ⟨⟩
    exact helement.trans hpart.symm
  refine .imp (.toComplex hproduct hsame (hpart ▸ hfloat) hpartType nofun) id ?_
  rintro g lowered h₃ ⟨r, rfl, hr, hdenotes⟩
  rw [hpack] at hdenotes
  exact ⟨r, t, rfl, hr.trans hpart, hdenotes, hproductOnce, angle, inputs,
    hangle.mono h₃.grows.toExtends, h₁.grows.toExtends.size_le.trans hnew⟩

theorem Runs.prod_repeated (hA : A) (hop : node.opType = "Prod") (hpart : z.partType = e)
    (hz : Denotes σ b.graph z.packed (some p)) (hpairs : p.shape.getLast? = some 2) :
    Runs A b (Rule.prod.lower ⟨node, [.complex z, .plain axes]⟩) F fun g outputs => ∃ r t,
      outputs = [.complex r] ∧ r.partType = e ∧ r.Denotes σ g (some t) ∧
        Tensor.polarProduct keepDims (p.plane 0) (p.plane 1) single =
          .ok (t.plane 0, t.plane 1) ∧
        ∃ id inputs, g.Has id .atan2 inputs ∧ b.graph.nodes.size ≤ id := by
  have hkeep : (⟨node, [.complex z, .plain axes]⟩ : ResolvedNode).attrD .bool "keep_dims" false =
      .ok keepDims := hkeep
  unfold Rule.prod Rule.reduction
  refine .liftM_bind (check_ok (hop ▸ .head _) (Nat.le_refl _)) ?_
  refine .liftM_bind hkeep (.liftM_bind rfl (.liftM_bind rfl ?_))
  refine .bind (.complexProduct_repeated hg h hmarked hrank hA keepDims hpart hz hpairs) ?_
  rintro lowered c _ ⟨r, t, rfl, hr⟩
  exact .pure ⟨r, t, rfl, hr⟩

/-- Lowering a product of complex data with repeated axes gives the product in polar form. -/
theorem prod_repeated (hop : node.opType = "Prod") (hpart : z.partType = e) :
    ∃ r c, (translate node [.complex z, .plain axes]).exec b = (.ok [.complex r], c) ∧
      r.partType = e ∧
      (∃ id inputs, c.graph.Has id .atan2 inputs ∧ ¬b.graph.Has id .atan2 inputs) ∧
      ∀ feeds p shape, b.graph.evaluate feeds [z.packed] = .ok [p] → p.shape = shape ++ [2] →
        ∃ t, c.graph.evaluate feeds [r.packed, r.marker] = .ok [t, t] ∧
          Tensor.polarProduct keepDims (p.plane 0) (p.plane 1) single =
            .ok (t.plane 0, t.plane 1) := by
  obtain ⟨-, hlt, -⟩ := packed_of_marked hg hmarked
  have hrule : Registry.standard.find? node.opType = some .prod := hop ▸ rfl
  have hruns {σ : Scenario} {p : Tensor} (hz : Denotes σ b.graph z.packed (some p))
      (hpairs : p.shape.getLast? = some 2) :=
    Runs.translate (A := True) (F := False) hrule
      (.prod_repeated hg h hkeep hmarked hrank trivial hop hpart hz hpairs) hg
  -- Lowering does not depend on feeds: some pairs that fit the data show that it succeeds.
  obtain ⟨r, c, hexec, hpartType, hangle⟩ : ∃ r c,
      (translate node [.complex z, .plain axes]).exec b = (.ok [.complex r], c) ∧
        r.partType = e ∧
        ∃ id inputs, c.graph.Has id .atan2 inputs ∧ ¬b.graph.Has id .atan2 inputs := by
    obtain ⟨x, dims, last, hx, hdims, -⟩ := hrank.exists_concat
    obtain ⟨sizes, f, hfits⟩ := exists_fits hg hmarked hx hdims
    have hran := hruns (denotes_of_fits hlt hfits) List.getLast?_concat
    generalize (translate node [.complex z, .plain axes]).exec b = outcome at hran ⊢
    obtain ⟨_ | outputs, c⟩ := outcome
    · exact (hran.error _ rfl).elim
    · obtain ⟨r, _, rfl, hpart, -, -, id, inputs, hangle, hnew⟩ := hran.post _ rfl
      exact ⟨r, c, rfl, hpart, id, inputs, hangle, fun hid => Nat.not_le.mpr hid.lt_size hnew⟩
  refine ⟨r, c, hexec, hpartType, hangle, fun feeds p shape hp hshape => ?_⟩
  have hdenotes : Denotes ⟨feeds, True⟩ b.graph z.packed (some p) :=
    (outcome?_eq_some hg hlt).mpr hp ▸ Graph.denotes_meaning hg hlt
  have hran := hruns hdenotes (hshape ▸ List.getLast?_concat)
  rw [hexec] at hran
  obtain ⟨_, t, ⟨⟩, -, hr, hproduct, -⟩ := hran.post _ rfl
  exact ⟨t, hr.evaluate hran.leads.after, hproduct⟩

end Repeated

/-- Repeated axes are not reported. Along them plain data is reduced as along axes that are listed
once: lowering has the same outcome, and the results evaluate to the same tensors. A product of
complex data is always lowered, but not exactly: it takes angles, and its result is the product by
magnitudes and angles along the axes listed once. -/
theorem repeatedAxes_unreported {once : ValueId} {single : Tensor} (hg : Graph.Reachable b.graph)
    (hnode : (node.opType, kind) ∈ reductions)
    (hkeep : (⟨node, []⟩ : ResolvedNode).attrD .bool "keep_dims" false = .ok keepDims)
    (h : RepeatsAxes b.graph rank axes once table single named named') :
    (∀ data, b.graph.HasRank data rank →
      ((translate node [.plain data, .plain axes]).exec b).1 =
        ((translate node [.plain data, .plain once]).exec b).1 ∧
      ∀ feeds t, Evaluates feeds (translate node [.plain data, .plain axes]) b t ↔
        Evaluates feeds (translate node [.plain data, .plain once]) b t) ∧
    (∀ z, kind = .prod → b.graph.Has z.marker (.complexMark z.partType) [z.packed] →
      b.graph.HasRank z.packed (rank + 1) →
      ∃ r c, (translate node [.complex z, .plain axes]).exec b = (.ok [.complex r], c) ∧
        r.partType = z.partType ∧
        (∃ id inputs, c.graph.Has id .atan2 inputs ∧ ¬b.graph.Has id .atan2 inputs) ∧
        ∀ feeds p shape, b.graph.evaluate feeds [z.packed] = .ok [p] → p.shape = shape ++ [2] →
          ∃ t, c.graph.evaluate feeds [r.packed, r.marker] = .ok [t, t] ∧
            Tensor.polarProduct keepDims (p.plane 0) (p.plane 1) single =
              .ok (t.plane 0, t.plane 1)) := by
  have hw := hg.wellFormed
  refine ⟨fun data hrank => reduction_repeated hw h hkeep hnode hrank, ?_⟩
  rintro z rfl hmarked hrank
  have hop : node.opType = "Prod" := by simpa [reductions] using hnode
  exact prod_repeated hw h hkeep hmarked hrank hop rfl

/-- A vector and a packed vector, the number of their only axis listed from the front and from the
back, and the same axis listed once. -/
def listedTwice : Builder where
  graph := Graph.build {} [
    .parameter "x" .i64 (.fixed [2]),
    .parameter "z" .f32 (.fixed [2, 2]),
    .op "z/complex" (.complexMark .f32) [1],
    .constant "axes" (.ofInts [0, -1]),
    .constant "once" (.ofInts [0])]
  node := "total"
  opType := "Sum"

theorem listedTwice_repeatsAxes : RepeatsAxes listedTwice.graph 1 3 4 (.ofInts [0, -1]) (.ofInts [0])
    [0, 0] [0] where
  axes := rfl
  once := rfl
  listed := ⟨by decide, [0, -1], rfl, rfl⟩
  listedOnce := ⟨by decide, [0], rfl, rfl⟩
  repeated := by decide
  nodup := by decide
  same := by simp

/-- The sum along the axis that is listed twice is lowered, and comes to the sum along it. The
product of two complex numbers, which could be exact, takes an angle. -/
theorem listedTwice_reduced :
    RepeatsAxes listedTwice.graph 1 3 4 (.ofInts [0, -1]) (.ofInts [0]) [0, 0] [0] ∧
    Evaluates [("x", .ofInts [1, 2])] (translate ⟨"total", "Sum", [], []⟩ [.plain 0, .plain 3])
      listedTwice (.ofInt 3) ∧
    ∃ r c, (translate ⟨"total", "Prod", [], []⟩ [.complex ⟨2, 1, .f32⟩, .plain 3]).exec listedTwice =
      (.ok [.complex r], c) ∧ c.graph.countOps "Atan2" = 1 := by
  have hprod : ((translate ⟨"total", "Prod", [], []⟩ [.complex ⟨2, 1, .f32⟩, .plain 3]).exec
      listedTwice).1 = .ok [.complex ⟨23, 22, .f32⟩] := by decide +kernel
  exact ⟨listedTwice_repeatsAxes, by decide +kernel, _, _, Prod.ext hprod rfl, by decide +kernel⟩

/-- Products along the axis that is listed twice are those along the axis. -/
theorem listedTwice_unreported :
    RepeatsAxes listedTwice.graph 1 3 4 (.ofInts [0, -1]) (.ofInts [0]) [0, 0] [0] ∧
    listedTwice.graph.HasRank 0 1 ∧ listedTwice.graph.HasRank 1 2 ∧
    (∀ feeds t,
      Evaluates feeds (translate ⟨"total", "Prod", [], []⟩ [.plain 0, .plain 3]) listedTwice t ↔
        Evaluates feeds (translate ⟨"total", "Prod", [], []⟩ [.plain 0, .plain 4]) listedTwice t) ∧
    ∃ r c, (translate ⟨"total", "Prod", [], []⟩ [.complex ⟨2, 1, .f32⟩, .plain 3]).exec listedTwice =
        (.ok [.complex r], c) ∧ ∃ id inputs, c.graph.Has id .atan2 inputs := by
  have hg : Graph.Reachable listedTwice.graph := Graph.reachable_build {} _
  have hnode : ((⟨"total", "Prod", [], []⟩ : Source.Node).opType, ReduceKind.prod) ∈ reductions := by
    decide
  have hx : listedTwice.graph.HasRank 0 1 := ⟨_, rfl, rfl⟩
  have hz : listedTwice.graph.HasRank 1 2 := ⟨_, rfl, rfl⟩
  obtain ⟨hplain, hcomplex⟩ := repeatedAxes_unreported hg hnode rfl listedTwice_repeatsAxes
  obtain ⟨r, c, hexec, -, ⟨id, inputs, hangle, -⟩, -⟩ :=
    hcomplex ⟨2, 1, .f32⟩ rfl ⟨_, rfl, rfl, rfl⟩ hz
  exact ⟨listedTwice_repeatsAxes, hx, hz, (hplain 0 hx).2, r, c, hexec, id, inputs, hangle⟩

end Lowering

end TensorLowering
