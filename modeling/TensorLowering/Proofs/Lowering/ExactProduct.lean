import TensorLowering.Lowering.Rule.Reduce
import TensorLowering.Proofs.Lowering.Multiplying
import TensorLowering.Proofs.Lowering.Projection

/-!
# Exact products of complex tensors

Along constant axes of known sizes the product of a complex tensor is exact (`prod_exact`). The real
plane records at least the sizes that are recorded for the packed tensor (`exists_shape_real`), so
all the axes are known where they are looked for (`exists_knownAxes`), and the planes are multiplied
along them whatever the sizes of the other axes are.

Lowering does not see the feeds. That it succeeds is shown with pairs that fit what is recorded
(`exists_fits`), and what the result comes to with the pairs that the operand comes to.
-/

universe u

namespace TensorLowering.Lowering

open Dataflow (ValueId Graph)
open Dataflow.Graph (Scenario)
open Shape (collapse Within)

variable {b : Builder} {A F : Prop} {σ : Scenario} {g : Graph} {e : ElementType}
  {f : List Nat → e.Carrier × e.Carrier}

/-! ## What is recorded -/

section Recorded

variable {dims : List (Option Nat)} {last : Option Nat}

/-- The recorded shape of a value, if it is the one of its operand. -/
theorem shape_eq_ok {id : ValueId} {s : PartialShape} :
    g.shape id = .ok s ↔ ∃ x, g.operand? id = some x ∧ x.shape = s := by
  rw [Graph.shape, bind_eq_ok, Graph.operand?]
  simp only [Graph.producer_eq_ok, pure_eq_ok, Except.ok.injEq, Option.map_eq_some_iff]
  constructor
  · rintro ⟨node, hnode, rfl⟩
    exact ⟨_, ⟨node, hnode, rfl⟩, rfl⟩
  · rintro ⟨_, ⟨node, hnode, rfl⟩, rfl⟩
    exact ⟨node, hnode, rfl⟩

/-- The plane records at least the sizes of its packed tensor. -/
theorem exists_shape_real {packed real i : ValueId} {x : Operand} (hg : g.WellFormed)
    (hreal : g.Has real (.gather (-1)) [packed, i]) (hi : g.Has i (.constant (.ofInt 0)) [])
    (hx : g.operand? packed = some x) (hdims : x.shape.dims? = some (dims ++ [last])) :
    ∃ s dims', g.shape real = .ok s ∧ s.dims? = some dims' ∧ Shape.FinerDims dims' dims := by
  obtain ⟨_, index, y, ⟨⟩, hindex, hy, hyindex⟩ := hi.recorded hg
  obtain ⟨_, type, r, hoperands, htype, hr, hrtype⟩ := hreal.recorded hg
  obtain _ | ⟨hx', _ | ⟨hy', _ | _⟩⟩ := hoperands
  obtain rfl := Option.some.inj (hx.symm.trans hx')
  obtain rfl := Option.some.inj (hy.symm.trans hy')
  obtain rfl := Except.ok.inj hindex
  obtain ⟨-, s, hs, rfl⟩ := Op.inferGather_eq_ok.mp htype
  obtain ⟨indexDims, hindexDims, hnil⟩ := hyindex.shape.dims [] rfl
  obtain rfl := List.forall₂_nil_right_iff.mp hnil
  have haxis : Shape.resolveAxis (-1) (dims ++ [last]).length = .ok dims.length := by
    simpa using Shape.resolveAxis_neg_one (Nat.succ_pos dims.length)
  rw [hdims, hindexDims] at hs
  simp only [Op.gatherShape, haxis, bind_eq_ok, pure_eq_ok, Except.ok.injEq] at hs
  obtain ⟨_, rfl, values, -, -, -, rfl⟩ := hs
  obtain ⟨dims', hdims', hfiner⟩ := hrtype.shape.dims dims (by simp)
  exact ⟨r.shape, dims', shape_eq_ok.mpr ⟨r, hr, rfl⟩, hdims', hfiner⟩

end Recorded

/-! ## Known axes -/

section KnownAxes

variable {dims : List (Option Nat)} {named : List Nat} {size : Nat → Nat}

theorem knownAxis?_eq_some {axis : Int} {a n : Nat}
    (ha : Shape.resolveAxis axis dims.length = .ok a) (hsize : dims[a]? = some (some n))
    (hpos : 0 < n) : knownAxis? dims axis = some ⟨a, n⟩ := by
  have hback := Shape.resolveAxis_eq_ok.mp ha
  simp [knownAxis?, hback, hsize, hpos]

theorem find?_knownAxes (a : Nat) :
    (named.map fun i => KnownAxis.mk i (size i)).find? (fun k => decide (k.axis = a)) =
      if a ∈ named then some ⟨a, size a⟩ else none := by
  induction named with
  | nil => rfl
  | cons i named ih =>
    rw [List.map_cons, List.find?_cons, ih]
    by_cases hi : i = a
    · simp [hi]
    · simp [hi, Ne.symm hi]

/-- Axes that name each axis once, all of them of known size, are known. -/
theorem exists_knownAxes {table : Tensor} {listed : List Int} {s : PartialShape}
    (hlisted : table.ints = .ok listed) (hdims : s.dims? = some dims)
    (hnamed : listed.mapM (Shape.resolveAxis · dims.length) = .ok named) (hnodup : named.Nodup)
    (hsizes : ∀ a ∈ named, dims[a]? = some (some (size a)) ∧ 0 < size a) :
    ∃ known, knownAxes? (some table) s = some known ∧ (known.map (·.axis)).Nodup ∧
      (∀ a, a ∈ known.map (·.axis) ↔ a ∈ named) ∧ ∀ k ∈ known, k.size = size k.axis := by
  have hresolved := mapM_eq_ok.mp hnamed
  have hlt : ∀ a ∈ named, a < dims.length := fun a ha =>
    (List.getElem?_eq_some_iff.mp (hsizes a ha).1).1
  have hknown : listed.mapM (knownAxis? dims) = some (named.map fun a => ⟨a, size a⟩) := by
    rw [mapM_eq_some, List.forall₂_map_right_iff]
    refine List.forall₂_iff_get.mpr ⟨hresolved.length_eq, fun i hi hi' => ?_⟩
    obtain ⟨hsize, hpos⟩ := hsizes _ (List.get_mem named ⟨i, hi'⟩)
    exact knownAxis?_eq_some (hresolved.get hi hi') hsize hpos
  have hself : (named.map fun a => KnownAxis.mk a (size a)).map (·.axis) = named := by
    rw [List.map_map]
    exact List.map_id named
  refine ⟨((List.range dims.length).filter (· ∈ named)).map fun a => ⟨a, size a⟩, ?_, ?_, ?_, ?_⟩
  · have hall : knownAxes? (some table) s = some ((List.range dims.length).filterMap fun a =>
        (named.map fun i => KnownAxis.mk i (size i)).find? fun k => decide (k.axis = a)) := by
      simp only [knownAxes?, hlisted, hdims, hknown, Option.bind_eq_bind, Option.bind_some,
        Except.toOption, hself, if_pos hnodup]
    rw [hall]
    refine congrArg some (Eq.symm ?_)
    simp only [find?_knownAxes]
    rw [← List.filterMap_eq_map, List.filterMap_filter]
    exact List.filterMap_congr fun a _ => by simp
  · rw [List.map_map]
    exact (List.nodup_range.filter _).map fun _ _ h => h
  · intro a
    simp only [List.map_map, List.mem_map, List.mem_filter, List.mem_range, Function.comp_apply,
      exists_eq_right, decide_eq_true_eq]
    exact ⟨And.right, fun ha => ⟨hlt a ha, ha⟩⟩
  · intro k hk
    obtain ⟨a, -, rfl⟩ := List.mem_map.mp hk
    rfl

end KnownAxes

/-! ## Exact products -/

/-- A complex operand and constant axes that name each axis once, where all sizes along them, the
`lengths`, are known and positive. -/
structure ProductCall (g : Graph) (e : ElementType) (z : ComplexValue) (axes : ValueId)
    (named lengths : List Nat) : Prop where
  partType : z.partType = e
  marked : g.Has z.marker (.complexMark e) [z.packed]
  nodup : named.Nodup
  known : ∃ dims last s table listed, g.shape z.packed = .ok s ∧ s.dims? = some (dims ++ [last]) ∧
    g.contents? axes = some table ∧ table.ints = .ok listed ∧
    listed.mapM (Shape.resolveAxis · dims.length) = .ok named ∧
    List.Forall₂ (fun a n => dims[a]? = some (some n)) named lengths
  positive : ∀ n ∈ lengths, 0 < n

section ExactProduct

variable {z : ComplexValue} {axes : ValueId} {dims : List (Option Nat)} {last : Option Nat}
  {named lengths sizes : List Nat} {keepDims : Bool}

/-- Pairs that fit have the sizes that are recorded. -/
theorem finer_of_fits {packed : ValueId} {x : Operand} (hx : g.operand? packed = some x)
    (hdims : x.shape.dims? = some (dims ++ [last])) (h : g.Fits packed (.ofPairs e sizes f)) :
    Shape.FinerDims (sizes.map some) dims := by
  obtain ⟨y, hy, hv⟩ := h
  obtain rfl := Option.some.inj (hx.symm.trans hy)
  obtain ⟨dims', hdims', hfiner⟩ := hv.dims _ hdims
  obtain rfl := Option.some.inj ((Tensor.dims?_operand ..).symm.trans hdims')
  rw [Tensor.shape_ofPairs, List.map_append] at hfiner
  have hlen := hfiner.length_eq
  simp only [List.length_append, List.length_map, List.length_singleton, Nat.add_right_cancel_iff]
    at hlen
  have htake := List.forall₂_take dims.length hfiner
  rwa [List.take_left' rfl, List.take_left' (by simpa using hlen)] at htake

/-- There are pairs that fit a marked value. -/
theorem exists_fits (hg : g.WellFormed) {marker packed : ValueId} {x : Operand}
    (h : g.Has marker (.complexMark e) [packed]) (hx : g.operand? packed = some x)
    (hdims : x.shape.dims? = some (dims ++ [last])) :
    ∃ sizes f, g.Fits packed (.ofPairs e sizes f) := by
  obtain ⟨y, hy, he, -, hpairs⟩ := operand_of_marked hg h
  obtain rfl := Option.some.inj (hx.symm.trans hy)
  cases hc : x.contents with
  | some v =>
    have hv := Graph.operand_refines (hg.settled hx) hc
    have htype : x.toTensorType = v.type := hg.settled hx v hc
    obtain ⟨last, hlast, htwo⟩ := hpairs (v.shape.map some) (by rw [htype]; rfl)
    obtain ⟨n, hn, rfl⟩ := Option.map_eq_some_iff.mp (List.getLast?_map.symm.trans hlast)
    obtain rfl := htwo n rfl
    obtain ⟨sizes, hsizes⟩ := List.getLast?_eq_some_iff.mp hn
    have hvtype : v.type = ⟨e, .fixed (sizes ++ [2])⟩ := by
      rw [← hsizes, ← he, htype]
      rfl
    obtain ⟨f, rfl⟩ := Tensor.exists_ofPairs hvtype
    exact ⟨sizes, f, x, hx, hv⟩
  | none =>
    obtain ⟨_, hlast, htwo⟩ := hpairs _ hdims
    obtain rfl := Option.some.inj (List.getLast?_concat.symm.trans hlast)
    refine ⟨dims.map (·.getD 1), fun _ => (e.zero, e.zero), x, hx, ⟨⟨he.symm, ?_⟩, ?_, ?_⟩⟩
    · rw [show (Tensor.operand _).shape = .fixed _ from rfl, PartialShape.refines_fixed, hdims,
        Shape.finerShape_some]
      refine ⟨_, rfl, ?_⟩
      rw [Tensor.shape_ofPairs, List.map_append]
      refine List.rel_append ?_ (.cons (fun n hn => congrArg some (htwo n hn).symm) .nil)
      rw [List.map_map, List.forall₂_map_left_iff, List.forall₂_same]
      rintro dim - n rfl
      rfl
    · rw [hc]
      nofun
    · exact Tensor.operand_settled _

theorem Runs.complexProduct {a : Arithmetic e.Carrier} (keepDims : Bool) (hg : b.graph.WellFormed)
    (h : ProductCall b.graph e z axes named lengths)
    (hcapacity : ∀ n ∈ lengths, n < 2305843009213693952) (ha : e.arithmetic? = some a)
    (hz : Graph.Denotes σ b.graph z.packed (some (.ofPairs e sizes f))) :
    Runs A b (Lowering.complexProduct z axes keepDims) F fun g lowered => ∃ r h,
      lowered = .complex r ∧ r.partType = e ∧
        r.Denotes σ g (some (.ofPairs e (collapse 1 keepDims named sizes) h)) ∧
        MultipliesSlices (Arithmetic.complexMul a) named keepDims sizes f h := by
  obtain ⟨dims, last, s, table, listed, hs, hdims, htable, hlisted, hnamed, hsizes⟩ := h.known
  obtain ⟨x, hx, rfl⟩ := shape_eq_ok.mp hs
  obtain ⟨-, -, -, hfloat, -⟩ := operand_of_marked hg h.marked
  have hfiner := finer_of_fits hx hdims (hz.fits _ rfl)
  unfold Lowering.complexProduct
  refine .bind ((Runs.planes_tables hz).and .planes_has) fun planes c₁ h₁ hplanes => ?_
  obtain ⟨htables, i, hreal, hi⟩ := hplanes
  have hx₁ := h₁.grows.toExtends.operand? hx
  obtain ⟨s', dims', hs', hdims', hfiner'⟩ := exists_shape_real h₁.after hreal hi hx₁ hdims
  -- What is recorded about an axis holds of the pairs.
  have hsize : ∀ a ∈ named, sizes[a]? = some (sizes.getD a 0) ∧
      dims'[a]? = some (some (sizes.getD a 0)) ∧ 0 < sizes.getD a 0 ∧
      sizes.getD a 0 < 2305843009213693952 := by
    intro a ha
    obtain ⟨n, hmem, hn⟩ := exists_of_forall₂_left hsizes ha
    have hget : sizes[a]? = some n := by simpa using hfiner.getElem? hn
    have hgetD : sizes.getD a 0 = n := by rw [List.getD_eq_getElem?_getD, hget, Option.getD_some]
    rw [hgetD]
    exact ⟨hget, hfiner'.getElem? hn, h.positive n hmem, hcapacity n hmem⟩
  rw [← hfiner'.length_eq] at hnamed
  obtain ⟨known, hknown, hnodup, hmem, hat⟩ := exists_knownAxes hlisted hdims' hnamed h.nodup
    fun a ha => ⟨(hsize a ha).2.1, (hsize a ha).2.2.1⟩
  have hknownSizes : ∀ k ∈ known, sizes[k.axis]? = some k.size ∧ 0 < k.size ∧
      k.size < 2305843009213693952 := by
    intro k hk
    obtain ⟨hget, -, hpos, hword⟩ := hsize k.axis ((hmem _).mp (List.mem_map_of_mem hk))
    rw [hat k hk]
    exact ⟨hget, hpos, hword⟩
  have haxes {α : Type} (one : α) (keepDims : Bool) (xs : List α) :
      collapse one keepDims (known.map (·.axis)) xs = collapse one keepDims named xs :=
    Shape.collapse_congr fun i _ => by
      rw [Bool.eq_iff_iff, List.contains_iff_mem, List.contains_iff_mem]
      exact hmem i
  refine .query_bind (congrArg Except.ok (h₁.grows.toExtends.contents? htable)) ?_
  refine .query_bind hs' ?_
  rw [hknown]
  refine .bind (.productByHalving keepDims ha htables hnodup hknownSizes) ?_
  rintro product c₂ _ ⟨u, hproduct, hu⟩
  refine .imp (.toComplex_tables h.partType hfloat hproduct) id fun g lowered _ hr => ?_
  obtain ⟨r, rfl, hpart, hr⟩ := hr
  have hmultiplies := multipliesSlices_combineAll hnodup
    (fun k hk => ⟨(hknownSizes k hk).1, (hknownSizes k hk).2.1⟩) hu
  simp only [MultipliesSlices, Lowering.slice, haxes] at hmultiplies hr
  exact ⟨r, u, rfl, hpart, hr, hmultiplies⟩

theorem Runs.prod {a : Arithmetic e.Carrier} {node : Source.Node} {keepDims : Bool}
    (hg : b.graph.WellFormed) (h : ProductCall b.graph e z axes named lengths)
    (hcapacity : ∀ n ∈ lengths, n < 2305843009213693952) (hop : node.opType = "Prod")
    (hkeep : (⟨node, [.complex z, .plain axes]⟩ : ResolvedNode).attrD .bool "keep_dims" false =
      .ok keepDims)
    (ha : e.arithmetic? = some a)
    (hz : Graph.Denotes σ b.graph z.packed (some (.ofPairs e sizes f))) :
    Runs A b (Rule.prod.lower ⟨node, [.complex z, .plain axes]⟩) F fun g outputs => ∃ r h,
      outputs = [.complex r] ∧ r.partType = e ∧
        r.Denotes σ g (some (.ofPairs e (collapse 1 keepDims named sizes) h)) ∧
        MultipliesSlices (Arithmetic.complexMul a) named keepDims sizes f h := by
  unfold Rule.prod Rule.reduction
  refine .liftM_bind (check_ok (hop ▸ .head _) (Nat.le_refl _)) ?_
  refine .liftM_bind hkeep (.liftM_bind rfl (.liftM_bind rfl ?_))
  refine .bind (.complexProduct keepDims hg h hcapacity ha hz) fun lowered c _ hr => ?_
  obtain ⟨r, u, rfl, hr⟩ := hr
  exact .pure ⟨r, u, rfl, hr⟩

/-- A value stands for any tensor that fits it, if nothing is said about its meaning. -/
theorem denotes_of_fits {id : ValueId} (hid : id < g.nodes.size) {v : Tensor} (hv : g.Fits id v) :
    Graph.Denotes ⟨[], False⟩ g id (some v) where
  lt_size := hid
  fits _ hw := Option.some.inj hw ▸ hv
  meaning := False.elim

theorem ComplexValue.Denotes.evaluate {feeds : Dataflow.Feeds} {r : ComplexValue} {q : Tensor}
    (hg : g.WellFormed) (h : r.Denotes ⟨feeds, True⟩ g (some q)) :
    g.evaluate feeds [r.packed, r.marker] = .ok [q, q] := by
  have hmarker := h.marker hg
  have hout : ∀ id ∈ [r.packed, r.marker], id < g.nodes.size := by
    rw [List.forall_mem_cons, List.forall_mem_singleton]
    exact ⟨h.packed.lt_size, hmarker.lt_size⟩
  rw [Graph.evaluate_eq_ok hg hout]
  exact .cons (toOption_eq_some.mp (h.packed.meaning trivial))
    (.cons (toOption_eq_some.mp (hmarker.meaning trivial)) .nil)

/-- Along constant axes of known sizes the product of a complex tensor is exact. Lowering it
succeeds and takes no angles. The result has a complex element for each slice, which is the product
of the elements of the slice by a tree of multiplications: the element itself if there is one only,
and the product of all of them over any commutative ring. The indices of half of the slices along an
axis have to fit a vector. -/
theorem prod_exact {node : Source.Node} {keepDims : Bool} (hg : Graph.Reachable b.graph)
    (h : ProductCall b.graph e z axes named lengths)
    (hcapacity : ∀ n ∈ lengths, n < 2305843009213693952) (hop : node.opType = "Prod")
    (hkeep : (⟨node, [.complex z, .plain axes]⟩ : ResolvedNode).attrD .bool "keep_dims" false =
      .ok keepDims) :
    ∃ a r c, e.arithmetic? = some a ∧
      (translate node [.complex z, .plain axes]).exec b = (.ok [.complex r], c) ∧ r.partType = e ∧
      (∀ id inputs, c.graph.Has id .atan2 inputs → b.graph.Has id .atan2 inputs) ∧
      ∀ feeds p shape, b.graph.evaluate feeds [z.packed] = .ok [p] → p.shape = shape ++ [2] →
        ∃ f h, p = .ofPairs e shape f ∧
          c.graph.evaluate feeds [r.packed, r.marker] =
            .ok [.ofPairs e (collapse 1 keepDims named shape) h,
              .ofPairs e (collapse 1 keepDims named shape) h] ∧
          ∀ coordinate, Within coordinate (collapse 1 keepDims named shape) →
            ∃ tree : ProductTree (List Nat),
              tree.leaves.Perm (slice named keepDims shape coordinate) ∧
              h coordinate = tree.value (Arithmetic.complexMul a) f ∧
              (∀ x, slice named keepDims shape coordinate = [x] → h coordinate = f x) ∧
              ∀ (R : Type u) [CommRing R] (v : List Nat → R × R),
                toQuadratic (tree.value (complexMul (· + ·) (· - ·) (· * ·)) v) =
                  ((slice named keepDims shape coordinate).map fun x => toQuadratic (v x)).prod := by
  have hw := hg.wellFormed
  obtain ⟨hfloat, hlt, helement⟩ := packed_of_marked hw h.marked
  obtain ⟨a, ha⟩ : ∃ a, e.arithmetic? = some a := by
    cases e <;> first | exact ⟨_, rfl⟩ | cases hfloat
  have hruns {σ : Scenario} {sizes : List Nat} {f : List Nat → e.Carrier × e.Carrier}
      (hz : Graph.Denotes σ b.graph z.packed (some (.ofPairs e sizes f))) :=
    have hrule : Registry.standard.find? node.opType = some .prod := hop ▸ rfl
    Runs.translate (A := False) (F := False) hrule (.prod hw h hcapacity hop hkeep ha hz) hw
  -- Lowering does not depend on feeds: some pairs that fit the operand show that it succeeds.
  obtain ⟨r, c, hexec, hpart, hleads⟩ : ∃ r c,
      (translate node [.complex z, .plain axes]).exec b = (.ok [.complex r], c) ∧ r.partType = e ∧
        b.graph.Leads False c.graph := by
    obtain ⟨dims, last, s, -, -, hs, hdims, -⟩ := h.known
    obtain ⟨x, hx, rfl⟩ := shape_eq_ok.mp hs
    obtain ⟨sizes, f, hfits⟩ := exists_fits hw h.marked hx hdims
    have hran := hruns (denotes_of_fits hlt hfits)
    generalize (translate node [.complex z, .plain axes]).exec b = outcome at hran ⊢
    obtain ⟨_ | outputs, c⟩ := outcome
    · exact (hran.error _ rfl).elim
    · obtain ⟨r, _, rfl, hpart, -⟩ := hran.post _ rfl
      exact ⟨r, c, rfl, hpart, hran.leads⟩
  refine ⟨a, r, c, ha, hexec, hpart, fun id inputs hid => ?_, fun feeds p shape hp hshape => ?_⟩
  · exact (hleads.grows.has_or hid).resolve_right fun hangle => hangle rfl
  have hdenotes : Graph.Denotes ⟨feeds, True⟩ b.graph z.packed (some p) :=
    (outcome?_eq_some hw hlt).mpr hp ▸ Graph.denotes_meaning hw hlt
  have htype : p.type = ⟨e, .fixed (shape ++ [2])⟩ := by
    rw [← hshape, ← helement p (hdenotes.fits p rfl)]
    rfl
  obtain ⟨f, rfl⟩ := Tensor.exists_ofPairs htype
  have hran := hruns hdenotes
  rw [hexec] at hran
  obtain ⟨_, u, ⟨⟩, -, hr, hmultiplies⟩ := hran.post _ rfl
  refine ⟨f, u, rfl, hr.evaluate hleads.after, fun coordinate hcoordinate => ?_⟩
  obtain ⟨tree, hleaves, hvalue⟩ := hmultiplies coordinate hcoordinate
  refine ⟨tree, hleaves, hvalue, fun x hx => ?_, fun R _ v => ?_⟩
  · rw [hvalue]
    exact ProductTree.value_of_perm_singleton (hx ▸ hleaves)
  · rw [toQuadratic_value]
    exact (hleaves.map _).prod_eq

/-- A complex matrix with three rows, and the number of its first axis counted from the back. -/
def threeRows : Builder where
  graph := Graph.build {} [
    .parameter "z" .f32 (.ranked [some 3, none, some 2]),
    .op "z/complex" (.complexMark .f32) [0],
    .constant "axes" (.ofInts [-2])]
  node := "product"
  opType := "Prod"

/-- The matrix has the column `1`, `2i`, `1 + i`. -/
def column : Tensor :=
  ⟨.f32, [3, 1, 2], #[⟨0x3f800000⟩, ⟨0⟩, ⟨0⟩, ⟨0x40000000⟩, ⟨0x3f800000⟩, ⟨0x3f800000⟩], rfl⟩

theorem threeRows_productCall : ProductCall threeRows.graph .f32 ⟨1, 0, .f32⟩ 2 [0] [3] where
  partType := rfl
  marked := ⟨_, rfl, rfl, rfl⟩
  nodup := by decide
  known := ⟨[some 3, none], some 2, _, _, [-2], rfl, rfl, rfl, rfl, rfl, .cons rfl .nil⟩
  positive := by decide

/-- The product of the column is that of a tree with its three elements. -/
theorem threeRows_exact : Graph.Reachable threeRows.graph ∧
    ProductCall threeRows.graph .f32 ⟨1, 0, .f32⟩ 2 [0] [3] ∧
    ∃ r c, (translate ⟨"product", "Prod", [], []⟩ [.complex ⟨1, 0, .f32⟩, .plain 2]).exec threeRows =
        (.ok [.complex r], c) ∧
      (∀ id inputs, ¬c.graph.Has id .atan2 inputs) ∧
      ∃ f h, column = .ofPairs .f32 [3, 1] f ∧
        c.graph.evaluate [("z", column)] [r.packed, r.marker] =
          .ok [.ofPairs .f32 [1] h, .ofPairs .f32 [1] h] ∧
        ∃ tree : ProductTree (List Nat), tree.leaves.Perm [[0, 0], [1, 0], [2, 0]] ∧
          h [0] = tree.value (Arithmetic.complexMul .f32) f := by
  have hg : Graph.Reachable threeRows.graph := Graph.reachable_build {} _
  have hop : (⟨"product", "Prod", [], []⟩ : Source.Node).opType = "Prod" := rfl
  obtain ⟨a, r, c, ⟨⟩, hexec, -, hangles, hexact⟩ :=
    prod_exact.{0} hg threeRows_productCall (by decide) hop rfl
  have heval : threeRows.graph.evaluate [("z", column)] [0] = .ok [column] := by decide +kernel
  obtain ⟨f, h, hf, hh, htrees⟩ := hexact _ column [3, 1] heval rfl
  obtain ⟨tree, hleaves, hvalue, -⟩ := htrees [0] (by decide)
  have hslice : slice [0] false [3, 1] [0] = [[0, 0], [1, 0], [2, 0]] := by decide
  refine ⟨hg, threeRows_productCall, r, c, hexec, fun id inputs hid => ?_, f, h, hf, hh, tree, ?_, hvalue⟩
  · obtain ⟨node, hnode, hangle, -⟩ := hangles id inputs hid
    have hall : ∀ node ∈ threeRows.graph.nodes.toList, node.op ≠ .atan2 := by decide +kernel
    exact hall node (Array.mem_toList_iff.mpr (Array.mem_of_getElem? hnode)) hangle
  · exact hslice ▸ hleaves

/-- A complex vector of 2305843009213693952 elements, and the number of its axis. -/
def longVector : Builder where
  graph := Graph.build {} [
    .parameter "z" .f32 (.fixed [2305843009213693952, 2]),
    .op "z/complex" (.complexMark .f32) [0],
    .constant "axes" (.ofInts [0])]
  node := "product"
  opType := "Prod"

/-- The indices of half of its elements do not fit a vector, and its product is not lowered. -/
theorem longVector_overflows : Graph.Reachable longVector.graph ∧
    ProductCall longVector.graph .f32 ⟨1, 0, .f32⟩ 2 [0] [2305843009213693952] ∧
    ((translate ⟨"product", "Prod", [], []⟩ [.complex ⟨1, 0, .f32⟩, .plain 2]).exec longVector).1 =
      .error (.node "product" "Prod" (.target (.evaluation (.capacity 1152921504606846976)))) := by
  refine ⟨Graph.reachable_build {} _, ?_, by decide +kernel⟩
  exact {
    partType := rfl
    marked := ⟨_, rfl, rfl, rfl⟩
    nodup := by decide
    known := ⟨[some 2305843009213693952], some 2, _, _, [0], rfl, rfl, rfl, rfl, rfl, .cons rfl .nil⟩
    positive := by decide }

end ExactProduct

end TensorLowering.Lowering
