import TensorLowering.Proofs.Lowering.Projection
import TensorLowering.Proofs.Tensor.Pairs

/-!
# Fill values of complex paddings

Complex data is padded in packed form. The fill value, a scalar of the type of the parts, goes to
every place without an element of the data, so to the imaginary parts as well as to the real ones:
each plane is padded with the same value (`padV2_fillsBothParts`). The imaginary plane is padded with
zeros only if the value is zero, or if no place needs one.
-/

namespace TensorLowering.Lowering

open Dataflow (ValueId Graph Feeds)
open Dataflow.Graph (Scenario Denotes)
open Kernel (padCoordinate)

variable {b : Builder} {A F : Prop} {σ : Scenario} {e : ElementType} {x : Option Tensor}
  {table : Tensor} {n : Nat} {c : e.Carrier}

/-! ## Padded planes -/

/-- The columns of the table list as many counts as there are axes, and the counts of elements before
them and after them bring the sizes to those of the result. -/
structure PadsTo (table : Tensor) (shape : List Nat) (counts : List Int) (result : List Nat) :
    Prop where
  before : (padColumn 0 table).ints = .ok counts
  length_before : counts.length = shape.length
  after : ∃ more, (padColumn 1 table).ints = .ok more ∧ more.length = shape.length ∧
    Tensor.paddedShape shape counts more = .ok result

theorem filled?_tabulate {shape : List Nat} {f : List Nat → e.Carrier} {t : Tensor} :
    filled? table (.scalar e c) (some (.tabulate e shape f)) = some t ↔ ∃ counts result,
      PadsTo table shape counts result ∧
        t = .tabulate e result fun k => ((padCoordinate shape counts k).map f).getD c := by
  rw [filled?, result?_pad_some, toOption_eq_some]
  constructor
  · intro h
    obtain ⟨counts, more, result, hb, ha, hlb, hla, hs, -⟩ := Tensor.type_pad h
    have hpad := Tensor.pad_tabulate (f := f) c hb ha hlb hla hs
    exact ⟨counts, result, ⟨hb, hlb, more, ha, hla, hs⟩, Except.ok.inj (h.symm.trans hpad)⟩
  · rintro ⟨counts, result, ⟨hb, hlb, more, ha, hla, hs⟩, rfl⟩
    exact Tensor.pad_tabulate c hb ha hlb hla hs

theorem filled?_plane? (hpairs : ArePairs x) (he : ∀ p, x = some p → p.elementType = e) {k : Nat}
    (hk : k < 2) {t : Tensor} :
    filled? table (.scalar e c) (plane? k x) = some t ↔ ∃ shape f counts result,
      x = some (.tabulate e (shape ++ [2]) f) ∧ PadsTo table shape counts result ∧
        t = .tabulate e result fun j =>
          ((padCoordinate shape counts j).map fun d => f (d ++ [k])).getD c := by
  have hplane {shape : List Nat} {f : List Nat → e.Carrier} :
      plane? k (some (.tabulate e (shape ++ [2]) f)) =
        some (.tabulate e shape fun d => f (d ++ [k])) := congrArg some (Tensor.plane_tabulate hk)
  constructor
  · intro h
    cases x with
    | none =>
      rw [plane?, Option.map_none, filled?_none] at h
      cases h
    | some p =>
      obtain ⟨e', shape, f, rfl⟩ := hpairs.exists_tabulate
      obtain rfl : e' = e := he _ rfl
      rw [hplane, filled?_tabulate] at h
      obtain ⟨counts, result, hpads, rfl⟩ := h
      exact ⟨shape, f, counts, result, rfl, hpads, rfl⟩
  · rintro ⟨shape, f, counts, result, rfl, hpads, rfl⟩
    rw [hplane, filled?_tabulate]
    exact ⟨counts, result, hpads, rfl⟩

/-- Different fill values give different tensors, unless no place needs one. -/
theorem tabulate_getD_eq_iff {shape : List Nat} {f : List Nat → Option e.Carrier}
    {c' : e.Carrier} :
    Tensor.tabulate e shape (fun k => (f k).getD c) = Tensor.tabulate e shape (fun k => (f k).getD c') ↔
      c = c' ∨ ∀ k, Shape.Within k shape → f k ≠ none := by
  constructor
  · intro h
    rw [or_iff_not_imp_right]
    intro hnone
    push Not at hnone
    obtain ⟨k, hk, hnone⟩ := hnone
    simpa [hnone] using Tensor.tabulate_inj h hk
  · rintro (rfl | hsome)
    · rfl
    · refine Tensor.tabulate_congr fun k hk => ?_
      obtain ⟨v, hv⟩ := Option.ne_none_iff_exists'.mp (hsome k hk)
      rw [hv]
      rfl

/-! ## Padding with a given value -/

section

variable {node : Source.Node} {paddings fill : ValueId} {f : Tensor}

/-- A scalar of the type of the parts is one of the type of the packed tensor. -/
theorem ComplexValue.IsOperand.scalar_eq {g : Graph} {z : ComplexValue} (hz : z.IsOperand σ g e x)
    (p : Tensor) (hp : x = some p) : ∃ c', Tensor.scalar e c = .scalar p.elementType c' := by
  obtain rfl := hz.elementType p hp
  exact ⟨c, rfl⟩

theorem Runs.padV2_plain {v : ValueId} (hx : Denotes σ b.graph v x)
    (hd : Denotes σ b.graph paddings (some table)) (hshape : table.shape = [n, 2])
    (hfill : Denotes σ b.graph fill (some (.scalar e c))) (hop : node.opType = "PadV2")
    (hF : filled? table (.scalar e c) x = none → F) :
    Runs A b (Rule.padV2.lower ⟨node, [.plain v, .plain paddings, .plain fill]⟩) F fun g outputs =>
      ∃ v, outputs = [.plain v] ∧ Denotes σ g v (filled? table (.scalar e c) x) := by
  unfold Rule.padV2
  refine .liftM_bind (check_ok (hop ▸ .head _) (Nat.le_refl _)) ?_
  refine .liftM_bind rfl (.liftM_bind rfl (.liftM_bind rfl ?_))
  refine .bind (.constantPad_plain hx hd hshape hfill rfl hF) ?_
  rintro lowered g _ ⟨v, rfl, hv⟩
  exact .pure ⟨v, rfl, hv⟩

theorem Runs.padV2_complex {z : ComplexValue} (hz : z.IsOperand σ b.graph e x)
    (hfloat : e.isFloat = true) (hd : Denotes σ b.graph paddings (some table))
    (hshape : table.shape = [n, 2]) (hfill : Denotes σ b.graph fill (some (.scalar e c)))
    (hop : node.opType = "PadV2") (hF : filled? table (.scalar e c) (plane? 0 x) = none → F) :
    Runs A b (Rule.padV2.lower ⟨node, [.complex z, .plain paddings, .plain fill]⟩) F
      fun g outputs => ∃ r y, outputs = [.complex r] ∧ r.Denotes σ g y ∧ ArePairs y ∧
        ∀ k < 2, plane? k y = filled? table (.scalar e c) (plane? k x) := by
  unfold Rule.padV2
  refine .liftM_bind (check_ok (hop ▸ .head _) (Nat.le_refl _)) ?_
  refine .liftM_bind rfl (.liftM_bind rfl (.liftM_bind rfl ?_))
  refine .bind (.constantPad_complex hz hfloat hd hshape hfill rfl hz.scalar_eq hF) ?_
  rintro lowered g _ ⟨r, y, rfl, hr⟩
  exact .pure ⟨r, y, rfl, hr⟩

theorem worksOnPlanes_padV2 {z : ComplexValue} (hz : z.IsOperand σ b.graph e x)
    (hfloat : e.isFloat = true) (hd : Denotes σ b.graph paddings (some table))
    (hshape : table.shape = [n, 2]) (hfill : Denotes σ b.graph fill (some (.scalar e c)))
    (hop : node.opType = "PadV2") :
    WorksOnPlanes σ b e node [.complex z, .plain paddings, .plain fill]
      fun part => filled? table (.scalar e c) (plane? part.place x) := by
  have hrule : Registry.standard.find? node.opType = some .padV2 := hop ▸ rfl
  have hpacked := Runs.translate (A := False) hrule
    (.padV2_complex hz hfloat hd hshape hfill hop id)
  refine ⟨⟨hpacked.imp id fun g outputs _ hr => ?_,
    fun h part => filled?_plane?_eq_none hz.scalar_eq h⟩, fun part => ?_⟩
  · obtain ⟨r, y, rfl, hr, hpairs, hplanes⟩ := hr
    exact ⟨r, y, rfl, hr, hpairs, fun part => hplanes part.place part.place_lt⟩
  · refine ⟨_, .cons (.complex hz) (.cons (.plain hd) (.cons (.plain hfill) .nil)), fun h => ?_,
      fun g values hvalues => ?_⟩
    · have hnone : plane? part.place x = none := by simpa [eq_comm] using h
      rw [hnone, filled?_none]
    · obtain _ | ⟨hv, _ | ⟨hv', _ | ⟨hv'', _ | _⟩⟩⟩ := hvalues
      exact .translate hrule (.padV2_plain hv hv' hshape hv'' hop id)

/-- Lowering the padding of complex data and then taking a plane comes to the same tensor as padding
that plane with the same fill value, or neither comes to a tensor. The places without an element of
the data hold the fill value, also in the imaginary plane: this is the imaginary plane padded with
zeros only if the value is zero, or if there is no such place. -/
theorem padV2_fillsBothParts {part : Part} {projection : Source.Node} {feeds : Feeds}
    {x : ComplexValue} (hg : Graph.Reachable b.graph) (hop : node.opType = "PadV2")
    (hp : projection.opType = part.opType) (hx : x.IsOperandOf b.graph feeds e)
    (htable : b.graph.evaluate feeds [paddings] = .ok [table]) (hshape : table.shape = [n, 2])
    (hfill : b.graph.evaluate feeds [fill] = .ok [.scalar e c]) :
    (∀ t, Evaluates feeds (translate node [.complex x, .plain paddings, .plain fill] >>=
        translate projection) b t ↔
      Evaluates feeds (project projection [.complex x, .plain paddings, .plain fill] >>=
        translate node) b t) ∧
    (∀ t, Evaluates feeds (translate node [.complex x, .plain paddings, .plain fill] >>=
        translate projection) b t ↔
      ∃ shape f counts result, b.graph.evaluate feeds [x.packed] = .ok [.tabulate e (shape ++ [2]) f] ∧
        PadsTo table shape counts result ∧ t = .tabulate e result fun k =>
          ((padCoordinate shape counts k).map fun d => f (d ++ [part.place])).getD c) ∧
    ∀ other t, b.graph.evaluate feeds [other] = .ok [.zero e] →
      Evaluates feeds (translate node [.complex x, .plain paddings, .plain fill] >>=
        translate projection) b t →
      (Evaluates feeds (project projection [.complex x, .plain paddings, .plain other] >>=
          translate node) b t ↔
        c = e.zero ∨ ∀ p counts, b.graph.evaluate feeds [x.packed] = .ok [p] →
          (padColumn 0 table).ints = .ok counts →
          ∀ k, Shape.Within k t.shape → padCoordinate p.shape.dropLast counts k ≠ none) := by
  have hw := hg.wellFormed
  obtain ⟨hfloat, hlt, -⟩ := packed_of_marked hw hx.marked
  have hz := hx.isOperand hw
  have hd := denotes_of_evaluate hw htable
  have hworks {id : ValueId} {c : e.Carrier}
      (h : b.graph.evaluate feeds [id] = .ok [.scalar e c]) :=
    worksOnPlanes_padV2 hz hfloat hd hshape (denotes_of_evaluate hw h) hop
  have hplane {c : e.Carrier} {t : Tensor} :
      filled? table (.scalar e c) (plane? part.place (outcome? b.graph feeds x.packed)) = some t ↔ _ :=
    filled?_plane? hz.pairs hz.elementType part.place_lt
  simp only [outcome?_eq_some hw hlt] at hplane
  refine ⟨fun t => ?_, fun t => ?_, fun other t hother ht => ?_⟩
  · rw [(hworks hfill).evaluates_iff hw hp, (hworks hfill).evaluates_project_iff hw hp]
  · rw [(hworks hfill).evaluates_iff hw hp, hplane]
  · rw [(hworks hfill).evaluates_iff hw hp, hplane] at ht
    obtain ⟨shape, f, counts, result, heval, hpads, rfl⟩ := ht
    have hzero := (hplane (c := e.zero)).mpr ⟨shape, f, counts, result, heval, hpads, rfl⟩
    rw [(hworks hother).evaluates_project_iff hw hp, hzero, Option.some_inj, eq_comm,
      tabulate_getD_eq_iff]
    refine or_congr_right ⟨fun h p counts' hp hcounts k hk => ?_, fun h k hk => ?_⟩
    · obtain rfl := List.head_eq_of_cons_eq (Except.ok.inj (heval.symm.trans hp))
      obtain rfl := Except.ok.inj (hpads.before.symm.trans hcounts)
      rw [Tensor.shape_tabulate, List.dropLast_concat]
      exact fun hnone => h k hk (by rw [hnone, Option.map_none])
    · have hread := h _ counts heval hpads.before k hk
      rw [Tensor.shape_tabulate, List.dropLast_concat] at hread
      exact fun hnone => hread (Option.map_eq_none_iff.mp hnone)

/-- A complex vector of unknown length, a table that pads a vector by one element, and two fill
values. -/
def vectorAndFills : Builder where
  graph := Graph.build {} [
    .parameter "z" .f32 (.ranked [none, some 2]),
    .op "z/complex" (.complexMark .f32) [0],
    .constant "paddings" ⟨.i64, [1, 2], #[1, 0], rfl⟩,
    .constant "nine" (.scalar .f32 ⟨0x41100000⟩),
    .constant "zero" (.zero .f32)]
  node := "padded"
  opType := "PadV2"

/-- The vector with the element `1 + 2i`, padded with `9`, has the imaginary plane `9, 2`, and its own
imaginary plane, padded with zeros, is `0, 2`. -/
theorem vectorAndFills_nineInPlace :
    Evaluates oneElement (translate ⟨"padded", "PadV2", [], []⟩
        [.complex ⟨1, 0, .f32⟩, .plain 2, .plain 3] >>= translate ⟨"im", "Imag", [], []⟩)
      vectorAndFills ⟨.f32, [2], #[⟨0x41100000⟩, ⟨0x40000000⟩], rfl⟩ ∧
    Evaluates oneElement (project ⟨"im", "Imag", [], []⟩
        [.complex ⟨1, 0, .f32⟩, .plain 2, .plain 4] >>= translate ⟨"padded", "PadV2", [], []⟩)
      vectorAndFills ⟨.f32, [2], #[⟨0⟩, ⟨0x40000000⟩], rfl⟩ := by
  decide +kernel

/-- The imaginary plane padded with zeros is not what comes of it. -/
theorem vectorAndFills_fillsBothParts : Graph.Reachable vectorAndFills.graph ∧
    ComplexValue.IsOperandOf vectorAndFills.graph oneElement .f32 ⟨1, 0, .f32⟩ ∧
    vectorAndFills.graph.evaluate oneElement [2] = .ok [⟨.i64, [1, 2], #[1, 0], rfl⟩] ∧
    vectorAndFills.graph.evaluate oneElement [3] = .ok [.scalar .f32 ⟨0x41100000⟩] ∧
    vectorAndFills.graph.evaluate oneElement [4] = .ok [.zero .f32] ∧
    Evaluates oneElement (project ⟨"im", "Imag", [], []⟩
        [.complex ⟨1, 0, .f32⟩, .plain 2, .plain 3] >>= translate ⟨"padded", "PadV2", [], []⟩)
      vectorAndFills ⟨.f32, [2], #[⟨0x41100000⟩, ⟨0x40000000⟩], rfl⟩ ∧
    ¬Evaluates oneElement (project ⟨"im", "Imag", [], []⟩
        [.complex ⟨1, 0, .f32⟩, .plain 2, .plain 4] >>= translate ⟨"padded", "PadV2", [], []⟩)
      vectorAndFills ⟨.f32, [2], #[⟨0x41100000⟩, ⟨0x40000000⟩], rfl⟩ := by
  have hg : Graph.Reachable vectorAndFills.graph := Graph.reachable_build {} _
  have heval : vectorAndFills.graph.evaluate oneElement [0] =
      .ok [⟨.f32, [1, 2], #[⟨0x3f800000⟩, ⟨0x40000000⟩], rfl⟩] := by decide +kernel
  have hz : ComplexValue.IsOperandOf vectorAndFills.graph oneElement .f32 ⟨1, 0, .f32⟩ :=
    .of_evaluate rfl ⟨_, rfl, rfl, rfl⟩ heval rfl
  have htable : vectorAndFills.graph.evaluate oneElement [2] =
      .ok [⟨.i64, [1, 2], #[1, 0], rfl⟩] := by decide +kernel
  have hfill : vectorAndFills.graph.evaluate oneElement [3] =
      .ok [.scalar .f32 ⟨0x41100000⟩] := by decide +kernel
  have hzero : vectorAndFills.graph.evaluate oneElement [4] = .ok [.zero .f32] := by
    decide +kernel
  have hop : (⟨"padded", "PadV2", [], []⟩ : Source.Node).opType = "PadV2" := rfl
  have hp : (⟨"im", "Imag", [], []⟩ : Source.Node).opType = Part.imag.opType := rfl
  have hpadded : Evaluates oneElement (translate ⟨"padded", "PadV2", [], []⟩
        [.complex ⟨1, 0, .f32⟩, .plain 2, .plain 3] >>= translate ⟨"im", "Imag", [], []⟩)
      vectorAndFills ⟨.f32, [2], #[⟨0x41100000⟩, ⟨0x40000000⟩], rfl⟩ := by decide +kernel
  obtain ⟨hplane, -, hother⟩ := padV2_fillsBothParts hg hop hp hz htable rfl hfill
  refine ⟨hg, hz, htable, hfill, hzero, (hplane _).mp hpadded, fun h => ?_⟩
  -- The nine is not zero, and the first place has no element of the vector.
  rcases (hother 4 _ hzero hpadded).mp h with hnine | hnone
  · exact absurd hnine (by decide)
  · have hcounts : (padColumn 0 ⟨.i64, [1, 2], #[1, 0], rfl⟩).ints = .ok [1] := by decide +kernel
    exact hnone _ [1] heval hcounts [0] (Shape.mem_walk.mp (by decide)) (by decide)

end

end TensorLowering.Lowering
