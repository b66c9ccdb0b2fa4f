import TensorLowering.Proofs.Lowering.Summing

/-!
# Packing and splitting

Making a complex tensor of two planes and taking its parts are inverse to each other, in both orders
(`packing_roundTrips`). Two planes can be made into a complex tensor exactly if they are floats of
one type and one shape: which they are may show only when they are evaluated.
-/

namespace TensorLowering.Lowering

open Dataflow (ValueId Graph Feeds)
open Dataflow.Graph (Scenario Denotes)

variable {b : Builder} {A F : Prop} {σ : Scenario} {node projection : Source.Node} {part : Part}
  {x y : Option Tensor} {t u p : Tensor} {v w : ValueId} {feeds : Feeds}

/-- The tensors packed, if they are floats. -/
def complex? (x y : Option Tensor) : Option Tensor :=
  (pack? x y).filter (·.elementType.isFloat)

theorem complex?_eq_some : complex? x y = some p ↔ pack? x y = some p ∧ p.elementType.isFloat = true :=
  Option.filter_eq_some_iff

theorem arePairs_complex? : ArePairs (complex? x y) := fun p hp =>
  have hpack := (complex?_eq_some.mp hp).1
  arePairs_pack? (sameType_of_pack? hpack) p hpack

theorem exists_of_complex? (h : complex? x y = some p) :
    ∃ t u, x = some t ∧ y = some u ∧ u.type = t.type := by
  have hpack := (complex?_eq_some.mp h).1
  cases x with
  | none => cases pack?_none.symm.trans hpack
  | some t =>
    obtain ⟨u, rfl, htype⟩ := (sameType_of_pack? hpack).exists_eq_some
    exact ⟨t, u, rfl, rfl, htype.symm⟩

theorem exists_complex? (hfloat : t.elementType.isFloat = true) (htype : t.type = u.type) :
    ∃ p, complex? (some t) (some u) = some p ∧ p.plane 0 = t ∧ p.plane 1 = u := by
  have hsame : Op.SameType (some t) (some u) := congrArg some htype
  obtain ⟨p, hp, hptype, hreal, himag⟩ := exists_pack? hsame
  have helement : p.elementType = t.elementType := congrArg TensorType.elementType hptype
  exact ⟨p, complex?_eq_some.mpr ⟨hp, helement ▸ hfloat⟩, hreal, (Option.some.inj himag).symm⟩

/-! ## Runs -/

theorem Runs.complex (hop : node.opType = "Complex") (hx : Denotes σ b.graph v x)
    (hy : Denotes σ b.graph w y) (hF : complex? x y = none → F) :
    Runs A b (Lowering.translate node [.plain v, .plain w]) F fun g outputs =>
      ∃ z, outputs = [.complex z] ∧ z.Denotes σ g (complex? x y) := by
  obtain ⟨e, hread, helement⟩ := hx.exists_elementType
  have hpacked : ∀ p, pack? x y = some p → p.elementType = e := fun p hp => by
    obtain ⟨hreal, -⟩ := plane_pack? (sameType_of_pack? hp)
    rw [hp] at hreal
    exact helement (p.plane 0) hreal.symm
  have hcheck : (ResolvedNode.mk node [.plain v, .plain w]).check 2 ["Complex"] false = .ok () :=
    ResolvedNode.check_eq_ok.mpr ⟨List.mem_singleton.mpr hop, Nat.le_refl _, .inr (by
      simp [Lowered.isComplex, Lowered.complex?])⟩
  have hrule : Registry.standard.find? node.opType = some .complex := hop ▸ rfl
  refine .translate hrule ?_
  unfold Rule.complex
  refine .liftM_bind hcheck (.liftM_bind rfl (.liftM_bind rfl (.query_bind hread ?_)))
  by_cases hfloat : e.isFloat = true
  · have heq : complex? x y = pack? x y := by
      cases hp : pack? x y with
      | none => rw [complex?, hp, Option.filter_none]
      | some p => exact complex?_eq_some.mpr ⟨hp, hpacked p hp ▸ hfloat⟩
    rw [if_pos hfloat]
    rw [heq] at hF ⊢
    refine .bind (.toComplex_of_pack? ⟨hx, hy⟩ hfloat helement hF) ?_
    rintro lowered c _ ⟨z, rfl, -, hz⟩
    exact .pure ⟨z, rfl, hz⟩
  · rw [if_neg hfloat]
    refine .throw (hF (Option.filter_eq_none_iff.mpr fun p hp => ?_))
    rw [hpacked p hp]
    exact hfloat

/-- A packed value, split into its planes and packed again. -/
def repack (z : ComplexValue) : Build (List Lowered) := do
  let planes ← z.planes
  return [.plain (← planes.pack)]

theorem Runs.repack {z : ComplexValue} (hz : Denotes σ b.graph z.packed x) (hx : ArePairs x)
    (hF : x = none → F) : Runs A b (Lowering.repack z) F fun g outputs =>
      ∃ v, outputs = [.plain v] ∧ Denotes σ g v x := by
  have hpack := pack?_planes hx
  unfold Lowering.repack
  refine .bind (.planes hz hx hF) fun planes c _ hplanes => ?_
  refine .bind (.pack hplanes fun hnone => hF (hpack ▸ hnone)) fun packed c₁ _ hpacked => ?_
  exact .pure ⟨packed, rfl, hpack ▸ hpacked.2⟩

/-! ## Both ways -/

theorem evaluates_complex_iff (hg : b.graph.WellFormed) (hop : node.opType = "Complex")
    (hv : v < b.graph.nodes.size) (hw : w < b.graph.nodes.size) :
    Evaluates feeds (translate node [.plain v, .plain w]) b p ↔
      complex? (outcome? b.graph feeds v) (outcome? b.graph feeds w) = some p :=
  Runs.evaluates_marker_iff (A := False)
    (.complex hop (denotes_outcome? hg hv) (denotes_outcome? hg hw) id) hg

theorem evaluates_part_iff (hg : b.graph.WellFormed) (hop : node.opType = "Complex")
    (hp : projection.opType = part.opType) (hv : v < b.graph.nodes.size)
    (hw : w < b.graph.nodes.size) :
    Evaluates feeds (translate node [.plain v, .plain w] >>= translate projection) b t ↔
      plane? part.place (complex? (outcome? b.graph feeds v) (outcome? b.graph feeds w)) = some t := by
  refine Runs.evaluates_iff (A := False) ?_ hg
  refine .bind (.complex hop (denotes_outcome? hg hv) (denotes_outcome? hg hw)
    fun hnone => plane?_eq_none.mpr hnone) ?_
  rintro outputs c _ ⟨z, rfl, hz⟩
  exact .translate_part hp hz arePairs_complex? id

/-- The real and the imaginary part of what is made of two planes of floats are the planes, and a
packed tensor is what is packed of its planes. Planes that differ in their type or their shape are
not made into anything. -/
theorem packing_roundTrips (feeds : Feeds) {complex real imag : Source.Node}
    (hg : Graph.Reachable b.graph) (hcomplex : complex.opType = "Complex") (hreal : real.opType = "Real")
    (himag : imag.opType = "Imag") :
    (∀ v w re im, b.graph.evaluate feeds [v] = .ok [re] → b.graph.evaluate feeds [w] = .ok [im] →
      re.elementType.isFloat = true → im.elementType = re.elementType → im.shape = re.shape →
      (∃ p, Evaluates feeds (translate complex [.plain v, .plain w]) b p) ∧
        Evaluates feeds (translate complex [.plain v, .plain w] >>= translate real) b re ∧
        Evaluates feeds (translate complex [.plain v, .plain w] >>= translate imag) b im) ∧
    (∀ (z : ComplexValue) p, b.graph.evaluate feeds [z.packed] = .ok [p] →
      p.shape.getLast? = some 2 → Evaluates feeds (repack z) b p) ∧
    ∀ v w p, v < b.graph.nodes.size → w < b.graph.nodes.size →
      Evaluates feeds (translate complex [.plain v, .plain w]) b p →
      b.graph.elementType v = b.graph.elementType w ∧ ∃ re im,
        b.graph.evaluate feeds [v] = .ok [re] ∧ b.graph.evaluate feeds [w] = .ok [im] ∧
        im.elementType = re.elementType ∧ im.shape = re.shape := by
  have hwf := hg.wellFormed
  have hre : real.opType = Part.real.opType := hreal
  have him : imag.opType = Part.imag.opType := himag
  refine ⟨fun v w re im hv hw hfloat helement hshape => ?_, fun z p hz hlast => ?_,
    fun v w p hv hw heval => ?_⟩
  · have hlt := Graph.lt_size_of_evaluate_eq_ok hv v List.mem_cons_self
    have hlt' := Graph.lt_size_of_evaluate_eq_ok hw w List.mem_cons_self
    have htype : re.type = im.type := by rw [Tensor.type, Tensor.type, helement, hshape]
    obtain ⟨p, hp, rfl, rfl⟩ := exists_complex? hfloat htype
    rw [← (outcome?_eq_some hwf hlt).mpr hv, ← (outcome?_eq_some hwf hlt').mpr hw] at hp
    exact ⟨⟨p, (evaluates_complex_iff hwf hcomplex hlt hlt').mpr hp⟩,
      (evaluates_part_iff hwf hcomplex hre hlt hlt').mpr (congrArg (plane? 0) hp),
      (evaluates_part_iff hwf hcomplex him hlt hlt').mpr (congrArg (plane? 1) hp)⟩
  · have hpairs : ArePairs (some p) := fun q hq => Option.some.inj hq ▸ hlast
    have hrun := Runs.repack (A := False) (denotes_of_evaluate hwf hz) hpairs id
    exact (hrun.evaluates_iff hwf).mpr rfl
  · have hp := (evaluates_complex_iff hwf hcomplex hv hw).mp heval
    obtain ⟨re, im, hre, him, htype⟩ := exists_of_complex? hp
    have hre := (outcome?_eq_some hwf hv).mp hre
    have him := (outcome?_eq_some hwf hw).mp him
    obtain ⟨e, hread, he⟩ := (denotes_of_evaluate hwf hre).exists_elementType
    obtain ⟨e', hread', he'⟩ := (denotes_of_evaluate hwf him).exists_elementType
    have helement := Op.elementType_of_type htype
    refine ⟨?_, re, im, hre, him, helement, Op.shape_of_type htype⟩
    rw [hread, hread', ← he re rfl, ← he' im rfl, helement]

/-- Two vectors and a number, of which nothing is known but the types. -/
def threeFloats : Builder where
  graph := Graph.build {} [
    .parameter "re" .f32 .unranked,
    .parameter "im" .f32 (.ranked [none]),
    .parameter "x" .f32 .unranked]
  node := "z"
  opType := "Complex"

/-- The vectors `2, 1` and `3, 4`, and the number `5`. -/
def oneToFive : Feeds :=
  [("re", ⟨.f32, [2], #[⟨0x40000000⟩, ⟨0x3f800000⟩], rfl⟩),
    ("im", ⟨.f32, [2], #[⟨0x40400000⟩, ⟨0x40800000⟩], rfl⟩),
    ("x", ⟨.f32, [], #[⟨0x40a00000⟩], rfl⟩)]

/-- The vectors are the parts of `2 + 3i, 1 + 4i`; a vector and a number are the parts of nothing. -/
theorem threeFloats_roundTrip : Graph.Reachable threeFloats.graph ∧
    Evaluates oneToFive (translate ⟨"z", "Complex", [], []⟩ [.plain 0, .plain 1] >>=
      translate ⟨"im", "Imag", [], []⟩) threeFloats
      ⟨.f32, [2], #[⟨0x40400000⟩, ⟨0x40800000⟩], rfl⟩ ∧
    ∀ p, ¬Evaluates oneToFive (translate ⟨"z", "Complex", [], []⟩ [.plain 0, .plain 2])
      threeFloats p := by
  have hg : Graph.Reachable threeFloats.graph := Graph.reachable_build {} _
  have hre : threeFloats.graph.evaluate oneToFive [0] =
      .ok [⟨.f32, [2], #[⟨0x40000000⟩, ⟨0x3f800000⟩], rfl⟩] := by decide +kernel
  have him : threeFloats.graph.evaluate oneToFive [1] =
      .ok [⟨.f32, [2], #[⟨0x40400000⟩, ⟨0x40800000⟩], rfl⟩] := by decide +kernel
  have hx : threeFloats.graph.evaluate oneToFive [2] =
      .ok [⟨.f32, [], #[⟨0x40a00000⟩], rfl⟩] := by decide +kernel
  have hcomplex : (⟨"z", "Complex", [], []⟩ : Source.Node).opType = "Complex" := rfl
  have hreal : (⟨"re", "Real", [], []⟩ : Source.Node).opType = "Real" := rfl
  have himag : (⟨"im", "Imag", [], []⟩ : Source.Node).opType = "Imag" := rfl
  obtain ⟨hparts, -, hsame⟩ := packing_roundTrips oneToFive hg hcomplex hreal himag
  refine ⟨hg, (hparts 0 1 _ _ hre him rfl rfl rfl).2.2, fun p hp => ?_⟩
  obtain ⟨-, re, im, hre', hx', -, hshape⟩ := hsame 0 2 p (by decide) (by decide) hp
  obtain rfl := List.head_eq_of_cons_eq (Except.ok.inj (hre.symm.trans hre'))
  obtain rfl := List.head_eq_of_cons_eq (Except.ok.inj (hx.symm.trans hx'))
  cases hshape

end TensorLowering.Lowering
