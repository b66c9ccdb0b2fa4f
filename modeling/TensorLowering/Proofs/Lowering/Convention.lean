import TensorLowering.Proofs.Dataflow.Denotation
import TensorLowering.Proofs.Lowering.Answers
import TensorLowering.Proofs.Lowering.Packing

/-!
# The convention for complex tensors

In a lowered graph, what evaluates behind a complex mark has a last axis of size 2
(`marked_endsInPair`). The rules of the registry keep this up by themselves. For inputs, the recorded
shape of the packed parameter says it, so a feed that breaks the convention is not accepted; but an
input of unknown rank has no recorded shape, and its feed is taken as it is (`openInput_unpaired`).
-/

namespace TensorLowering.Lowering

open Dataflow (ValueId Graph Feeds Folding)

variable {feeds : Feeds}

/-- Every rule of the library keeps complex tensors packed. -/
theorem packing_keptBy_standard : Registry.standard.All (packing feeds).KeptBy := by
  have hreduction := @Rule.packing_keptBy_reduction feeds
  refine Registry.all_ofRules ⟨Rule.packing_keptBy_addN, Rule.packing_keptBy_pad,
    Rule.packing_keptBy_padV2, Rule.packing_keptBy_mirrorPad, hreduction _ _, hreduction _ _,
    hreduction _ _, hreduction _ _, hreduction _ _, hreduction _ _, hreduction _ _, hreduction _ _,
    Rule.packing_keptBy_scatterNd, Rule.packing_keptBy_selection _ ?_,
    Rule.packing_keptBy_selection _ fun _ _ _ => .pure trivial,
    Rule.packing_keptBy_perPlane _ _ trivial, Rule.packing_keptBy_perPlane _ _ trivial,
    Rule.packing_keptBy_mul, Rule.packing_keptBy_complex, Rule.packing_keptBy_real,
    Rule.packing_keptBy_imag, Rule.packing_keptBy_complexAbs, Rule.packing_keptBy_const,
    Rule.packing_keptBy_identity⟩
  exact fun condition x _ => (Emits.extendCondition condition x).imp fun _ _ _ _ => trivial

/-! ## Inputs -/

/-- What is fed for the complex inputs of unknown rank is packed. -/
def FeedsPairs (source : Source.Graph) (feeds : Feeds) : Prop :=
  ∀ input ∈ source.inputs, input.dtype.isComplex = true → input.shape.toPartial.dims? = none →
    ∀ v, feeds.lookup input.name = some v → EndsInPair v

/-- A shape that is known to end in 2 does. -/
theorem endsInPair_of_refines {v : Tensor} {e : ElementType} {dims : List (Option Nat)}
    (h : v.type.Refines ⟨e, .ofDims? (some (dims ++ [some 2]))⟩) : EndsInPair v := by
  have hd := h.shape.dims
  rw [PartialShape.dims?_ofDims?, Shape.finerShape_some] at hd
  obtain ⟨sizes, hs, hfiner⟩ := hd
  obtain rfl := Option.some.inj hs
  have hlast := hfiner.getElem? (i := dims.length) (n := 2) (by simp)
  have hlen := hfiner.length_eq
  simp only [List.length_map, List.length_append, List.length_singleton] at hlen
  rw [EndsInPair, List.getLast?_eq_getElem?, hlen, Nat.add_sub_cancel]
  simpa using hlast

theorem Packed.addParameter {g g' : Graph} {name : String} {e : ElementType} {shape : PartialShape}
    {id : ValueId} (hg : Packed feeds g) (h : g.addParameter name e shape = .ok (id, g')) :
    Packed feeds g' := by
  obtain ⟨after, hadd, halike⟩ := Graph.exists_of_addParameter h
  have hafter := absorbsUnmarked_packed (.parameter name e shape) nofun _ _ _ _ _ hg hadd
  exact hafter.alike halike

/-- The packed parameter of a complex input holds pairs: its recorded shape says so, or else what is
fed for it does. -/
theorem yields_pairs {g : Graph} (hg : Packed feeds g) {input : Source.Input} {e : ElementType}
    {packed : ValueId} (hhas : g.Has packed (.parameter input.name e
      (.ofDims? (input.shape.toPartial.dims?.map (· ++ [some 2])))) [])
    (hf : input.shape.toPartial.dims? = none →
      ∀ v, feeds.lookup input.name = some v → EndsInPair v) :
    Yields feeds g packed EndsInPair := by
  refine ⟨hhas.lt_size, fun v hv => ?_⟩
  obtain ⟨hlookup, hrefines⟩ := hhas.meaning_parameter hg.wellFormed hv
  cases hdims : input.shape.toPartial.dims? with
  | none => exact hf hdims v hlookup
  | some dims =>
    rw [hdims] at hrefines
    exact endsInPair_of_refines hrefines

theorem packing_addInput {source : Source.Graph} (hf : FeedsPairs source feeds)
    {input : Source.Input} (hi : input ∈ source.inputs) {g g' : Graph} {lowered : Lowered}
    (hg : Packed feeds g) (h : addInput g input = .ok (lowered, g')) :
    Packed feeds g' ∧ g.Extends g' ∧ lowered.IsPacked feeds g' := by
  cases addInput_eq_ok.mp h with
  | real _ _ hparameter => exact ⟨hg.addParameter hparameter, .addParameter hparameter, trivial⟩
  | complex hpart _ hparameter hmark =>
    have hg₁ := hg.addParameter hparameter
    have hpairs := yields_pairs hg₁ (Graph.has_of_addParameter hparameter)
      (hf input hi (by simp [Source.DataType.isComplex, hpart]))
    have hg₂ := hg₁.addMark hpairs hmark
    exact ⟨hg₂, (Graph.Extends.addParameter hparameter).trans (.add hmark),
      Graph.has_of_add hmark, hpairs.mono hg₁.wellFormed hg₂.wellFormed (.add hmark)⟩

theorem packed_empty (fold : Folding) : Packed feeds { fold := fold } :=
  ⟨fun _ _ h => by simp at h, fun h => by simpa using h.lt_size⟩

/-! ## Lowered graphs -/

variable {options : Options} {source : Source.Graph} {model : Model}

/-- If what is fed for complex inputs of unknown rank is packed, every value behind a complex mark
evaluates to a packed tensor, and so do the mark and the elements of every complex output. -/
theorem marked_endsInPair (h : lowerGraph .standard options source = .ok model)
    (hf : FeedsPairs source feeds) {ids : List ValueId} {vs : List Tensor}
    (hv : model.graph.evaluate feeds ids = .ok vs) {id : ValueId} {v : Tensor}
    (hm : (id, v) ∈ ids.zip vs)
    (hid : (∃ partType inputs, model.graph.Has id (.complexMark partType) inputs) ∨
      ∃ reference value, (reference, .complex value) ∈ model.outputs ∧
        (id = value.marker ∨ id = value.packed)) : EndsInPair v := by
  have hpacked := (packing feeds).of_lowerGraph packing_keptBy_standard
    (fun _ hi _ _ _ => packing_addInput hf hi) (packed_empty options.fold) h
  have hmeaning : model.graph.meaning feeds id = .ok v :=
    List.forall₂_iff_zip.mp (Graph.meaning_of_evaluate hpacked.graph.wellFormed hv) |>.2 hm
  rcases hid with ⟨partType, inputs, hhas⟩ | ⟨reference, value, hout, rfl | rfl⟩
  · exact (hpacked.graph.marked hhas).of_meaning v hmeaning
  · exact (hpacked.graph.marked (hpacked.scope _ hout).1).of_meaning v hmeaning
  · exact (hpacked.scope _ hout).2.of_meaning v hmeaning

/-- A complex input of unknown rank that is an output. -/
def openInput : Source.Graph where
  inputs := [⟨"z", .complex64, .unknown⟩]
  nodes := []
  outputs := ["z"]

/-- What it is lowered to. -/
def openModel : Model where
  graph := {
    nodes := #[⟨"z", .parameter "z" .f32 .unranked, [], ⟨.f32, .unranked⟩, none⟩,
      ⟨"z/complex", .complexMark .f32, [0], ⟨.f32, .unranked⟩, none⟩]
    consumers := #[[1], []]
    parameters := [0]
    outputs := [1] }
  outputs := [("z", .complex ⟨1, 0, .f32⟩)]
  failures := []

/-- A vector of so many zeros. -/
def zeros (length : Nat) : Tensor :=
  ⟨.f32, [length], .replicate length ⟨0⟩, by simp [Shape.volume]⟩

/-- A feed of three elements is accepted, and the mark stands before a tensor that is not packed. -/
theorem openInput_unpaired :
    lowerGraph .standard {} openInput = .ok openModel ∧
    openModel.graph.Has 1 (.complexMark .f32) [0] ∧
    openModel.graph.evaluate [("z", zeros 3)] [1] = .ok [zeros 3] ∧ ¬EndsInPair (zeros 3) :=
  ⟨by decide +kernel, ⟨_, rfl, rfl, rfl⟩, by decide +kernel, by simp [EndsInPair, zeros]⟩

/-- A feed of two elements is packed. -/
theorem openInput_endsInPair :
    FeedsPairs openInput [("z", zeros 2)] ∧
    openModel.graph.evaluate [("z", zeros 2)] [1] = .ok [zeros 2] ∧ EndsInPair (zeros 2) := by
  have hf : FeedsPairs openInput [("z", zeros 2)] := fun input hi _ _ v hv => by
    obtain rfl := List.mem_singleton.mp hi
    obtain rfl : zeros 2 = v := by simpa using hv
    rfl
  have hv : openModel.graph.evaluate [("z", zeros 2)] [1] = .ok [zeros 2] := by decide +kernel
  have hmodel : lowerGraph .standard {} openInput = .ok openModel := by decide +kernel
  have hhas : openModel.graph.Has 1 (.complexMark .f32) [0] := ⟨_, rfl, rfl, rfl⟩
  have hm : (1, zeros 2) ∈ [1].zip [zeros 2] := List.mem_singleton_self _
  exact ⟨hf, hv, marked_endsInPair hmodel hf hv hm (.inl ⟨.f32, [0], hhas⟩)⟩

end TensorLowering.Lowering
