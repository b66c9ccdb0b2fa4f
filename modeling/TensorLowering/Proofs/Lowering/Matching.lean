import TensorLowering.Proofs.Lowering.Checks
import TensorLowering.Proofs.Lowering.Coupling
import TensorLowering.Proofs.Lowering.Invariant

/-!
# Rules on matching nodes

Two resolved nodes match if they have the same op type and attributes and their inputs are related.
The checks of the rules then come out alike, and so every rule goes alike on both (`Rule.Couples`).
Only the product of complex tensors looks at shapes and at known contents, so for it these have to
agree.
-/

namespace TensorLowering.Lowering

open Dataflow (ValueId)
open Build (emit)

variable {C : Coupling} {V : Pairs}

/-- The nodes say the same, of related inputs. -/
structure ResolvedNode.Matches (V : Pairs) (node node' : ResolvedNode) : Prop where
  opType : node.opType = node'.opType
  attributes : node.source.attributes = node'.source.attributes
  inputs : List.Forall₂ (Lowered.Matches V) node.inputs node'.inputs

/-- Where the inputs are plain they are related one by one, and so they are where they are
complex. -/
inductive Marking.Matches (V : Pairs) : Marking → Marking → Prop where
  | plain {values values' : List ValueId} : AllPaired V values values' →
      Matches V (plain values) (plain values')
  | complex (partType : ElementType) {values values' : List ComplexValue} :
      List.Forall₂ (ComplexValue.Matches V) values values' →
      Matches V (complex partType values) (complex partType values')

inductive PairMarking.Matches (V : Pairs) : PairMarking → PairMarking → Prop where
  | plain {x x' y y' : ValueId} : (x, x') ∈ V → (y, y') ∈ V → Matches V (plain x y) (plain x' y')
  | complex (partType : ElementType) {x x' y y' : ComplexValue} : x.Matches V x' → y.Matches V y' →
      Matches V (complex partType x y) (complex partType x' y')

namespace ResolvedNode.Matches

variable {node node' : ResolvedNode} (h : node.Matches V node')
include h

theorem input {index : Nat} {x : Lowered} (hx : node.input index = .ok x) :
    ∃ x', node'.input index = .ok x' ∧ x.Matches V x' := by
  unfold ResolvedNode.input at hx ⊢
  cases hi : node.inputs[index]? with
  | none => rw [hi] at hx; cases hx
  | some y =>
    obtain ⟨y', hy', hm⟩ := getElem?_of_forall₂ h.inputs hi
    rw [hi] at hx
    obtain rfl := Except.ok.inj hx
    exact ⟨y', by rw [hy'], hm⟩

theorem plainInput {index : Nat} {fault : ComplexFault} {id : ValueId}
    (hx : node.plainInput index fault = .ok id) :
    ∃ id', node'.plainInput index fault = .ok id' ∧ (id, id') ∈ V := by
  obtain ⟨x, hi, hx⟩ := bind_eq_ok.mp hx
  obtain ⟨x', hi', hm⟩ := h.input hi
  unfold ResolvedNode.plainInput
  rw [hi', ok_bind]
  cases hm with
  | plain hm =>
    obtain rfl := Except.ok.inj hx
    exact ⟨_, rfl, hm⟩
  | complex => cases hx

theorem attr {α : Type} {reader : Source.Attribute.Reader α} {name : String} {a : α}
    (ha : node.attr reader name = .ok a) : node'.attr reader name = .ok a := by
  unfold ResolvedNode.attr Source.Node.findAttribute? at ha ⊢
  rw [← h.attributes]
  cases hf : node.source.attributes.lookup name with
  | none => rw [hf] at ha; cases ha
  | some value =>
    rw [hf] at ha
    dsimp only at ha ⊢
    split at ha
    · exact ha
    · cases ha

theorem attrD {α : Type} {reader : Source.Attribute.Reader α} {name : String} {default a : α}
    (ha : node.attrD reader name default = .ok a) : node'.attrD reader name default = .ok a := by
  unfold ResolvedNode.attrD at ha ⊢
  have hhas : node'.source.hasAttribute name = node.source.hasAttribute name := by
    simp only [Source.Node.hasAttribute, Source.Node.findAttribute?, h.attributes]
  rw [hhas]
  split
  · rename_i hc
    rw [if_pos hc] at ha
    exact h.attr ha
  · rename_i hc
    rwa [if_neg hc] at ha

theorem check {minInputs : Nat} {opTypes : List String} {allowComplex : Bool} {u : Unit}
    (hc : node.check minInputs opTypes allowComplex = .ok u) :
    node'.check minInputs opTypes allowComplex = .ok u := by
  obtain ⟨hop, hlen, hplain⟩ := ResolvedNode.check_eq_ok.mp hc
  refine ResolvedNode.check_eq_ok.mpr ⟨h.opType ▸ hop, h.inputs.length_eq ▸ hlen, ?_⟩
  refine hplain.imp_right fun hplain x' hx' => ?_
  obtain ⟨x, hx, hm⟩ := exists_of_forall₂_right h.inputs hx'
  exact hm.isComplex.trans (hplain x hx)

end ResolvedNode.Matches

theorem Lowered.Matches.filterMap_complex? {xs xs' : List Lowered}
    (h : List.Forall₂ (Lowered.Matches V) xs xs') :
    List.Forall₂ (ComplexValue.Matches V) (xs.filterMap Lowered.complex?)
      (xs'.filterMap Lowered.complex?) := by
  induction h with
  | nil => exact .nil
  | cons hx _ ih =>
    cases hx with
    | plain _ => exact ih
    | complex hx => exact .cons hx ih

/-- Inputs that match are marked alike. -/
theorem Lowered.Matches.commonMarking {node : ResolvedNode} (node' : ResolvedNode)
    {xs xs' : List Lowered}
    (h : List.Forall₂ (Lowered.Matches V) xs xs') {marking : Marking}
    (hm : node.commonMarking xs = .ok marking) :
    ∃ marking', node'.commonMarking xs' = .ok marking' ∧ marking.Matches V marking' := by
  have hcomplex := filterMap_complex? h
  unfold ResolvedNode.commonMarking at hm ⊢
  cases hf : xs.filterMap Lowered.complex? with
  | nil =>
    rw [hf] at hm hcomplex
    rw [List.forall₂_nil_left_iff.mp hcomplex]
    obtain rfl := Except.ok.inj hm
    refine ⟨_, rfl, .plain ?_⟩
    rw [AllPaired, List.forall₂_map_left_iff, List.forall₂_map_right_iff]
    exact h.imp fun _ _ hx => hx.value
  | cons first others =>
    rw [hf] at hm hcomplex
    obtain ⟨first', others', hfirst, hothers, hf'⟩ := List.forall₂_cons_left_iff.mp hcomplex
    rw [hf']
    dsimp only at hm ⊢
    rw [← hothers.length_eq, ← h.length_eq]
    split at hm
    · cases hm
    rename_i hlen
    rw [if_neg hlen]
    cases hfind : others.find? (·.partType != first.partType) with
    | some other => rw [hfind] at hm; cases hm
    | none =>
      rw [hfind] at hm
      obtain rfl := Except.ok.inj hm
      have hfind' : others'.find? (·.partType != first'.partType) = none := by
        refine List.find?_eq_none.mpr fun y' hy' => ?_
        obtain ⟨y, hy, hyy⟩ := exists_of_forall₂_right hothers hy'
        rw [← hyy.partType, ← hfirst.partType]
        exact List.find?_eq_none.mp hfind y hy
      rw [hfind', ← hfirst.partType]
      exact ⟨_, rfl, .complex _ (.cons hfirst hothers)⟩

theorem Lowered.Matches.pairMarking {node : ResolvedNode} (node' : ResolvedNode) {x x' y y' : Lowered}
    (hx : x.Matches V x') (hy : y.Matches V y') {marking : PairMarking}
    (hm : node.pairMarking x y = .ok marking) :
    ∃ marking', node'.pairMarking x' y' = .ok marking' ∧ marking.Matches V marking' := by
  cases hx with
  | plain hx =>
    cases hy with
    | plain hy =>
      obtain rfl := Except.ok.inj hm
      exact ⟨_, rfl, .plain hx hy⟩
    | complex hy => cases hm
  | complex hx =>
    cases hy with
    | plain hy => cases hm
    | complex hy =>
      unfold ResolvedNode.pairMarking at hm ⊢
      dsimp only at hm ⊢
      split at hm
      · rename_i hpart
        obtain rfl := Except.ok.inj hm
        rw [← hx.partType, ← hy.partType, if_pos hpart]
        exact ⟨_, rfl, .complex _ hx hy⟩
      · cases hm

/-! ## Building blocks -/

namespace Follows

variable {planes planes' : Planes}

theorem productByHalving (known : List KnownAxis) (keepDims : Bool)
    (h : planes.Matches V planes') :
    Follows C V (productByHalving planes known keepDims)
      (Lowering.productByHalving planes' known keepDims) Planes.Matches := by
  unfold Lowering.productByHalving
  have hloop : Follows C V (known.foldlM (fun planes k => Lowering.multiplyAlong k.axis k.size planes)
      planes) (known.foldlM (fun planes k => Lowering.multiplyAlong k.axis k.size planes) planes')
      Planes.Matches :=
    .foldlM (P := Eq) (fun _ _ _ _ => Planes.Matches.mono) (List.forall₂_refl known)
      (fun _ _ _ k _ _ hy hk => hk ▸ .multiplyAlong k.axis k.size hy) h
  refine .bind hloop fun W _ _ hproduct => ?_
  split
  · exact .pure (hproduct.mono (by grind))
  · refine .bind (.emit (by simp [hproduct.1])) fun _ _ _ hreal => ?_
    refine .bind (.emit (by simp [hproduct.2])) fun _ _ _ himag => ?_
    exact .pure (by simp [Planes.Matches, hreal, himag])

theorem productByAngles {axes axes' : ValueId} (keepDims : Bool) (h : planes.Matches V planes')
    (ha : (axes, axes') ∈ V) :
    Follows C V (productByAngles planes axes keepDims)
      (Lowering.productByAngles planes' axes' keepDims) Planes.Matches := by
  unfold Lowering.productByAngles
  refine .bind (.emit (by simp [h.1])) fun _ _ _ hreal2 => ?_
  refine .bind (.emit (by simp [h.2])) fun _ _ _ himag2 => ?_
  refine .bind (.emit (by simp [hreal2, himag2])) fun _ _ _ hnorm2 => ?_
  refine .bind (.emit (by simp [hnorm2])) fun _ _ _ hmagnitudes => ?_
  refine .bind (.emit (by simp [h.1, h.2])) fun _ _ _ hangles => ?_
  refine .bind (.emit (by simp [hmagnitudes, ha])) fun _ _ _ hmagnitude => ?_
  refine .bind (.emit (by simp [hangles, ha])) fun _ _ _ hangle => ?_
  refine .bind (.emit (by simp [hangle])) fun _ _ _ hcos => ?_
  refine .bind (.emit (by simp [hangle])) fun _ _ _ hsin => ?_
  refine .bind (.emit (by simp [hmagnitude, hcos])) fun _ _ _ hreal => ?_
  refine .bind (.emit (by simp [hmagnitude, hsin])) fun _ _ _ himag => ?_
  exact .pure (by simp [Planes.Matches, hreal, himag])

/-- Which way the product is taken depends on what is known of the axes and the shape. -/
theorem complexProduct (hC : C.Exact) {data data' : ComplexValue} {axes axes' : ValueId}
    (keepDims : Bool) (h : data.Matches V data') (ha : (axes, axes') ∈ V) :
    Follows C V (complexProduct data axes keepDims) (Lowering.complexProduct data' axes' keepDims)
      Lowered.Matches := by
  unfold Lowering.complexProduct
  refine .bind (.planes h.packed) fun W planes planes' hplanes => ?_
  refine .query_bind fun b b' hs hV listed hlisted => ⟨listed, ?_, ?_⟩
  · rw [← hlisted, hC.contents hs (hV (.inl ha))]
  refine .query_bind fun b b' hs hV shape hshape => ⟨shape, ?_, ?_⟩
  · exact hC.shape hs (hV (.inr hplanes.1)) hshape
  rw [← h.partType]
  cases knownAxes? listed shape with
  | some known =>
    refine .bind (.productByHalving known keepDims (hplanes.mono (by grind))) fun _ _ _ hp => ?_
    exact .toComplex _ (hp.mono (by grind))
  | none =>
    refine .bind (.productByAngles keepDims (hplanes.mono (by grind)) (.inl ha)) fun _ _ _ hp => ?_
    exact .toComplex _ (hp.mono (by grind))

theorem planewise {node node' : ResolvedNode} {inputs inputs' : List Lowered}
    {operation operation' : List ValueId → Build ValueId}
    (h : List.Forall₂ (Lowered.Matches V) inputs inputs')
    (hop : ∀ W values values', AllPaired W values values' →
      Follows C W (operation values) (operation' values') fun X id id' => (id, id') ∈ X) :
    Follows C V (planewise node inputs operation) (Lowering.planewise node' inputs' operation')
      Lowered.Matches := by
  unfold Lowering.planewise
  refine .liftM_bind fun marking hm => ?_
  obtain ⟨marking', hm', hmatch⟩ := Lowered.Matches.commonMarking node' h hm
  refine ⟨marking', hm', ?_⟩
  cases hmatch with
  | plain hvalues =>
    exact .bind (hop V _ _ hvalues) fun _ _ _ hid => .pure (.plain (by simp [hid]))
  | complex partType hvalues =>
    rename_i values values'
    have hplanes : Follows C V (values.mapM ComplexValue.planes) (values'.mapM ComplexValue.planes)
        fun W => List.Forall₂ (Planes.Matches W) :=
      .mapM (fun _ _ _ _ => Planes.Matches.mono) hvalues fun _ _ _ hsub hx => .planes (hsub hx.packed)
    refine .bind hplanes fun W _ _ hplanes => ?_
    refine .bind (hop _ _ _ ?_) fun W₁ _ _ hreal => ?_
    · rw [AllPaired, List.forall₂_map_left_iff, List.forall₂_map_right_iff]
      exact hplanes.imp fun _ _ hp => .inr hp.1
    refine .bind (hop _ _ _ ?_) fun W₂ _ _ himag => ?_
    · rw [AllPaired, List.forall₂_map_left_iff, List.forall₂_map_right_iff]
      exact hplanes.imp fun _ _ hp => .inl (.inr hp.2)
    exact .toComplex partType (by simp [Planes.Matches, hreal, himag])

/-- The counts are related. -/
theorem padCounts {paddings paddings' : ValueId} (isComplex : Bool) (h : (paddings, paddings') ∈ V) :
    Follows C V (padCounts paddings isComplex) (Lowering.padCounts paddings' isComplex)
      fun W bounds bounds' => (bounds.before, bounds'.before) ∈ W ∧
        (bounds.after, bounds'.after) ∈ W := by
  unfold Lowering.padCounts
  refine .bind (.emit (by simp [h])) fun _ _ _ htable => ?_
  refine .bind (.int 0) fun _ _ _ hzero => .bind (.int 1) fun _ _ _ hone => ?_
  refine .bind (.emit (by simp [htable, hzero])) fun _ _ _ hbefore => ?_
  refine .bind (.emit (by simp [htable, hone])) fun _ _ _ hafter => ?_
  split
  · refine .bind (.ints _) fun _ _ _ huntouched => ?_
    refine .bind (.emit (by simp [hbefore, huntouched])) fun _ _ _ hbefore => ?_
    refine .bind (.emit (by simp [hafter, huntouched])) fun _ _ _ hafter => ?_
    exact .pure (by simp [hbefore, hafter])
  · exact .pure (by simp [hbefore, hafter])

end Follows

/-! ## Rules -/

/-- On matching nodes, the rule goes alike. -/
def Rule.Couples (C : Coupling) (rule : Rule) : Prop :=
  ∀ (V : Pairs) (node node' : ResolvedNode), node.Matches V node' →
    Follows C V (rule.lower node) (rule.lower node') fun W => List.Forall₂ (Lowered.Matches W)

namespace Follows

theorem single {program program' : Build Lowered}
    (h : Follows C V program program' Lowered.Matches) :
    Follows C V (do return [← program]) (do return [← program'])
      fun W => List.Forall₂ (Lowered.Matches W) :=
  .bind h fun _ _ _ hm => .pure (.cons (hm.mono Set.subset_union_right) .nil)

theorem plain_single {program program' : Build ValueId}
    (h : Follows C V program program' fun W id id' => (id, id') ∈ W) :
    Follows C V (do return [Lowered.plain (← program)]) (do return [Lowered.plain (← program')])
      fun W => List.Forall₂ (Lowered.Matches W) :=
  .bind h fun _ _ _ hm => .pure (.cons (.plain (.inr hm)) .nil)

/-- The check that a rule begins with. -/
theorem check_bind {node node' : ResolvedNode} (h : node.Matches V node') {minInputs : Nat}
    {opTypes : List String} {allowComplex : Bool} {next next' : Unit → Build (List Lowered)}
    {R : Pairs → List Lowered → List Lowered → Prop} (hnext : Follows C V (next ()) (next' ()) R) :
    Follows C V
      ((MonadLiftT.monadLift (node.check minInputs opTypes allowComplex) : Build Unit) >>= next)
      ((MonadLiftT.monadLift (node'.check minInputs opTypes allowComplex) : Build Unit) >>= next')
      R :=
  .liftM_bind fun () hc => ⟨(), h.check hc, hnext⟩

theorem input_bind {node node' : ResolvedNode} (h : node.Matches V node') {index : Nat}
    {next next' : Lowered → Build (List Lowered)} {R : Pairs → List Lowered → List Lowered → Prop}
    (hnext : ∀ x x', x.Matches V x' → Follows C V (next x) (next' x') R) :
    Follows C V ((MonadLiftT.monadLift (node.input index) : Build Lowered) >>= next)
      ((MonadLiftT.monadLift (node'.input index) : Build Lowered) >>= next') R :=
  .liftM_bind fun x hx => have ⟨x', hx', hm⟩ := h.input hx; ⟨x', hx', hnext x x' hm⟩

theorem plainInput_bind {node node' : ResolvedNode} (h : node.Matches V node') {index : Nat}
    {fault : ComplexFault} {next next' : ValueId → Build (List Lowered)}
    {R : Pairs → List Lowered → List Lowered → Prop}
    (hnext : ∀ id id', (id, id') ∈ V → Follows C V (next id) (next' id') R) :
    Follows C V ((MonadLiftT.monadLift (node.plainInput index fault) : Build ValueId) >>= next)
      ((MonadLiftT.monadLift (node'.plainInput index fault) : Build ValueId) >>= next') R :=
  .liftM_bind fun id hid => have ⟨id', hid', hm⟩ := h.plainInput hid; ⟨id', hid', hnext id id' hm⟩

end Follows

namespace Rule

open Dataflow (ValueId)
open Build (emit)

theorem addN_couples : addN.Couples C := fun V node node' h => by
  refine .check_bind h (.single (.planewise h.inputs fun W values values' hvalues => ?_))
  cases hvalues with
  | nil => exact .throw
  | cons hfirst hothers =>
    exact .foldlM (T := fun W id id' => (id, id') ∈ W) (fun _ _ _ _ hsub hy => hsub hy) hothers
      (fun W y y' x x' hsub hy hx => .emit (by simp [hy, hsub hx])) hfirst

theorem perPlane_couples (name : String) (opTypes : List String) (op : Op) :
    (perPlane name opTypes op).Couples C := fun _ _ _ h =>
  .check_bind h (.input_bind h fun _ _ hx => .input_bind h fun _ _ hy =>
    .single (.planewise (.cons hx (.cons hy .nil)) fun _ _ _ hvalues => .emit hvalues))

theorem mul_couples : mul.Couples C := fun V node node' h => by
  refine .check_bind h (.input_bind h fun x x' hx => .input_bind h fun y y' hy => ?_)
  refine .liftM_bind fun marking hm => ?_
  obtain ⟨marking', hm', hmatch⟩ := hx.pairMarking node' hy hm
  refine ⟨marking', hm', ?_⟩
  cases hmatch with
  | plain hx hy => exact .plain_single (.emit (by simp [hx, hy]))
  | complex partType hx hy =>
    refine .bind (.planes hx.packed) fun W₁ _ _ hlhs => ?_
    refine .bind (.planes (.inl hy.packed)) fun W₂ _ _ hrhs => ?_
    refine .bind (.mul (hlhs.mono (by grind)) (hrhs.mono (by grind))) fun W₃ _ _ hproduct => ?_
    exact .single (.toComplex partType (hproduct.mono (by grind)))

theorem complex_couples : complex.Couples C := fun V node node' h => by
  refine .check_bind h (.input_bind h fun real real' hreal => .input_bind h fun _ _ himag => ?_)
  refine .elementType_bind hreal.value fun partType => ?_
  split
  · exact .single (.toComplex partType ⟨hreal.value, himag.value⟩)
  · exact .throw

theorem real_couples : real.Couples C := fun V node node' h => by
  refine .check_bind h (.input_bind h fun x x' hx => ?_)
  cases hx with
  | plain hx => exact .pure (.cons (.plain hx) .nil)
  | complex hx =>
    exact .bind (.planes hx.packed) fun _ _ _ hp => .pure (.cons (.plain (.inr hp.1)) .nil)

theorem imag_couples : imag.Couples C := fun V node node' h => by
  refine .check_bind h (.input_bind h fun x x' hx => ?_)
  cases hx with
  | plain hx =>
    refine .bind (.zeroLike hx) fun _ _ _ hfill => .bind (.shapeOf (.inl hx)) fun _ _ _ hshape => ?_
    exact .plain_single (.emit (by simp [hfill, hshape]))
  | complex hx =>
    exact .bind (.planes hx.packed) fun _ _ _ hp => .pure (.cons (.plain (.inr hp.2)) .nil)

theorem magnitude_follows {planes planes' : Planes} (h : planes.Matches V planes') :
    Follows C V (magnitude planes) (magnitude planes') fun W id id' => (id, id') ∈ W := by
  unfold magnitude
  refine .bind (.emit (by simp [h.1])) fun _ _ _ hreal2 => ?_
  refine .bind (.emit (by simp [h.2])) fun _ _ _ himag2 => ?_
  refine .bind (.emit (by simp [hreal2, himag2])) fun _ _ _ hsum => ?_
  exact .emit (by simp [hsum])

theorem complexAbs_couples : complexAbs.Couples C := fun V node node' h => by
  refine .check_bind h (.input_bind h fun x x' hx => ?_)
  cases hx with
  | plain hx => exact .elementType_bind hx fun _ => .throw
  | complex hx =>
    exact .bind (.planes hx.packed) fun _ _ _ hp =>
      .plain_single (magnitude_follows (hp.mono Set.subset_union_right))

theorem constantPad_follows {data data' : Lowered} {paddings paddings' fill fill' : ValueId}
    (hd : data.Matches V data') (hp : (paddings, paddings') ∈ V) (hf : (fill, fill') ∈ V) :
    Follows C V (constantPad data paddings fill) (constantPad data' paddings' fill')
      Lowered.Matches := by
  unfold constantPad
  rw [hd.isComplex]
  refine .bind (.padCounts _ hp) fun _ _ _ hbounds => ?_
  refine .bind (.emit (by simp [hd.elements, hbounds.1, hbounds.2, hf])) fun _ _ _ hpadded => ?_
  cases hd with
  | plain _ => exact .pure (.plain (.inr hpadded))
  | complex hd => exact .markComplex hd.partType (.inr hpadded)

theorem pad_couples : pad.Couples C := fun V node node' h => by
  refine .check_bind h (.input_bind h fun data data' hd => .plainInput_bind h fun _ _ hp => ?_)
  refine .bind (.zeroLike hd.elements) fun W _ _ hf => ?_
  exact .single (constantPad_follows (hd.mono Set.subset_union_left) (.inl hp) (.inr hf))

theorem padV2_couples : padV2.Couples C := fun _ _ _ h =>
  .check_bind h (.input_bind h fun _ _ hd => .plainInput_bind h fun _ _ hp =>
    .plainInput_bind h fun _ _ hf => .single (constantPad_follows hd hp hf))

theorem mirrorMode_eq_ok {node : ResolvedNode} (node' : ResolvedNode) {text : String}
    {mode : PadMode} (h : mirrorMode node text = .ok mode) : mirrorMode node' text = .ok mode := by
  unfold mirrorMode at h ⊢
  dsimp only at h ⊢
  split at h
  · rename_i hreflect
    rwa [if_pos hreflect]
  · rename_i hreflect
    rw [if_neg hreflect]
    split at h
    · rename_i hsymmetric
      rwa [if_pos hsymmetric]
    · cases h

theorem mirrorPad_couples : mirrorPad.Couples C := fun V node node' h => by
  refine .check_bind h (.liftM_bind fun text htext => ⟨text, h.attr htext, ?_⟩)
  refine .liftM_bind fun mode hmode => ⟨mode, mirrorMode_eq_ok node' hmode, ?_⟩
  refine .input_bind h fun data data' hd => .input_bind h fun paddings paddings' hp => ?_
  refine .bind (.padCounts false hp.value) fun _ _ _ hbounds => ?_
  exact .plain_single (.emit (by simp [hd.value, hbounds.1, hbounds.2]))

theorem reduction_couples (hC : C.Exact) (name : String) (kind : ReduceKind) :
    (reduction name kind).Couples C := fun V node node' h => by
  refine .check_bind h (.liftM_bind fun keepDims hk => ⟨keepDims, h.attrD hk, ?_⟩)
  refine .plainInput_bind h fun axes axes' ha => .input_bind h fun data data' hd => ?_
  cases hd with
  | plain hd => exact .plain_single (.emit (by simp [hd, ha]))
  | complex hd => exact .single (.complexProduct hC keepDims hd ha)

/-- A reduction of plain data goes alike whatever is known of the values. -/
theorem reduction_follows {node node' : ResolvedNode} (h : node.Matches V node') (name : String)
    {kind : ReduceKind} (hplain : kind = .prod → node.opType = name →
      ∀ x ∈ node.inputs[0]?, x.isComplex = false) :
    Follows C V ((reduction name kind).lower node) ((reduction name kind).lower node')
      fun W => List.Forall₂ (Lowered.Matches W) := by
  refine .liftM_bind fun () hc => ⟨(), h.check hc, ?_⟩
  obtain ⟨hop, -, hallowed⟩ := ResolvedNode.check_eq_ok.mp hc
  refine .liftM_bind fun keepDims hk => ⟨keepDims, h.attrD hk, ?_⟩
  refine .plainInput_bind h fun axes axes' ha => .liftM_bind fun data hdata => ?_
  obtain ⟨data', hdata', hd⟩ := h.input hdata
  refine ⟨data', hdata', ?_⟩
  have hdata := node.input_eq_ok.mp hdata
  have hreal : data.isComplex = false := by
    rcases hallowed with hprod | hnone
    · exact hplain (by simpa using hprod) (by simpa using hop) data hdata
    · exact hnone data (List.mem_of_getElem? hdata)
  cases hd with
  | plain hd => exact .plain_single (.emit (by simp [hd, ha]))
  | complex hd => cases hreal

theorem storedShape_follows {updates updates' : Lowered} {shape shape' : ValueId}
    (hu : updates.Matches V updates') (hs : (shape, shape') ∈ V) :
    Follows C V (storedShape updates shape) (storedShape updates' shape')
      fun W id id' => (id, id') ∈ W := by
  unfold storedShape
  rw [hu.isComplex]
  split
  · exact .bind (.ints [2]) fun _ _ _ hpair => .emit (by simp [hs, hpair])
  · exact .pure hs

theorem scatterNd_couples : scatterNd.Couples C := fun V node node' h => by
  refine .check_bind h (.plainInput_bind h fun indices indices' hi => ?_)
  refine .plainInput_bind h fun shape shape' hs => .input_bind h fun updates updates' hu => ?_
  refine .bind (.zeroLike hu.elements) fun _ _ _ hfill => ?_
  refine .bind (.emit (by simp [hs])) fun W _ _ hshape => ?_
  refine .bind (storedShape_follows (hu.mono (by grind)) (.inr hshape)) fun _ _ _ htarget => ?_
  refine .bind (.emit (by simp [hfill, htarget])) fun _ _ _ hzeros => ?_
  refine .bind (.emit (by simp [hzeros, hi, hu.elements])) fun _ _ _ hscattered => ?_
  cases hu with
  | plain hu => exact .pure (.cons (.plain (.inr hscattered)) .nil)
  | complex hu => exact .single (.markComplex hu.partType (.inr hscattered))

theorem extendCondition_follows {condition condition' x x' : ValueId}
    (hc : (condition, condition') ∈ V) (hx : (x, x') ∈ V) :
    Follows C V (extendCondition condition x) (extendCondition condition' x')
      fun W id id' => (id, id') ∈ W := by
  unfold extendCondition
  refine .bind (.shapeOf hc) fun _ _ _ hshape => ?_
  refine .bind (.shapeOf (.inr hshape)) fun _ _ _ hrank => ?_
  refine .bind (.rankOf (by simp [hx])) fun _ _ _ hxrank => ?_
  refine .bind (.emit (by simp [hxrank, hrank])) fun _ _ _ hmissing => ?_
  refine .bind (.int 1) fun _ _ _ hone => ?_
  refine .bind (.emit (by simp [hone, hmissing])) fun _ _ _ hones => ?_
  refine .bind (.emit (by simp [hshape, hones])) fun _ _ _ hextended => ?_
  exact .emit (by simp [hc, hextended])

theorem selection_couples (name : String) {prepare : ValueId → ValueId → Build ValueId}
    (hprepare : ∀ V condition condition' x x', (condition, condition') ∈ V → (x, x') ∈ V →
      Follows C V (prepare condition x) (prepare condition' x') fun W id id' => (id, id') ∈ W) :
    (selection name prepare).Couples C := fun V node node' h => by
  refine .check_bind h (.plainInput_bind h fun condition condition' hc => ?_)
  refine .input_bind h fun x x' hx => .input_bind h fun y y' hy => .liftM_bind fun marking hm => ?_
  obtain ⟨marking', hm', hmatch⟩ := hx.pairMarking node' hy hm
  refine ⟨marking', hm', ?_⟩
  cases hmatch with
  | plain hx hy =>
    refine .bind (hprepare _ _ _ _ _ hc hx) fun _ _ _ hc => ?_
    exact .plain_single (.emit (by simp [hc, hx, hy]))
  | complex partType hx hy =>
    refine .bind (.planes hx.packed) fun W₁ _ _ hx => ?_
    refine .bind (.planes (.inl hy.packed)) fun _ _ _ hy => ?_
    refine .bind (hprepare _ _ _ _ _ (by simp [hc]) (by simp [hx.1])) fun _ _ _ hc => ?_
    refine .bind (.emit (by simp [hc, hx.1, hy.1])) fun _ _ _ hreal => ?_
    refine .bind (.emit (by simp [hc, hx.2, hy.2])) fun _ _ _ himag => ?_
    exact .single (.toComplex partType (by simp [Planes.Matches, hreal, himag]))

theorem const_couples : const.Couples C := fun V node node' h => by
  refine .check_bind h (.liftM_bind fun literal hl => ⟨literal, h.attr hl, ?_⟩)
  cases Tensor.ofLiteral literal with
  | error cause => exact .throw
  | ok value =>
    refine .bind (.constant value) fun _ _ _ hid => ?_
    split
    · exact .single (.markComplex rfl (.inr hid))
    · exact .pure (.cons (.plain (.inr hid)) .nil)

theorem identity_couples : identity.Couples C := fun _ _ _ h =>
  .check_bind h (.input_bind h fun _ _ hx => .pure (.cons hx .nil))

end Rule

/-- What holds of rules that go alike on matching nodes, and of reductions, holds of all rules of the
library. -/
theorem standard_of_couples {P : Rule → Prop} (hrule : ∀ rule, Rule.Couples C rule → P rule)
    (hreduction : ∀ (name : String) (kind : ReduceKind), (kind = .prod → name = "Prod") →
      P (Rule.reduction name kind)) : Registry.standard.All P := by
  refine Registry.all_ofRules ⟨hrule _ Rule.addN_couples, hrule _ Rule.pad_couples,
    hrule _ Rule.padV2_couples, hrule _ Rule.mirrorPad_couples, hreduction _ _ nofun,
    hreduction _ _ nofun, hreduction _ _ nofun, hreduction _ _ nofun, hreduction _ _ fun _ => rfl,
    hreduction _ _ nofun, hreduction _ _ nofun, hreduction _ _ nofun, hrule _ Rule.scatterNd_couples,
    hrule _ ?_, hrule _ ?_, hrule _ (Rule.perPlane_couples _ _ _),
    hrule _ (Rule.perPlane_couples _ _ _), hrule _ Rule.mul_couples, hrule _ Rule.complex_couples,
    hrule _ Rule.real_couples, hrule _ Rule.imag_couples, hrule _ Rule.complexAbs_couples,
    hrule _ Rule.const_couples, hrule _ Rule.identity_couples⟩
  · exact Rule.selection_couples _ fun _ _ _ _ _ => Rule.extendCondition_follows
  · exact Rule.selection_couples _ fun _ _ _ _ _ hc _ => .pure hc

/-- All rules of the library go alike on matching nodes. -/
theorem couples_standard (hC : C.Exact) : Registry.standard.All (Rule.Couples C) :=
  standard_of_couples (C := C) (fun _ => id) fun name kind _ => Rule.reduction_couples hC name kind

/-- The node takes no product of complex data. -/
def ResolvedNode.PlainProduct (node : ResolvedNode) : Prop :=
  node.opType = "Prod" → ∀ x ∈ node.inputs[0]?, x.isComplex = false

/-- All rules of the library go alike on matching nodes that take no product of complex data, however
much is known of the values. -/
theorem follows_standard : Registry.standard.All fun rule => ∀ V node node',
    node.Matches V node' → node.PlainProduct →
      Follows C V (rule.lower node) (rule.lower node') fun W => List.Forall₂ (Lowered.Matches W) :=
  standard_of_couples (C := C) (fun _ h V node node' hm _ => h V node node' hm)
    fun name _ hname _ _ _ hm hplain =>
      Rule.reduction_follows hm name fun hk hop => hplain (hop.trans (hname hk))

end TensorLowering.Lowering
