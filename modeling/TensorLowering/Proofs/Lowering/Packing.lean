import TensorLowering.Proofs.Lowering.Checks
import TensorLowering.Proofs.Lowering.Emitting
import TensorLowering.Proofs.Lowering.Invariant
import TensorLowering.Proofs.Op.LastAxis
import TensorLowering.Proofs.Source.Reference

/-!
# Packed tensors hold pairs

The last axis of a packed tensor has the real and the imaginary part, so its size is 2. `Packed`
says so of the operand of every complex mark in a graph. What packs tensors brings the axis along:
planes are put side by side (`pack`), padding and scattering of packed tensors leave it as it is,
and a complex literal has it in its data. Each rule keeps the invariant (`packing`).
-/

namespace TensorLowering.Lowering

open Dataflow (ValueId Graph Feeds)

section Yields

variable (feeds : Feeds) {g g' : Graph} {id : ValueId} {P : Tensor → Prop}

/-- Whatever the value comes to under the feeds has the property. -/
structure Yields (g : Graph) (id : ValueId) (P : Tensor → Prop) : Prop where
  lt_size : id < g.nodes.size
  of_meaning : ∀ v, g.meaning feeds id = .ok v → P v

variable {feeds}

theorem Yields.mono (h : Yields feeds g id P) (hg : g.WellFormed) (hg' : g'.WellFormed)
    (he : g.Extends g') : Yields feeds g' id P where
  lt_size := Nat.lt_of_lt_of_le h.lt_size he.size_le
  of_meaning v hv := h.of_meaning v (he.meaning hg hg' feeds h.lt_size ▸ hv)

/-- The shape of a packed tensor. -/
def EndsInPair (v : Tensor) : Prop :=
  v.shape.getLast? = some 2

/-- The integers in a tensor, if it has any, end in the given one. -/
def EndsIn (last : Int) (v : Tensor) : Prop :=
  ∀ values, v.ints = .ok values → values.getLast? = some last

end Yields

/-- The operand of every complex mark is a packed tensor. -/
structure Packed (feeds : Feeds) (g : Graph) : Prop where
  wellFormed : g.WellFormed
  marked : ∀ {id partType inputs}, g.Has id (.complexMark partType) inputs →
    Yields feeds g id EndsInPair

/-- A complex value is a packed tensor behind a mark. -/
def Lowered.IsPacked (feeds : Feeds) (g : Graph) : Lowered → Prop
  | plain _ => True
  | complex value => g.Has value.marker (.complexMark value.partType) [value.packed] ∧
      Yields feeds g value.packed EndsInPair

variable {feeds : Feeds} {g g' : Graph} {b : Builder}

theorem Lowered.IsPacked.mono {lowered : Lowered} (h : lowered.IsPacked feeds g)
    (hg : g.WellFormed) (hg' : g'.WellFormed) (he : g.Extends g') : lowered.IsPacked feeds g' := by
  cases lowered with
  | plain value => trivial
  | complex value => exact ⟨h.1.mono he, h.2.mono hg hg' he⟩

theorem Packed.alike (h : Packed feeds g) (ha : g.Alike g') : Packed feeds g' :=
  have hg' := h.wellFormed.of_alike ha
  ⟨hg', fun hmark => (h.marked (hmark.mono ha.back)).mono h.wellFormed hg' ha.forth⟩

/-- The packing of complex tensors as an invariant of lowering. -/
def packing (feeds : Feeds) : Invariant where
  holds := Packed feeds
  good := fun g lowered => lowered.IsPacked feeds g
  alike := Packed.alike
  mono := fun h h' he hl => hl.mono h.wellFormed h'.wellFormed he

/-! ## Single operations -/

/-- A mark means what its operand means. -/
theorem yields_marker {id packed : ValueId} {partType : ElementType} {P : Tensor → Prop}
    (h : g.Has id (.complexMark partType) [packed]) (hg : g.WellFormed)
    (hp : Yields feeds g packed P) : Yields feeds g id P where
  lt_size := h.lt_size
  of_meaning v hv := by
    obtain ⟨vs, hvs, hcompute⟩ := h.exists_compute_eq_ok hg trivial hv
    obtain _ | ⟨hw, _ | _⟩ := hvs
    obtain rfl := Except.ok.inj hcompute
    exact hp.of_meaning _ hw

theorem absorbsUnmarked_packed : AbsorbsUnmarked (Packed feeds) := fun op hop g name inputs id g'
    hI hadd =>
  ⟨hI.wellFormed.add hadd, fun h => by
    rcases Graph.Has.of_add hadd h with h | ⟨-, h, -⟩
    · exact (hI.marked h).mono hI.wellFormed (hI.wellFormed.add hadd) (.add hadd)
    · exact absurd h.symm (hop _)⟩

variable {α : Type} {Q : Graph → α → Prop} {program : Build α}

/-- Programs that emit no marks keep packed tensors packed. -/
theorem Keeps.packed (h : Emits False b program Q) (hI : Packed feeds b.graph) :
    Keeps (Packed feeds) b program Q :=
  .of_emits absorbsUnmarked_packed h hI

open Build (emit)

/-- What is emitted is the result of the operation. -/
theorem emit_result {op : Op} {inputs : List ValueId} (hI : Packed feeds b.graph)
    (hop : ∀ partType, op ≠ .complexMark partType) :
    Keeps (Packed feeds) b (emit op inputs) fun g id => g.Has id op inputs :=
  .emit hI fun _ _ _ hadd =>
    ⟨absorbsUnmarked_packed op hop _ _ _ _ _ hI hadd, Graph.has_of_add hadd⟩

theorem constant_result {value : Tensor} (hI : Packed feeds b.graph) :
    Keeps (Packed feeds) b (Build.constant value) fun g id => g.Has id (.constant value) [] :=
  emit_result hI nofun

theorem ints_result {values : List Int} (hI : Packed feeds b.graph) :
    Keeps (Packed feeds) b (Build.ints values) fun g id =>
      g.Has id (.constant (.ofInts values)) [] :=
  constant_result hI

/-- A packed tensor may be marked. -/
theorem Packed.addMark {name : String} {packed id : ValueId} {partType : ElementType}
    (hg : Packed feeds g) (hp : Yields feeds g packed EndsInPair)
    (hadd : g.add name (.complexMark partType) [packed] = .ok (id, g')) : Packed feeds g' := by
  have hg' := hg.wellFormed.add hadd
  refine ⟨hg', fun h => ?_⟩
  rcases Graph.Has.of_add hadd h with h | ⟨rfl, -, -⟩
  · exact (hg.marked h).mono hg.wellFormed hg' (.add hadd)
  · exact yields_marker (Graph.has_of_add hadd) hg' (hp.mono hg.wellFormed hg' (.add hadd))

theorem markComplex_isPacked {packed : ValueId} {partType : ElementType}
    (hI : Packed feeds b.graph) (hp : Yields feeds b.graph packed EndsInPair) :
    Keeps (Packed feeds) b (markComplex packed partType) fun g lowered =>
      lowered.IsPacked feeds g := by
  have hmark : Keeps (Packed feeds) b (emit (.complexMark partType) [packed]) fun g id =>
      g.Has id (.complexMark partType) [packed] :=
    .emit hI fun _ _ _ hadd => ⟨hI.addMark hp hadd, Graph.has_of_add hadd⟩
  exact hmark.bind fun marker c hgrows hI' hhas =>
    .pure hI' ⟨hhas, hp.mono hI.wellFormed hI'.wellFormed hgrows⟩

/-- Planes side by side on a new last axis are pairs. -/
theorem yields_pack {real imag realUp imagUp id : ValueId} (hg : g.WellFormed)
    (hr : g.Has realUp (.unsqueeze [-1]) [real]) (hi : g.Has imagUp (.unsqueeze [-1]) [imag])
    (h : g.Has id (.concat (-1)) [realUp, imagUp]) : Yields feeds g id EndsInPair where
  lt_size := h.lt_size
  of_meaning v hv := by
    have hlast : ∀ {plane up : ValueId} {x : Tensor}, g.Has up (.unsqueeze [-1]) [plane] →
        g.meaning feeds up = .ok x → x.shape.getLast? = some 1 := by
      intro plane up x hup hx
      obtain ⟨vs, hvs, hcompute⟩ := hup.exists_compute_eq_ok hg trivial hx
      obtain _ | ⟨-, _ | _⟩ := hvs
      rw [Tensor.shape_unsqueeze hcompute, List.getLast?_concat]
    obtain ⟨vs, hvs, hcompute⟩ := h.exists_compute_eq_ok hg trivial hv
    obtain _ | ⟨hx, _ | ⟨hy, _ | _⟩⟩ := hvs
    exact Tensor.getLast?_concat hcompute (hlast hr hx) (hlast hi hy)

theorem pack_endsInPair (planes : Planes) (hI : Packed feeds b.graph) :
    Keeps (Packed feeds) b planes.pack fun g id => Yields feeds g id EndsInPair := by
  unfold Planes.pack
  refine .bind (emit_result hI nofun) fun real _ _ hI₁ hr => ?_
  refine .bind (emit_result hI₁ nofun) fun imag _ hg₂ hI₂ hi => ?_
  refine .imp (emit_result hI₂ nofun) fun g packed hg₃ hI₃ hp => ?_
  exact yields_pack hI₃.wellFormed (hr.mono (hg₂.trans hg₃)) (hi.mono hg₃) hp

theorem toComplex_isPacked (planes : Planes) (partType : ElementType) (hI : Packed feeds b.graph) :
    Keeps (Packed feeds) b (planes.toComplex partType) fun g lowered => lowered.IsPacked feeds g :=
  (pack_endsInPair planes hI).bind fun _ _ _ hI' hp => markComplex_isPacked hI' hp

/-! ## Plane by plane -/

theorem planewise_isPacked {node : ResolvedNode} {inputs : List Lowered}
    {operation : List ValueId → Build ValueId}
    (hop : ∀ values b, Packed feeds b.graph →
      Keeps (Packed feeds) b (operation values) fun _ _ => True)
    (hI : Packed feeds b.graph) :
    Keeps (Packed feeds) b (planewise node inputs operation) fun g lowered =>
      lowered.IsPacked feeds g := by
  refine .liftM_bind hI fun marking _ => ?_
  cases marking with
  | plain values => exact (hop values b hI).bind fun _ _ _ hI' _ => .pure hI' trivial
  | complex partType values =>
    have hplanes : Keeps (Packed feeds) b (values.mapM ComplexValue.planes) fun _ _ => True :=
      .packed ((Emits.mapM fun value _ => (Emits.planes value).imp fun _ _ _ _ => trivial).imp
        fun _ _ _ _ => trivial) hI
    refine hplanes.bind fun planes _ _ hI₁ _ => ?_
    refine (hop _ _ hI₁).bind fun real _ _ hI₂ _ => ?_
    refine (hop _ _ hI₂).bind fun imag _ _ hI₃ _ => ?_
    exact toComplex_isPacked _ _ hI₃

theorem complexProduct_isPacked {data : ComplexValue} {axes : ValueId} {keepDims : Bool}
    (hI : Packed feeds b.graph) :
    Keeps (Packed feeds) b (complexProduct data axes keepDims) fun g lowered =>
      lowered.IsPacked feeds g := by
  refine .bind (.packed (.planes data) hI) fun planes _ _ hI₁ _ => ?_
  refine .query_bind hI₁ fun listed _ => .query_bind hI₁ fun shape _ => ?_
  cases knownAxes? listed shape with
  | some known =>
    exact .bind (.packed (.productByHalving planes known keepDims) hI₁)
      fun product _ _ hI₂ _ => toComplex_isPacked product _ hI₂
  | none =>
    exact .bind (.packed (.productByAngles planes axes keepDims) hI₁)
      fun product _ _ hI₂ _ => toComplex_isPacked product _ hI₂

/-! ## Padding and scattering in packed form -/

/-- A vector with one more integer at the end. -/
theorem yields_endsIn {front lastValue id : ValueId} {last : Int} (hg : g.WellFormed)
    (hints : (Tensor.ofInts [last]).ints = .ok [last])
    (hl : g.Has lastValue (.constant (.ofInts [last])) [])
    (h : g.Has id (.concat 0) [front, lastValue]) : Yields feeds g id (EndsIn last) where
  lt_size := h.lt_size
  of_meaning v hv values hvalues := by
    obtain ⟨vs, hvs, hcompute⟩ := h.exists_compute_eq_ok hg trivial hv
    obtain _ | ⟨-, _ | ⟨hy, _ | _⟩⟩ := hvs
    obtain rfl := hl.meaning_constant hg hy
    obtain ⟨xs, ys, -, hys, rfl⟩ := Tensor.ints_concat hcompute hvalues
    obtain rfl := Except.ok.inj (hints.symm.trans hys)
    exact List.getLast?_concat

theorem padCounts_endsIn {paddings : ValueId} (hI : Packed feeds b.graph) :
    Keeps (Packed feeds) b (padCounts paddings true) fun g bounds =>
      Yields feeds g bounds.before (EndsIn 0) ∧ Yields feeds g bounds.after (EndsIn 0) := by
  unfold padCounts
  refine .bind (emit_result hI nofun) fun table _ _ hI₁ _ => ?_
  refine .bind (.packed (.int 0) hI₁) fun beforeColumn _ _ hI₂ _ => ?_
  refine .bind (.packed (.int 1) hI₂) fun afterColumn _ _ hI₃ _ => ?_
  refine .bind (emit_result hI₃ nofun) fun before _ _ hI₄ _ => ?_
  refine .bind (emit_result hI₄ nofun) fun after _ _ hI₅ _ => ?_
  refine .bind (ints_result hI₅) fun untouched _ _ hI₆ hu => ?_
  refine .bind (emit_result hI₆ nofun) fun before _ hg₇ hI₇ hb => ?_
  refine .bind (emit_result hI₇ nofun) fun after _ hg₈ hI₈ ha => ?_
  have hu := hu.mono (hg₇.trans hg₈)
  exact .pure hI₈ ⟨yields_endsIn hI₈.wellFormed rfl hu (hb.mono hg₈),
    yields_endsIn hI₈.wellFormed rfl hu ha⟩

/-- Padding that leaves the last axis as it is. -/
theorem yields_pad {mode : PadMode} {data before after fill id : ValueId} (hg : g.WellFormed)
    (hd : Yields feeds g data EndsInPair) (hb : Yields feeds g before (EndsIn 0))
    (ha : Yields feeds g after (EndsIn 0)) (h : g.Has id (.pad mode) [data, before, after, fill]) :
    Yields feeds g id EndsInPair where
  lt_size := h.lt_size
  of_meaning v hv := by
    obtain ⟨vs, hvs, hcompute⟩ := h.exists_compute_eq_ok hg trivial hv
    obtain _ | ⟨hx, _ | ⟨hy, _ | ⟨hz, _ | ⟨-, _ | _⟩⟩⟩⟩ := hvs
    obtain ⟨_, _, _, hys, hzs, -⟩ := Tensor.type_pad hcompute
    exact Tensor.getLast?_pad hcompute hys hzs (hd.of_meaning _ hx) (by decide)
      (hb.of_meaning _ hy _ hys) (ha.of_meaning _ hz _ hzs)

/-- Zeros in a shape that ends in 2, with some slices replaced. -/
theorem yields_scatter {fill target zeros indices updates id : ValueId} (hg : g.WellFormed)
    (ht : Yields feeds g target (EndsIn 2)) (hz : g.Has zeros .broadcast [fill, target])
    (h : g.Has id .scatterNdUpdate [zeros, indices, updates]) : Yields feeds g id EndsInPair where
  lt_size := h.lt_size
  of_meaning v hv := by
    obtain ⟨vs, hvs, hcompute⟩ := h.exists_compute_eq_ok hg trivial hv
    obtain _ | ⟨hx, _ | ⟨-, _ | ⟨-, _ | _⟩⟩⟩ := hvs
    obtain ⟨ws, hws, hbroadcast⟩ := hz.exists_compute_eq_ok hg trivial hx
    obtain _ | ⟨-, _ | ⟨hy, _ | _⟩⟩ := hws
    obtain ⟨values, _, _, hvalues, -⟩ := Tensor.type_broadcast hbroadcast
    have hshape := PartialShape.fixed.inj (congrArg TensorType.shape (Tensor.type_scatter hcompute))
    rw [EndsInPair, hshape]
    exact Tensor.getLast?_broadcast hbroadcast hvalues (ht.of_meaning _ hy _ hvalues) (by decide)

/-! ## Rules -/

theorem Keeps.single {program : Build Lowered}
    (h : Keeps (Packed feeds) b program fun g lowered => lowered.IsPacked feeds g) :
    Keeps (Packed feeds) b (do return [← program]) fun g outputs =>
      ∀ output ∈ outputs, output.IsPacked feeds g :=
  h.bind fun _ _ _ hI hp => .pure hI (List.forall_mem_singleton.mpr hp)

/-- A plain value has nothing to be packed. -/
theorem Keeps.plain_single {program : Build ValueId} {Q : Graph → ValueId → Prop}
    (h : Emits False b program Q) (hI : Packed feeds b.graph) :
    Keeps (Packed feeds) b (do return [Lowered.plain (← program)]) fun g outputs =>
      ∀ output ∈ outputs, output.IsPacked feeds g :=
  (packed h hI).bind fun _ _ _ hI' _ => .pure hI' (List.forall_mem_singleton.mpr trivial)

namespace Rule

theorem packing_keptBy_addN : (packing feeds).KeptBy addN := fun node _ hI _ => by
  refine .liftM_bind hI fun _ _ => (planewise_isPacked (fun values b hI => ?_) hI).single
  cases values with
  | nil => exact .throw hI
  | cons first others =>
    have hne : first :: others ≠ [] := List.cons_ne_nil first others
    exact (Keeps.packed (.sumOf node hne) hI).imp fun _ _ _ _ _ => trivial

theorem packing_keptBy_perPlane (name : String) (opTypes : List String) {op : Op}
    (hop : op.IsEmitted False) : (packing feeds).KeptBy (perPlane name opTypes op) :=
  fun _ _ hI _ =>
    .liftM_bind hI fun _ _ => .liftM_bind hI fun _ _ => .liftM_bind hI fun _ _ =>
      .single (planewise_isPacked (fun _ _ hI =>
        (Keeps.packed (.emit hop) hI).imp fun _ _ _ _ _ => trivial) hI)

theorem packing_keptBy_mul : (packing feeds).KeptBy mul := fun node b hI _ => by
  refine .liftM_bind hI fun _ _ => .liftM_bind hI fun x _ => .liftM_bind hI fun y _ => ?_
  refine .liftM_bind hI fun marking _ => ?_
  cases marking with
  | plain x y => exact .plain_single (.emit trivial) hI
  | complex partType x y =>
    refine .bind (.packed (.planes x) hI) fun lhs _ _ hI₁ _ => ?_
    refine .bind (.packed (.planes y) hI₁) fun rhs _ _ hI₂ _ => ?_
    refine .bind (.packed (.mul lhs rhs) hI₂) fun product _ _ hI₃ _ => ?_
    exact (toComplex_isPacked product partType hI₃).single

theorem packing_keptBy_complex : (packing feeds).KeptBy complex := fun node b hI _ => by
  refine .liftM_bind hI fun _ _ => .liftM_bind hI fun real _ => .liftM_bind hI fun imag _ => ?_
  refine .query_bind hI fun partType _ => ?_
  split
  · exact (toComplex_isPacked _ partType hI).single
  · exact .throw hI

theorem packing_keptBy_real : (packing feeds).KeptBy real := fun node b hI _ => by
  refine .liftM_bind hI fun _ _ => .liftM_bind hI fun x _ => ?_
  cases x with
  | complex value =>
    exact .bind (.packed (.planes value) hI) fun _ _ _ hI' _ =>
      .pure hI' (List.forall_mem_singleton.mpr trivial)
  | plain value => exact .pure hI (List.forall_mem_singleton.mpr trivial)

theorem packing_keptBy_imag : (packing feeds).KeptBy imag := fun node b hI _ => by
  refine .liftM_bind hI fun _ _ => .liftM_bind hI fun x _ => ?_
  cases x with
  | complex value =>
    exact .bind (.packed (.planes value) hI) fun _ _ _ hI' _ =>
      .pure hI' (List.forall_mem_singleton.mpr trivial)
  | plain value =>
    refine .bind (.packed (.zeroLike value) hI) fun fill _ _ hI₁ _ => ?_
    refine .bind (.packed (.shapeOf value) hI₁) fun shape _ _ hI₂ _ => ?_
    exact .plain_single (.emit trivial) hI₂

theorem packing_keptBy_complexAbs : (packing feeds).KeptBy complexAbs := fun node b hI _ => by
  refine .liftM_bind hI fun _ _ => .liftM_bind hI fun x _ => ?_
  cases x with
  | complex value =>
    refine .bind (.packed (.planes value) hI) fun planes _ _ hI' _ => ?_
    exact .plain_single (.magnitude planes) hI'
  | plain value => exact .query_bind hI fun _ _ => .throw hI

theorem constantPad_isPacked {data : Lowered} {paddings fill : ValueId} (hI : Packed feeds b.graph)
    (hd : data.IsPacked feeds b.graph) :
    Keeps (Packed feeds) b (constantPad data paddings fill) fun g lowered =>
      lowered.IsPacked feeds g := by
  cases data with
  | plain value =>
    refine .bind (.packed (.padCounts paddings false) hI) fun _ _ _ hI₁ _ => ?_
    refine .bind (emit_result hI₁ nofun) fun padded _ _ hI₂ _ => ?_
    exact .pure hI₂ trivial
  | complex value =>
    refine (padCounts_endsIn hI).bind fun bounds _ hg₁ hI₁ hb => ?_
    refine .bind (emit_result hI₁ nofun) fun padded _ hg₂ hI₂ hp => ?_
    have hdata := hd.2.mono hI.wellFormed hI₂.wellFormed (hg₁.trans hg₂)
    have hbefore := hb.1.mono hI₁.wellFormed hI₂.wellFormed hg₂
    have hafter := hb.2.mono hI₁.wellFormed hI₂.wellFormed hg₂
    exact markComplex_isPacked hI₂ (yields_pad hI₂.wellFormed hdata hbefore hafter hp)

theorem packing_keptBy_pad : (packing feeds).KeptBy pad := fun node b hI hin => by
  refine .liftM_bind hI fun _ _ => .liftM_bind hI fun data hdata => .liftM_bind hI fun _ _ => ?_
  refine .bind (.packed (.zeroLike data.elements) hI) fun fill _ hg hI' _ => ?_
  have hd := (hin data (node.mem_of_input hdata)).mono hI.wellFormed hI'.wellFormed hg
  exact (constantPad_isPacked hI' hd).single

theorem packing_keptBy_padV2 : (packing feeds).KeptBy padV2 := fun node _ hI hin =>
  .liftM_bind hI fun _ _ => .liftM_bind hI fun data hdata => .liftM_bind hI fun _ _ =>
    .liftM_bind hI fun _ _ => (constantPad_isPacked hI (hin data (node.mem_of_input hdata))).single

theorem packing_keptBy_mirrorPad : (packing feeds).KeptBy mirrorPad := fun node b hI _ => by
  refine .liftM_bind hI fun _ _ => .liftM_bind hI fun _ _ => .liftM_bind hI fun mode _ => ?_
  refine .liftM_bind hI fun _ _ => .liftM_bind hI fun _ _ => ?_
  refine .bind (.packed (.padCounts _ false) hI) fun _ _ _ hI' _ => ?_
  exact .plain_single (.emit trivial) hI'

theorem packing_keptBy_reduction (name : String) (kind : ReduceKind) :
    (packing feeds).KeptBy (reduction name kind) := fun node b hI _ => by
  refine .liftM_bind hI fun _ _ => .liftM_bind hI fun keepDims _ => .liftM_bind hI fun axes _ => ?_
  refine .liftM_bind hI fun data _ => ?_
  cases data with
  | plain data => exact .plain_single (.emit trivial) hI
  | complex data => exact (complexProduct_isPacked hI).single

theorem storedShape_endsIn {value : ComplexValue} {shape : ValueId} (hI : Packed feeds b.graph) :
    Keeps (Packed feeds) b (storedShape (.complex value) shape) fun g id =>
      Yields feeds g id (EndsIn 2) :=
  .bind (ints_result hI) fun _ _ _ hI' hpair =>
    .imp (emit_result hI' nofun) fun _ _ hg hI'' htarget =>
      yields_endsIn hI''.wellFormed rfl (hpair.mono hg) htarget

theorem packing_keptBy_scatterNd : (packing feeds).KeptBy scatterNd := fun node b hI _ => by
  refine .liftM_bind hI fun _ _ => .liftM_bind hI fun indices _ => .liftM_bind hI fun shape _ => ?_
  refine .liftM_bind hI fun updates _ => ?_
  refine .bind (.packed (.zeroLike _) hI) fun fill _ _ hI₁ _ => ?_
  refine .bind (emit_result hI₁ nofun) fun shape _ _ hI₂ _ => ?_
  cases updates with
  | plain value =>
    refine .bind (.packed (.storedShape _ _) hI₂) fun target _ _ hI₃ _ => ?_
    refine .bind (emit_result hI₃ nofun) fun zeros _ _ hI₄ _ => ?_
    exact .plain_single (.emit trivial) hI₄
  | complex value =>
    refine (storedShape_endsIn hI₂).bind fun target _ hg₃ hI₃ htarget => ?_
    refine .bind (emit_result hI₃ nofun) fun zeros _ hg₄ hI₄ hzeros => ?_
    refine .bind (emit_result hI₄ nofun) fun scattered _ hg₅ hI₅ hscattered => ?_
    have hends := htarget.mono hI₃.wellFormed hI₅.wellFormed (hg₄.trans hg₅)
    exact (markComplex_isPacked hI₅
      (yields_scatter hI₅.wellFormed hends (hzeros.mono hg₅) hscattered)).single

theorem packing_keptBy_selection (name : String) {prepare : ValueId → ValueId → Build ValueId}
    (hprepare : ∀ condition x b, Emits False b (prepare condition x) fun _ _ => True) :
    (packing feeds).KeptBy (selection name prepare) := fun _ b hI _ => by
  refine .liftM_bind hI fun _ _ => .liftM_bind hI fun condition _ => .liftM_bind hI fun x _ => ?_
  refine .liftM_bind hI fun y _ => .liftM_bind hI fun marking _ => ?_
  cases marking with
  | plain x y =>
    refine .bind (.packed (hprepare condition x b) hI) fun condition _ _ hI' _ => ?_
    exact .plain_single (.emit trivial) hI'
  | complex partType x y =>
    refine .bind (.packed (.planes x) hI) fun x _ _ hI₁ _ => ?_
    refine .bind (.packed (.planes y) hI₁) fun y _ _ hI₂ _ => ?_
    refine .bind (.packed (hprepare condition x.real _) hI₂) fun condition _ _ hI₃ _ => ?_
    refine .bind (emit_result hI₃ nofun) fun real _ _ hI₄ _ => ?_
    refine .bind (emit_result hI₄ nofun) fun imag _ _ hI₅ _ => ?_
    exact (toComplex_isPacked _ partType hI₅).single

/-- A complex literal has an additional last axis for the parts. -/
theorem endsInPair_ofLiteral {literal : Source.Literal} {v : Tensor}
    (h : Tensor.ofLiteral literal = .ok v) (hc : literal.dtype.isComplex = true) : EndsInPair v := by
  unfold Tensor.ofLiteral at h
  split at h
  · cases h
  · have hshape := PartialShape.fixed.inj (congrArg TensorType.shape (Tensor.type_ofData h))
    rw [EndsInPair, hshape, Tensor.literalShape, if_pos hc, List.getLast?_concat]

theorem packing_keptBy_const : (packing feeds).KeptBy const := fun node _ hI _ => by
  refine .liftM_bind hI fun _ _ => .liftM_bind hI fun literal _ => ?_
  cases hvalue : Tensor.ofLiteral literal with
  | error cause => exact .throw hI
  | ok value =>
    refine (constant_result hI).bind fun id _ _ hI' hid => ?_
    split
    · rename_i hc
      refine (markComplex_isPacked hI' ⟨hid.lt_size, fun v hv => ?_⟩).single
      obtain rfl := hid.meaning_constant hI'.wellFormed hv
      exact endsInPair_ofLiteral hvalue hc
    · exact .pure hI' (List.forall_mem_singleton.mpr trivial)

theorem packing_keptBy_identity : (packing feeds).KeptBy identity := fun node _ hI hin =>
  .liftM_bind hI fun _ _ => .liftM_bind hI fun x hx =>
    .pure hI (List.forall_mem_singleton.mpr (hin x (node.mem_of_input hx)))

end Rule

end TensorLowering.Lowering
