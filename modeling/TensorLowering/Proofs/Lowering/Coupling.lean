import Mathlib.Data.Set.Insert
import TensorLowering.Lowering.Registry
import TensorLowering.Proofs.Lowering.Keeps

/-!
# Coupled runs

Two runs of one program, on two graphs in which its operands are different values, go alike if the
graphs are related in a way that adding operations keeps up (`Coupling`). `Follows` says that where
the first run succeeds the second one does, with related results. What is known on the way is a set
of pairs of related values, which only grows; so the rules follow the ways in which programs are
put together, and pairs that were related stay so.
-/

namespace TensorLowering.Lowering

open Dataflow (ValueId Graph)
open Build (emit query)

/-- Pairs of a value in the first graph and a value in the second. -/
abbrev Pairs := Set (ValueId × ValueId)

/-- The values are related one by one. -/
abbrev AllPaired (V : Pairs) : List ValueId → List ValueId → Prop :=
  List.Forall₂ fun id id' => (id, id') ∈ V

/-- A relation of two builders, and one of the values in their graphs, which emitting an operation
on related values keeps up. Values stay related when the graphs are extended. -/
structure Coupling where
  states : Builder → Builder → Prop
  values : Graph → Graph → Pairs
  mono : ∀ {g g' h h'}, g.Extends h → g'.Extends h' → values g g' ⊆ values h h'
  elementType : ∀ {b b' id id' e}, states b b' → (id, id') ∈ values b.graph b'.graph →
    b.graph.elementType id = .ok e → b'.graph.elementType id' = .ok e
  emit : ∀ {b b' op inputs inputs' id c}, states b b' →
    AllPaired (values b.graph b'.graph) inputs inputs' →
    (emit op inputs).exec b = (.ok id, c) → ∃ id' c', (emit op inputs').exec b' = (.ok id', c') ∧
      states c c' ∧ (id, id') ∈ values c.graph c'.graph

/-- The shapes and the known contents of related values are the same. -/
structure Coupling.Exact (C : Coupling) : Prop where
  shape : ∀ {b b' id id' s}, C.states b b' → (id, id') ∈ C.values b.graph b'.graph →
    b.graph.shape id = .ok s → b'.graph.shape id' = .ok s
  contents : ∀ {b b' id id'}, C.states b b' → (id, id') ∈ C.values b.graph b'.graph →
    b.graph.contents? id = b'.graph.contents? id'

variable {α β α' β' : Type} {C : Coupling} {V : Pairs}

/-- From related states in which the pairs of `V` are related, where the first program succeeds the
second one does. The graphs are extended, the states are related again, and so are the pairs by
which the results match. -/
def Follows (C : Coupling) (V : Pairs) (program : Build α) (program' : Build α')
    (R : Pairs → α → α' → Prop) : Prop :=
  ∀ b b', C.states b b' → V ⊆ C.values b.graph b'.graph → ∀ a c, program.exec b = (.ok a, c) →
    ∃ a' c' W, program'.exec b' = (.ok a', c') ∧ C.states c c' ∧
      b.graph.Extends c.graph ∧ b'.graph.Extends c'.graph ∧ W ⊆ C.values c.graph c'.graph ∧ R W a a'

/-- An operation that is emitted extends the graph. -/
theorem extends_of_emit {b c : Builder} {op : Op} {inputs : List ValueId} {id : ValueId}
    (h : (emit op inputs).exec b = (.ok id, c)) : b.graph.Extends c.graph := by
  rw [Build.exec_emit] at h
  split at h
  · rename_i hadd
    obtain ⟨-, rfl⟩ := Prod.mk.inj h
    exact .add hadd
  · cases h

namespace Follows

variable {R : Pairs → α → α' → Prop} {S : Pairs → β → β' → Prop}

theorem pure {a : α} {a' : α'} (h : R V a a') : Follows C V (pure a) (pure a') R := by
  intro b b' hs hV a₁ c he
  obtain ⟨ha, rfl⟩ := Prod.mk.inj he
  obtain rfl := Except.ok.inj ha
  exact ⟨a', b', V, rfl, hs, .refl _, .refl _, hV, h⟩

theorem throw {e : Error} {program' : Build α'} : Follows C V (throw e) program' R := by
  intro b b' _ _ a c he
  cases he

theorem emit {op : Op} {inputs inputs' : List ValueId} (h : AllPaired V inputs inputs') :
    Follows C V (emit op inputs) (emit op inputs') fun W id id' => (id, id') ∈ W := by
  intro b b' hs hV id c he
  obtain ⟨id', c', he', hs', hid⟩ := C.emit hs (h.imp fun _ _ hp => hV hp) he
  exact ⟨id', c', _, he', hs', extends_of_emit he, extends_of_emit he', subset_rfl, hid⟩

/-- Two programs in a row. -/
theorem bind {program : Build α} {program' : Build α'} {next : α → Build β} {next' : α' → Build β'}
    (h : Follows C V program program' R)
    (hnext : ∀ W a a', R W a a' → Follows C (V ∪ W) (next a) (next' a') S) :
    Follows C V (program >>= next) (program' >>= next') S := by
  intro b b' hs hV r c he
  rw [Build.exec_bind] at he
  split at he
  · rename_i a d hd
    obtain ⟨a', d', W, hd', hs', hg, hg', hW, hR⟩ := h b b' hs hV a d hd
    obtain ⟨r', c', X, he', hs'', hh, hh', hX, hS⟩ := hnext W a a' hR d d' hs'
      (Set.union_subset (hV.trans (C.mono hg hg')) hW) r c he
    refine ⟨r', c', X, ?_, hs'', hg.trans hh, hg'.trans hh', hX, hS⟩
    rw [Build.exec_bind, hd']
    exact he'
  · cases he

/-- Checks that are read off the same facts. -/
theorem liftM_bind {x : Except Error α} {x' : Except Error α'} {next : α → Build β}
    {next' : α' → Build β'}
    (h : ∀ a, x = .ok a → ∃ a', x' = .ok a' ∧ Follows C V (next a) (next' a') S) :
    Follows C V ((MonadLiftT.monadLift x : Build α) >>= next)
      ((MonadLiftT.monadLift x' : Build α') >>= next') S := by
  intro b b' hs hV r c he
  rw [Build.exec_bind, Build.exec_liftM] at he
  cases hx : x with
  | error e => rw [hx] at he; cases he
  | ok a =>
    rw [hx] at he
    obtain ⟨a', hx', hnext⟩ := h a hx
    obtain ⟨r', c', W, he', hrest⟩ := hnext b b' hs hV r c he
    refine ⟨r', c', W, ?_, hrest⟩
    rw [Build.exec_bind, Build.exec_liftM, hx']
    exact he'

/-- Reading both graphs, where the second one answers as the first one does. -/
theorem query_bind {read : Graph → Except TensorLowering.Error α}
    {read' : Graph → Except TensorLowering.Error α'} {next : α → Build β} {next' : α' → Build β'}
    (h : ∀ b b', C.states b b' → V ⊆ C.values b.graph b'.graph → ∀ a, read b.graph = .ok a →
      ∃ a', read' b'.graph = .ok a' ∧ Follows C V (next a) (next' a') S) :
    Follows C V (query read >>= next) (query read' >>= next') S := by
  intro b b' hs hV r c he
  rw [Build.exec_bind, Build.exec_query] at he
  cases hx : read b.graph with
  | error e => rw [hx] at he; cases he
  | ok a =>
    rw [hx] at he
    obtain ⟨a', hx', hnext⟩ := h b b' hs hV a hx
    obtain ⟨r', c', W, he', hrest⟩ := hnext b b' hs hV r c he
    refine ⟨r', c', W, ?_, hrest⟩
    rw [Build.exec_bind, Build.exec_query, hx']
    exact he'

theorem elementType_bind {id id' : ValueId} {next : ElementType → Build β}
    {next' : ElementType → Build β'} (hid : (id, id') ∈ V)
    (h : ∀ e, Follows C V (next e) (next' e) S) :
    Follows C V (query (·.elementType id) >>= next) (query (·.elementType id') >>= next') S :=
  query_bind fun _ _ hs hV e he => ⟨e, C.elementType hs (hV hid) he, h e⟩

/-- A loop that collects results, along lists that match one by one. -/
theorem mapM {P : α → α' → Prop} {T : Pairs → β → β' → Prop} {f : α → Build β} {f' : α' → Build β'}
    {xs : List α} {xs' : List α'} (hT : ∀ W W' y y', W ⊆ W' → T W y y' → T W' y y')
    (h : List.Forall₂ P xs xs') (hf : ∀ W x x', V ⊆ W → P x x' → Follows C W (f x) (f' x') T) :
    Follows C V (xs.mapM f) (xs'.mapM f') fun W => List.Forall₂ (T W) := by
  induction h generalizing V with
  | nil => exact .pure .nil
  | cons hx _ ih =>
    rw [List.mapM_cons, List.mapM_cons]
    refine .bind (hf V _ _ subset_rfl hx) fun W y y' hy => ?_
    have hsub : V ⊆ V ∪ W := Set.subset_union_left
    refine .bind (ih fun W' x x' hW => hf W' x x' (hsub.trans hW)) fun W' ys ys' hys => ?_
    exact .pure (.cons (hT _ _ _ _ (by grind) hy) (hys.imp fun _ _ => hT _ _ _ _ (by grind)))

/-- A loop with an accumulator. -/
theorem foldlM {P : α → α' → Prop} {T : Pairs → β → β' → Prop} {f : β → α → Build β}
    {f' : β' → α' → Build β'} {xs : List α} {xs' : List α'} {init : β} {init' : β'}
    (hT : ∀ W W' y y', W ⊆ W' → T W y y' → T W' y y') (h : List.Forall₂ P xs xs')
    (hf : ∀ W y y' x x', V ⊆ W → T W y y' → P x x' → Follows C W (f y x) (f' y' x') T)
    (hinit : T V init init') : Follows C V (xs.foldlM f init) (xs'.foldlM f' init') T := by
  induction h generalizing V init init' with
  | nil => exact .pure hinit
  | cons hx _ ih =>
    rw [List.foldlM_cons, List.foldlM_cons]
    refine .bind (hf V _ _ _ _ subset_rfl hinit hx) fun W y y' hy => ?_
    have hsub : V ⊆ V ∪ W := Set.subset_union_left
    exact ih (fun W' y y' x x' hW => hf W' y y' x x' (hsub.trans hW)) (hT _ _ _ _ (by grind) hy)

/-! ## Constants and shapes -/

theorem constant (value : Tensor) :
    Follows C V (Build.constant value) (Build.constant value) fun W id id' => (id, id') ∈ W :=
  .emit .nil

theorem ints (values : List Int) :
    Follows C V (Build.ints values) (Build.ints values) fun W id id' => (id, id') ∈ W :=
  .constant _

theorem int (value : Int) :
    Follows C V (Build.int value) (Build.int value) fun W id id' => (id, id') ∈ W :=
  .constant _

variable {id id' : ValueId}

theorem zeroLike (h : (id, id') ∈ V) :
    Follows C V (Build.zeroLike id) (Build.zeroLike id') fun W fill fill' => (fill, fill') ∈ W :=
  .elementType_bind h fun _ => .constant _

theorem shapeOf (h : (id, id') ∈ V) :
    Follows C V (Build.shapeOf id) (Build.shapeOf id') fun W shape shape' => (shape, shape') ∈ W :=
  .emit (by simpa using h)

theorem rankOf (h : (id, id') ∈ V) :
    Follows C V (Build.rankOf id) (Build.rankOf id') fun W rank rank' => (rank, rank') ∈ W :=
  .bind (.shapeOf h) fun _ _ _ hshape => .shapeOf (by simp [hshape])

end Follows

/-! ## Planes -/

/-- The planes are related. -/
def Planes.Matches (V : Pairs) (planes planes' : Planes) : Prop :=
  (planes.real, planes'.real) ∈ V ∧ (planes.imag, planes'.imag) ∈ V

/-- The marks and the packed tensors are related, and the parts have the same type. -/
structure ComplexValue.Matches (V : Pairs) (value value' : ComplexValue) : Prop where
  marker : (value.marker, value'.marker) ∈ V
  packed : (value.packed, value'.packed) ∈ V
  partType : value.partType = value'.partType

/-- Both values are plain, or both are complex with parts of one type, and they are related. -/
inductive Lowered.Matches (V : Pairs) : Lowered → Lowered → Prop where
  | plain {id id' : ValueId} : (id, id') ∈ V → Matches V (plain id) (plain id')
  | complex {value value' : ComplexValue} : value.Matches V value' →
      Matches V (complex value) (complex value')

variable {W : Pairs}

theorem Planes.Matches.mono {planes planes' : Planes} (hsub : V ⊆ W) (h : planes.Matches V planes') :
    planes.Matches W planes' :=
  ⟨hsub h.1, hsub h.2⟩

theorem ComplexValue.Matches.mono {value value' : ComplexValue} (hsub : V ⊆ W)
    (h : value.Matches V value') : value.Matches W value' :=
  ⟨hsub h.marker, hsub h.packed, h.partType⟩

theorem Lowered.Matches.mono {x x' : Lowered} (hsub : V ⊆ W) (h : x.Matches V x') :
    x.Matches W x' := by
  cases h with
  | plain h => exact .plain (hsub h)
  | complex h => exact .complex (h.mono hsub)

theorem Lowered.Matches.isComplex {x x' : Lowered} (h : x.Matches V x') :
    x'.isComplex = x.isComplex := by
  cases h <;> rfl

theorem Lowered.Matches.elements {x x' : Lowered} (h : x.Matches V x') :
    (x.elements, x'.elements) ∈ V := by
  cases h with
  | plain h => exact h
  | complex h => exact h.packed

theorem Lowered.Matches.value {x x' : Lowered} (h : x.Matches V x') : (x.value, x'.value) ∈ V := by
  cases h with
  | plain h => exact h
  | complex h => exact h.marker

namespace Follows

open Build (emit)

theorem planes {value value' : ComplexValue} (h : (value.packed, value'.packed) ∈ V) :
    Follows C V value.planes value'.planes Planes.Matches := by
  unfold ComplexValue.planes
  refine .bind (.int 0) fun _ _ _ hzero => .bind (.int 1) fun _ _ _ hone => ?_
  refine .bind (.emit (by simp [h, hzero])) fun _ _ _ hreal => ?_
  refine .bind (.emit (by simp [h, hone])) fun _ _ _ himag => ?_
  exact .pure (by simp [Planes.Matches, hreal, himag])

variable {planes planes' lhs lhs' rhs rhs' : Planes}

theorem markComplex {packed packed' : ValueId} {partType partType' : ElementType}
    (ht : partType = partType') (h : (packed, packed') ∈ V) :
    Follows C V (markComplex packed partType) (Lowering.markComplex packed' partType')
      Lowered.Matches := by
  subst ht
  unfold Lowering.markComplex
  refine .bind (.emit (by simp [h])) fun _ _ _ hmarker => ?_
  exact .pure (.complex ⟨by simp [hmarker], by simp [h], rfl⟩)

theorem toComplex (partType : ElementType) (h : planes.Matches V planes') :
    Follows C V (planes.toComplex partType) (planes'.toComplex partType) Lowered.Matches := by
  unfold Planes.toComplex Planes.pack
  simp only [bind_assoc]
  refine .bind (.emit (by simp [h.1])) fun _ _ _ hreal => ?_
  refine .bind (.emit (by simp [h.2])) fun _ _ _ himag => ?_
  refine .bind (.emit (by simp [hreal, himag])) fun _ _ _ hpacked => ?_
  exact .markComplex rfl (by simp [hpacked])

theorem mul (hl : lhs.Matches V lhs') (hr : rhs.Matches V rhs') :
    Follows C V (lhs.mul rhs) (lhs'.mul rhs') Planes.Matches := by
  unfold Planes.mul
  refine .bind (.emit (by simp [hl.1, hr.1])) fun _ _ _ hac => ?_
  refine .bind (.emit (by simp [hl.2, hr.2])) fun _ _ _ hbd => ?_
  refine .bind (.emit (by simp [hl.1, hr.2])) fun _ _ _ had => ?_
  refine .bind (.emit (by simp [hl.2, hr.1])) fun _ _ _ hbc => ?_
  refine .bind (.emit (by simp [hac, hbd])) fun _ _ _ hreal => ?_
  refine .bind (.emit (by simp [had, hbc])) fun _ _ _ himag => ?_
  exact .pure (by simp [Planes.Matches, hreal, himag])

theorem slice (axis start count : Nat) (h : planes.Matches V planes') :
    Follows C V (planes.slice axis start count) (planes'.slice axis start count)
      Planes.Matches := by
  unfold Planes.slice
  refine .query_bind fun _ _ _ _ indices hlisted => ⟨indices, hlisted, ?_⟩
  refine .bind (.ints _) fun _ _ _ hindices => ?_
  refine .bind (.emit (by simp [h.1, hindices])) fun _ _ _ hreal => ?_
  refine .bind (.emit (by simp [h.2, hindices])) fun _ _ _ himag => ?_
  exact .pure (by simp [Planes.Matches, hreal, himag])

/-- By induction on the number of slices that are left. -/
theorem multiplyAlong (axis size : Nat) (h : planes.Matches V planes') :
    Follows C V (multiplyAlong axis size planes) (Lowering.multiplyAlong axis size planes')
      Planes.Matches := by
  induction size using Nat.strongRecOn generalizing planes planes' V with
  | ind size ih =>
    rw [Lowering.multiplyAlong, Lowering.multiplyAlong]
    split
    · exact .pure h
    · rename_i hsize
      have hless : size / 2 + size % 2 < size := by omega
      refine .bind (.slice axis _ _ h) fun W₁ _ _ hlower => ?_
      refine .bind (.slice axis _ _ (h.mono (by grind))) fun W₂ _ _ hupper => ?_
      refine .bind (.mul (hlower.mono (by grind)) (hupper.mono (by grind))) fun W₃ _ _ hfolded => ?_
      split
      · refine .bind (.slice axis _ _ (h.mono (by grind))) fun W₄ _ _ hlast => ?_
        refine .bind (.emit (by simp [hfolded.1, hlast.1])) fun _ _ _ hreal => ?_
        refine .bind (.emit (by simp [hfolded.2, hlast.2])) fun _ _ _ himag => ?_
        exact ih _ hless (by simp [Planes.Matches, hreal, himag])
      · exact ih _ hless (hfolded.mono (by grind))

end Follows

end TensorLowering.Lowering
