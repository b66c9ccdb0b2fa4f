import TensorLowering.Proofs.Op.Refinement
import TensorLowering.Proofs.Shape.Rules

/-!
# Shapes of results

The shape of a result, as a function of what is known about the operands, for the operations that
have a rule of their own: broadcasting, joining, gathering, reducing, reshaping and padding. Each of
these functions is monotone: on coarser operands it gives a coarser shape.
-/

namespace TensorLowering

open Shape

namespace Op

/-! ## Broadcasting -/

/-- One step of `broadcastAll`. -/
def joinDims (dims : Option (List (Option Nat))) (operand : Operand) :
    Except Error (Option (List (Option Nat))) :=
  match dims, operand.shape.dims? with
  | some left, some right => do return some (← Shape.broadcastPartial left right)
  | _, _ => .ok none

theorem broadcastAll_eq (operands : List Operand) :
    broadcastAll operands = PartialShape.ofDims? <$> operands.foldlM joinDims (some []) := rfl

theorem joinDims_mono {left left' joined : Option (List (Option Nat))} {x x' : Operand}
    (hl : FinerShape left left') (hx : x.Narrows x') (hok : joinDims left x = .ok joined) :
    ∃ joined', joinDims left' x' = .ok joined' ∧ FinerShape joined joined' := by
  unfold joinDims at hok ⊢
  rcases hl.cases with rfl | ⟨l, l', rfl, rfl, hll⟩
  · exact ⟨none, rfl, finerShape_none _⟩
  rcases hx.dims.cases with hn | ⟨r, r', hr, hr', hrr⟩
  · rw [hn]
    exact ⟨none, rfl, finerShape_none _⟩
  · rw [hr] at hok
    rw [hr']
    simp only [bind_pure_comp, map_eq_ok] at hok ⊢
    obtain ⟨d, hd, rfl⟩ := hok
    obtain ⟨d', hd', hdd⟩ := broadcastPartial_mono hll hrr hd
    exact ⟨_, ⟨d', hd', rfl⟩, finerShape_some.mpr ⟨d, rfl, hdd⟩⟩

theorem broadcastAll_mono {fines coarses : List Operand}
    (h : List.Forall₂ Operand.Narrows fines coarses) {shape : PartialShape}
    (hok : broadcastAll fines = .ok shape) :
    ∃ shape', broadcastAll coarses = .ok shape' ∧ shape.Refines shape' := by
  rw [broadcastAll_eq] at hok ⊢
  obtain ⟨dims, hd, rfl⟩ := map_eq_ok.mp hok
  obtain ⟨dims', hd', hf⟩ := foldlM_mono h (fun _ _ _ _ _ => joinDims_mono) (FinerShape.refl _) hd
  exact ⟨_, map_eq_ok.mpr ⟨dims', hd', rfl⟩, .ofDims? hf⟩

/-! ## Joining -/

/-- What fits two sizes says what each of them says. -/
theorem finer_concatOtherDim {axis : Nat} {x y dim : Option Nat}
    (h : concatOtherDim axis x y = .ok dim) : Finer dim x ∧ Finer dim y := by
  cases x with
  | none => exact ⟨finer_none _, by rw [← Except.ok.inj h]; exact Finer.refl _⟩
  | some a =>
    cases y with
    | none => exact ⟨by rw [← Except.ok.inj h]; exact Finer.refl _, finer_none _⟩
    | some b =>
      dsimp only [concatOtherDim] at h
      split at h
      · rename_i hab
        rw [← Except.ok.inj h, hab]
        exact ⟨Finer.refl _, Finer.refl _⟩
      · cases h

theorem concatOtherDim_mono {axis : Nat} {x y x' y' dim : Option Nat} (hx : Finer x x')
    (hy : Finer y y') (h : concatOtherDim axis x y = .ok dim) :
    ∃ dim', concatOtherDim axis x' y' = .ok dim' ∧ Finer dim dim' := by
  obtain ⟨hdx, hdy⟩ := finer_concatOtherDim h
  cases x' with
  | none => exact ⟨y', rfl, hdy.trans hy⟩
  | some a =>
    cases y' with
    | none => exact ⟨some a, rfl, hdx.trans hx⟩
    | some b =>
      rw [finer_some.mp hx, finer_some.mp hy] at h
      exact ⟨dim, h, Finer.refl dim⟩

theorem concatDim_mono {x y x' y' : Option Nat} (hx : Finer x x') (hy : Finer y y') :
    Finer (concatDim x y) (concatDim x' y') := by
  cases x' with
  | none => exact finer_none _
  | some a =>
    cases y' with
    | none => exact finer_none _
    | some b => rw [finer_some.mp hx, finer_some.mp hy]; exact Finer.refl _

/-- The ranks agree, and on the axes of which `P` holds the size is known wherever the coarse one
is. -/
def FinerOn (P : Nat → Prop) (fine coarse : List (Option Nat)) : Prop :=
  fine.length = coarse.length ∧
    ∀ i x y, P i → fine[i]? = some x → coarse[i]? = some y → Finer x y

theorem finerOn_of_finerDims {P : Nat → Prop} {fine coarse : List (Option Nat)}
    (h : FinerDims fine coarse) : FinerOn P fine coarse :=
  ⟨h.length_eq, fun i x y _ hx hy => by
    obtain ⟨y', hy', hf⟩ := getElem?_of_forall₂ h hx
    rwa [Option.some.inj (hy.symm.trans hy')]⟩

theorem FinerOn.finerDims {fine coarse : List (Option Nat)}
    (h : FinerOn (fun _ => True) fine coarse) : FinerDims fine coarse :=
  List.forall₂_iff_get.mpr ⟨h.1, fun i hi hi' =>
    h.2 i _ _ trivial (List.getElem?_eq_getElem hi) (List.getElem?_eq_getElem hi')⟩

theorem FinerOn.trans {P : Nat → Prop} {fine middle coarse : List (Option Nat)}
    (h : FinerOn P fine middle) (h' : FinerOn P middle coarse) : FinerOn P fine coarse := by
  refine ⟨h.1.trans h'.1, fun i x z hi hx hz => ?_⟩
  have hlt : i < middle.length := h.1 ▸ (List.getElem?_eq_some_iff.mp hx).1
  have hy := List.getElem?_eq_getElem hlt
  exact (h.2 i x _ hi hx hy).trans (h'.2 i _ z hi hy hz)

/-- Leaving an axis open forgets nothing on the others. -/
theorem FinerOn.set_none {axis : Nat} {fine coarse : List (Option Nat)}
    (h : FinerOn (· ≠ axis) fine coarse) : FinerDims fine (coarse.set axis none) := by
  refine FinerDims.set_none h.1 fun i n hi hn => ?_
  have hlt : i < fine.length := h.1 ▸ (List.getElem?_eq_some_iff.mp hn).1
  have hx := List.getElem?_eq_getElem hlt
  rw [hx, finer_some.mp (h.2 i _ _ hi hx hn)]

theorem FinerOn.set_left {axis : Nat} {fine coarse : List (Option Nat)}
    (h : FinerOn (· ≠ axis) fine coarse) : FinerOn (· ≠ axis) (fine.set axis none) coarse := by
  refine ⟨by rw [List.length_set, h.1], fun i x y hi hx hy => ?_⟩
  rw [List.getElem?_set_ne (Ne.symm hi)] at hx
  exact h.2 i x y hi hx hy

/-- The size of a joined shape on one axis. -/
def joinedDim (axis i : Nat) (x y : Option Nat) : Except Error (Option Nat) :=
  if i = axis then .ok (concatDim x y) else concatOtherDim i x y

theorem concatDims_eq_ok {axis : Nat} {left right dims : List (Option Nat)} :
    concatDims axis left right = .ok dims ↔ left.length = right.length ∧
      (List.zip left right).zipIdx.mapM (fun p => joinedDim axis p.2 p.1.1 p.1.2) = .ok dims := by
  unfold concatDims
  split
  · simp_all [joinedDim]
  · simp_all

/-- A joined shape axis by axis. -/
theorem getElem?_concatDims {axis : Nat} {left right dims : List (Option Nat)}
    (h : concatDims axis left right = .ok dims) {i : Nat} {z : Option Nat}
    (hz : dims[i]? = some z) :
    ∃ x y, left[i]? = some x ∧ right[i]? = some y ∧ joinedDim axis i x y = .ok z := by
  obtain ⟨⟨⟨x, y⟩, j⟩, hp, hj⟩ :=
    getElem?_of_forall₂ (mapM_eq_ok.mp (concatDims_eq_ok.mp h).2).flip hz
  rw [List.getElem?_zipIdx, Option.map_eq_some_iff] at hp
  obtain ⟨pair, hp, ⟨rfl, rfl⟩⟩ := hp
  obtain ⟨hx, hy⟩ := List.getElem?_zip_eq_some.mp hp
  exact ⟨x, y, hx, hy, by simpa using hj⟩

theorem length_concatDims {axis : Nat} {left right dims : List (Option Nat)}
    (h : concatDims axis left right = .ok dims) : dims.length = left.length := by
  obtain ⟨hlen, h⟩ := concatDims_eq_ok.mp h
  rw [← (mapM_eq_ok.mp h).length_eq, List.length_zipIdx, List.length_zip, ← hlen, Nat.min_self]

/-- Off the axis, a joined shape says what its parts say. -/
theorem finerOn_concatDims {axis : Nat} {left right dims : List (Option Nat)}
    (h : concatDims axis left right = .ok dims) :
    FinerOn (· ≠ axis) dims left ∧ FinerOn (· ≠ axis) dims right := by
  have hlen := length_concatDims h
  have hd : ∀ i x y z, i ≠ axis → dims[i]? = some z → left[i]? = some x → right[i]? = some y →
      Finer z x ∧ Finer z y := fun i x y z hi hz hx hy => by
    obtain ⟨x', y', hx', hy', hj⟩ := getElem?_concatDims h hz
    rw [joinedDim, if_neg hi] at hj
    rw [Option.some.inj (hx.symm.trans hx'), Option.some.inj (hy.symm.trans hy')]
    exact finer_concatOtherDim hj
  refine ⟨⟨hlen, fun i z x hi hz hx => ?_⟩, hlen.trans (concatDims_eq_ok.mp h).1,
    fun i z y hi hz hy => ?_⟩
  · obtain ⟨_, y, _, hy, -⟩ := getElem?_concatDims h hz
    exact (hd i x y z hi hz hx hy).1
  · obtain ⟨x, _, hx, _, -⟩ := getElem?_concatDims h hz
    exact (hd i x y z hi hz hx hy).2

theorem joinedDim_mono {P : Nat → Prop} {axis i : Nat} (hP : i ≠ axis → P i)
    {x y x' y' z : Option Nat} (hx : P i → Finer x x') (hy : P i → Finer y y')
    (h : joinedDim axis i x y = .ok z) :
    ∃ z', joinedDim axis i x' y' = .ok z' ∧ (P i → Finer z z') := by
  unfold joinedDim at h ⊢
  split
  · rename_i hi
    rw [if_pos hi] at h
    obtain rfl := Except.ok.inj h
    exact ⟨_, rfl, fun hp => concatDim_mono (hx hp) (hy hp)⟩
  · rename_i hi
    rw [if_neg hi] at h
    obtain ⟨z', hz', hf⟩ := concatOtherDim_mono (hx (hP hi)) (hy (hP hi)) h
    exact ⟨z', hz', fun _ => hf⟩

/-- Joining is monotone, also if the sizes compare only off the axis. -/
theorem concatDims_mono {P : Nat → Prop} {axis : Nat} (hP : ∀ i, i ≠ axis → P i)
    {left left' right right' dims : List (Option Nat)} (hl : FinerOn P left left')
    (hr : FinerOn P right right') (hok : concatDims axis left right = .ok dims) :
    ∃ dims', concatDims axis left' right' = .ok dims' ∧ FinerOn P dims dims' := by
  have hlen := length_concatDims hok
  have hdim : ∀ i x' y', left'[i]? = some x' → right'[i]? = some y' → ∃ z z',
      dims[i]? = some z ∧ joinedDim axis i x' y' = .ok z' ∧ (P i → Finer z z') := by
    intro i x' y' hx' hy'
    have hlt : i < dims.length := by
      rw [hlen, hl.1]; exact (List.getElem?_eq_some_iff.mp hx').1
    have hz := List.getElem?_eq_getElem hlt
    obtain ⟨x, y, hx, hy, hj⟩ := getElem?_concatDims hok hz
    obtain ⟨z', hz', hf⟩ := joinedDim_mono (hP i) (fun hp => hl.2 i x x' hp hx hx')
      (fun hp => hr.2 i y y' hp hy hy') hj
    exact ⟨_, z', hz, hz', hf⟩
  obtain ⟨dims', hd'⟩ : ∃ dims', concatDims axis left' right' = .ok dims' := by
    simp only [concatDims_eq_ok, exists_and_left, exists_mapM_eq_ok]
    refine ⟨by rw [← hl.1, ← hr.1, (concatDims_eq_ok.mp hok).1], ?_⟩
    rintro ⟨⟨x', y'⟩, i⟩ hp
    rw [List.mem_zipIdx_iff_getElem?, List.getElem?_zip_eq_some] at hp
    obtain ⟨-, z', -, hz', -⟩ := hdim i x' y' hp.1 hp.2
    exact ⟨z', hz'⟩
  refine ⟨dims', hd', by rw [hlen, length_concatDims hd', hl.1], fun i z z' hi hz hz' => ?_⟩
  obtain ⟨x', y', hx', hy', hj'⟩ := getElem?_concatDims hd' hz'
  obtain ⟨w, w', hw, hw', hf⟩ := hdim i x' y' hx' hy'
  rw [Option.some.inj (hz.symm.trans hw), Except.ok.inj (hj'.symm.trans hw')]
  exact hf hi

/-- One step of `concatRanked`. -/
def joinRanked (axis : Int) (joined dims : Option (List (Option Nat))) :
    Except Error (Option (List (Option Nat))) :=
  match dims with
  | none => .ok joined
  | some dims => do
    let a ← resolveAxis axis dims.length
    match joined with
    | none => return some dims
    | some joined => return some (← concatDims a joined dims)

theorem concatRanked_eq (axis : Int) (operands : List Operand) : concatRanked axis operands =
    operands.foldlM (fun joined operand => joinRanked axis joined operand.shape.dims?) none := rfl

/-- What a join of some coarse parts says about the join of all fine ones: nothing about the axis,
since coarse parts of unknown rank are left out. -/
def JoinRefines (axis : Int) (fine coarse : Option (List (Option Nat))) : Prop :=
  ∀ dims', coarse = some dims' → ∃ dims a, fine = some dims ∧
    resolveAxis axis dims'.length = .ok a ∧ FinerOn (· ≠ a) dims dims'

/-- A part of which the coarse side leaves out everything changes the fine side on the axis only. -/
theorem JoinRefines.skip {axis : Int} {fine coarse part joined : Option (List (Option Nat))}
    (hj : JoinRefines axis fine coarse) (hok : joinRanked axis fine part = .ok joined) :
    JoinRefines axis joined coarse := fun dims' hc => by
  obtain ⟨dims, a, rfl, ha, hon⟩ := hj dims' hc
  cases part with
  | none =>
    obtain rfl := Except.ok.inj hok
    exact ⟨dims, a, rfl, ha, hon⟩
  | some p =>
    simp only [joinRanked, bind_eq_ok, pure_eq_ok, Except.ok.injEq] at hok
    obtain ⟨a', ha', r, hr, rfl⟩ := hok
    rw [← (concatDims_eq_ok.mp hr).1, hon.1, ha] at ha'
    obtain rfl := Except.ok.inj ha'
    exact ⟨r, a, rfl, ha, (finerOn_concatDims hr).1.trans hon⟩

theorem joinRanked_refines {axis : Int} {fine coarse part part' joined : Option (List (Option Nat))}
    (hj : JoinRefines axis fine coarse) (hp : FinerShape part part')
    (hok : joinRanked axis fine part = .ok joined) :
    ∃ joined', joinRanked axis coarse part' = .ok joined' ∧ JoinRefines axis joined joined' := by
  rcases hp.cases with rfl | ⟨p, p', rfl, rfl, hpp⟩
  · exact ⟨coarse, rfl, hj.skip hok⟩
  obtain ⟨a, ha, hok⟩ := bind_eq_ok.mp hok
  have ha' : resolveAxis axis p'.length = .ok a := by rw [← hpp.length_eq, ha]
  dsimp only [joinRanked]
  rw [ha', ok_bind]
  cases coarse with
  | none =>
    refine ⟨_, rfl, fun dims' hc => ?_⟩
    obtain rfl := Option.some.inj hc
    cases fine with
    | none =>
      obtain rfl := Except.ok.inj hok
      exact ⟨p, a, rfl, ha', finerOn_of_finerDims hpp⟩
    | some f =>
      obtain ⟨r, hr, hok⟩ := bind_eq_ok.mp hok
      obtain rfl := Except.ok.inj hok
      exact ⟨r, a, rfl, ha', (finerOn_concatDims hr).2.trans (finerOn_of_finerDims hpp)⟩
  | some c =>
    obtain ⟨f, b, rfl, hb, hon⟩ := hj c rfl
    obtain ⟨r, hr, hok⟩ := bind_eq_ok.mp hok
    obtain rfl := Except.ok.inj hok
    have hlen := (concatDims_eq_ok.mp hr).1
    rw [← hon.1, hlen, ha] at hb
    obtain rfl := Except.ok.inj hb
    obtain ⟨r', hr', hrr⟩ := concatDims_mono (fun _ hi => hi) hon (finerOn_of_finerDims hpp) hr
    refine ⟨_, bind_eq_ok.mpr ⟨r', hr', rfl⟩, fun dims' hc => ?_⟩
    obtain rfl := Option.some.inj hc
    refine ⟨r, a, rfl, ?_, hrr⟩
    rw [← hrr.1, length_concatDims hr, hlen, ha]

/-- As long as all parts have known ranks, the axis compares as well. -/
theorem joinRanked_mono {axis : Int} {fine coarse part part' joined : Option (List (Option Nat))}
    (hj : FinerShape fine coarse ∧ (coarse = none → fine = none))
    (hp : FinerShape part part' ∧ part'.isSome) (hok : joinRanked axis fine part = .ok joined) :
    ∃ joined', joinRanked axis coarse part' = .ok joined' ∧
      FinerShape joined joined' ∧ (joined' = none → joined = none) := by
  rcases hp.1.cases with rfl | ⟨p, p', rfl, rfl, hpp⟩
  · cases hp.2
  obtain ⟨a, ha, hok⟩ := bind_eq_ok.mp hok
  dsimp only [joinRanked]
  rw [← hpp.length_eq, ha, ok_bind]
  rcases hj.1.cases with rfl | ⟨f, f', rfl, rfl, hff⟩
  · obtain rfl := hj.2 rfl
    obtain rfl := Except.ok.inj hok
    exact ⟨_, rfl, finerShape_some.mpr ⟨p, rfl, hpp⟩, fun h => by cases h⟩
  · obtain ⟨r, hr, hok⟩ := bind_eq_ok.mp hok
    obtain rfl := Except.ok.inj hok
    obtain ⟨r', hr', hrr⟩ := concatDims_mono (fun _ _ => trivial) (finerOn_of_finerDims hff)
      (finerOn_of_finerDims hpp) hr
    exact ⟨_, bind_eq_ok.mpr ⟨r', hr', rfl⟩, finerShape_some.mpr ⟨r, rfl, hrr.finerDims⟩,
      fun h => by cases h⟩

/-- The shape of operands that are joined: where a rank is unknown, the axis is left open. -/
def concatShape (axis : Int) (operands : List Operand) : Except Error PartialShape := do
  match ← concatRanked axis operands with
  | none => return .unranked
  | some dims =>
    if operands.all (·.shape.rank?.isSome) then return .ofSizes dims
    else return .ofSizes (dims.set (← resolveAxis axis dims.length) none)

theorem all_ranked_mono {fines coarses : List Operand}
    (h : List.Forall₂ Operand.Narrows fines coarses)
    (hc : coarses.all (·.shape.rank?.isSome) = true) :
    fines.all (·.shape.rank?.isSome) = true := by
  rw [List.all_eq_true] at hc ⊢
  intro x hx
  obtain ⟨x', hx', hxx⟩ := exists_of_forall₂_left h hx
  obtain ⟨rank, hr⟩ := Option.isSome_iff_exists.mp (hc x' hx')
  rw [hxx.shape.rank? hr]
  rfl

section Concat

variable {axis : Int} {fines coarses : List Operand} {shape : PartialShape}
  (h : List.Forall₂ Operand.Narrows fines coarses)
include h

/-- All parts have known ranks, so the whole shape compares. -/
theorem concatShape_mono_of_ranked (hc : coarses.all (·.shape.rank?.isSome) = true)
    (hok : concatShape axis fines = .ok shape) :
    ∃ shape', concatShape axis coarses = .ok shape' ∧ shape.Refines shape' := by
  obtain ⟨joined, hj, hok⟩ := bind_eq_ok.mp hok
  rw [concatRanked_eq] at hj
  have hranked : List.Forall₂ (fun x x' : Operand => x.Narrows x' ∧ x'.shape.dims?.isSome) fines
      coarses := by
    refine forall₂_and_right h fun x' hx' => ?_
    have := List.all_eq_true.mp hc x' hx'
    rwa [PartialShape.rank?_eq, Option.isSome_map] at this
  obtain ⟨joined', hj', hf, -⟩ := foldlM_mono hranked
    (fun _ _ x x' _ hb hx => joinRanked_mono hb ⟨hx.1.dims, hx.2⟩) ⟨FinerShape.refl _, id⟩ hj
  rw [concatShape, concatRanked_eq, hj', ok_bind]
  rcases hf.cases with rfl | ⟨f, f', rfl, rfl, hff⟩
  · exact ⟨_, rfl, PartialShape.refines_unranked _⟩
  · dsimp only at hok ⊢
    rw [if_pos (all_ranked_mono h hc)] at hok
    rw [if_pos hc, ← Except.ok.inj hok]
    exact ⟨_, rfl, .ofSizes hff⟩

/-- A part of unknown rank was left out, so the axis is left open and the others compare. -/
theorem concatShape_mono_of_unranked (hc : ¬coarses.all (·.shape.rank?.isSome) = true)
    (hok : concatShape axis fines = .ok shape) :
    ∃ shape', concatShape axis coarses = .ok shape' ∧ shape.Refines shape' := by
  obtain ⟨joined, hj, hok⟩ := bind_eq_ok.mp hok
  rw [concatRanked_eq] at hj
  have hnone : JoinRefines axis none none := fun _ h => by cases h
  obtain ⟨joined', hj', hf⟩ := foldlM_mono h
    (fun _ _ x x' _ hb hx => joinRanked_refines hb hx.dims) hnone hj
  rw [concatShape, concatRanked_eq, hj', ok_bind]
  cases joined' with
  | none => exact ⟨_, rfl, PartialShape.refines_unranked _⟩
  | some c =>
    obtain ⟨f, a, rfl, ha, hon⟩ := hf c rfl
    dsimp only at hok ⊢
    rw [if_neg hc, ha, ok_bind]
    refine ⟨_, rfl, ?_⟩
    split at hok
    · rw [← Except.ok.inj hok]
      exact .ofSizes hon.set_none
    · rw [hon.1, ha, ok_bind] at hok
      rw [← Except.ok.inj hok]
      exact .ofSizes hon.set_left.set_none

theorem concatShape_mono (hok : concatShape axis fines = .ok shape) :
    ∃ shape', concatShape axis coarses = .ok shape' ∧ shape.Refines shape' := by
  by_cases hc : coarses.all (·.shape.rank?.isSome) = true
  · exact concatShape_mono_of_ranked h hc hok
  · exact concatShape_mono_of_unranked h hc hok

end Concat

/-! ## Gathering, reducing, reshaping, padding -/

section Shapes

variable {dims dims' : Option (List (Option Nat))}
  {ints ints' : Except Error (Option (List Int))} {shape : PartialShape}

/-- Known indices have to lie on an axis of known size. -/
def checkIndices (size : Option (Option Nat)) (indices : Option (List Int)) : Except Error Unit :=
  match size, indices with
  | some (some size), some values => values.forM fun i => do discard (resolveIndex i size)
  | _, _ => .ok ()

theorem checkIndices_eq_ok {size : Option (Option Nat)} {indices : Option (List Int)} :
    checkIndices size indices = .ok () ↔ ∀ n values, size = some (some n) → indices = some values →
      ∀ i ∈ values, ∃ position, resolveIndex i n = .ok position := by
  unfold checkIndices
  split <;> simp_all

/-- The shape of elements that are gathered: the axis gives way to the shape of the indices. -/
def gatherShape (axis : Int) (dims indexDims : Option (List (Option Nat)))
    (indices : Except Error (Option (List Int))) : Except Error PartialShape :=
  match dims, indexDims with
  | some dims, some indexDims => do
    let a ← resolveAxis axis dims.length
    checkIndices dims[a]? (← indices)
    return .ofSizes (dims.take a ++ indexDims ++ dims.drop (a + 1))
  | _, _ => return .unranked

theorem gatherShape_mono {axis : Int} {indexDims indexDims' : Option (List (Option Nat))}
    (hd : FinerShape dims dims') (hx : FinerShape indexDims indexDims') (hi : FinerInts ints ints')
    (hok : gatherShape axis dims indexDims ints = .ok shape) :
    ∃ shape', gatherShape axis dims' indexDims' ints' = .ok shape' ∧ shape.Refines shape' := by
  rcases hd.cases with rfl | ⟨d, d', rfl, rfl, hdd⟩
  · exact ⟨_, rfl, PartialShape.refines_unranked _⟩
  rcases hx.cases with rfl | ⟨x, x', rfl, rfl, hxx⟩
  · exact ⟨_, rfl, PartialShape.refines_unranked _⟩
  simp only [gatherShape, bind_eq_ok, pure_eq_ok, Except.ok.injEq, exists_unit] at hok ⊢
  obtain ⟨a, ha, values, hv, hcheck, rfl⟩ := hok
  have hshape : FinerDims (d.take a ++ x ++ d.drop (a + 1)) (d'.take a ++ x' ++ d'.drop (a + 1)) :=
    List.rel_append (List.rel_append (List.forall₂_take a hdd) hxx) (List.forall₂_drop _ hdd)
  rw [hdd.length_eq] at ha
  obtain ⟨_, hv', rfl | rfl⟩ := hi values hv
  · exact ⟨_, ⟨a, ha, none, hv', checkIndices_eq_ok.mpr (by simp), rfl⟩, .ofSizes hshape⟩
  · refine ⟨_, ⟨a, ha, _, hv', checkIndices_eq_ok.mpr fun n is hn => ?_, rfl⟩,
      .ofSizes hshape⟩
    exact checkIndices_eq_ok.mp hcheck n is (hdd.getElem? hn)

/-- The shape after a reduction. Without the axes only the rank can be known, if it is kept. -/
def reduceShape (keepDims : Bool) (dims : Option (List (Option Nat)))
    (axes : Except Error (Option (List Int))) : Except Error PartialShape := do
  match dims, ← axes with
  | some dims, some values =>
    return .ofSizes (collapse (some 1) keepDims (← resolveAxes values dims.length) dims)
  | some dims, none =>
    return if keepDims then .ofSizes (dims.map fun _ => none) else .unranked
  | none, _ => return .unranked

theorem reduceShape_mono {keepDims : Bool} (hd : FinerShape dims dims') (hi : FinerInts ints ints')
    (hok : reduceShape keepDims dims ints = .ok shape) :
    ∃ shape', reduceShape keepDims dims' ints' = .ok shape' ∧ shape.Refines shape' := by
  obtain ⟨values, hv, hok⟩ := bind_eq_ok.mp hok
  obtain ⟨values', hv', hvv⟩ := hi values hv
  rw [reduceShape, hv', ok_bind]
  rcases hd.cases with rfl | ⟨d, d', rfl, rfl, hdd⟩
  · exact ⟨_, rfl, PartialShape.refines_unranked _⟩
  cases values with
  | some axes =>
    obtain ⟨positions, hp, hok⟩ := bind_eq_ok.mp hok
    obtain rfl := Except.ok.inj hok
    rcases hvv with rfl | rfl
    · refine ⟨_, rfl, ?_⟩
      cases keepDims with
      | true =>
        refine .ofSizes (finerDims_map_none.mpr ?_)
        rw [length_collapse_keep, hdd.length_eq]
      | false => exact PartialShape.refines_unranked _
    · rw [hdd.length_eq] at hp
      exact ⟨_, bind_eq_ok.mpr ⟨positions, hp, rfl⟩, .ofSizes (collapse_mono _ _ hdd)⟩
  | none =>
    obtain rfl := Except.ok.inj hok
    obtain rfl : values' = none := by simpa using hvv
    refine ⟨_, rfl, ?_⟩
    cases keepDims with
    | true =>
      refine .ofSizes (finerDims_map_none.mpr ?_)
      rw [List.length_map, hdd.length_eq]
    | false => exact PartialShape.refines_unranked _

/-- The shape of a result of which only the rank can be known. -/
def openShape (rank : Option Nat) : PartialShape :=
  match rank with
  | some rank => .ofSizes (List.replicate rank none)
  | none => .unranked

theorem refines_openShape {rank : Option Nat} {d : List (Option Nat)}
    (h : ∀ n, rank = some n → d.length = n) :
    (PartialShape.ofSizes d).Refines (openShape rank) := by
  cases rank with
  | none => exact PartialShape.refines_unranked _
  | some n => exact .ofSizes (finerDims_replicate_none.mpr (h n rfl))

theorem openShape_mono {rank rank' : Option Nat} (h : ∀ n, rank' = some n → rank = some n) :
    (openShape rank).Refines (openShape rank') := by
  cases rank' with
  | none => exact PartialShape.refines_unranked _
  | some n => rw [h n rfl]; exact .refl _

/-- The shape that data takes towards a target shape, of which perhaps only the length is known. -/
def broadcastShape (dims : Option (List (Option Nat))) (target : Except Error (Option (List Int)))
    (length : Option Nat) : Except Error PartialShape := do
  match dims, ← target with
  | some dims, some values =>
    let sizes ← values.mapM sizeOfInt
    return .ofSizes (← broadcastPartial dims (sizes.map some))
  | some dims, none => return openShape (length.map (max · dims.length))
  | none, _ => return .unranked

theorem broadcastShape_mono {length length' : Option Nat} (hd : FinerShape dims dims')
    (hi : FinerInts ints ints') (hl : FinerLength ints length length')
    (hok : broadcastShape dims ints length = .ok shape) :
    ∃ shape', broadcastShape dims' ints' length' = .ok shape' ∧ shape.Refines shape' := by
  obtain ⟨values, hv, hok⟩ := bind_eq_ok.mp hok
  obtain ⟨values', hv', hvv⟩ := hi values hv
  rw [broadcastShape, hv', ok_bind]
  rcases hd.cases with rfl | ⟨d, d', rfl, rfl, hdd⟩
  · exact ⟨_, rfl, PartialShape.refines_unranked _⟩
  cases values with
  | some target =>
    obtain ⟨sizes, hs, hok⟩ := bind_eq_ok.mp hok
    obtain ⟨r, hr, hok⟩ := bind_eq_ok.mp hok
    obtain rfl := Except.ok.inj hok
    rcases hvv with rfl | rfl
    · refine ⟨_, rfl, refines_openShape fun n hn => ?_⟩
      obtain ⟨m, hm, rfl⟩ := Option.map_eq_some_iff.mp hn
      rw [length_broadcastPartial hr, List.length_map, ← (mapM_eq_ok.mp hs).length_eq,
        (hl m hm).2 target hv, hdd.length_eq, Nat.max_comm]
    · obtain ⟨r', hr', hrr⟩ := broadcastPartial_mono hdd (FinerDims.refl _) hr
      exact ⟨_, bind_eq_ok.mpr ⟨sizes, hs, bind_eq_ok.mpr ⟨r', hr', rfl⟩⟩, .ofSizes hrr⟩
  | none =>
    obtain rfl := Except.ok.inj hok
    obtain rfl : values' = none := by simpa using hvv
    refine ⟨_, rfl, openShape_mono fun n hn => ?_⟩
    obtain ⟨m, hm, rfl⟩ := Option.map_eq_some_iff.mp hn
    rw [(hl m hm).1, Option.map_some, hdd.length_eq]

/-- The shape after a reshape to a target, of which perhaps only the length is known. -/
def reshapeShape (specialZero : Bool) (dims : Option (List (Option Nat)))
    (target : Except Error (Option (List Int))) (length : Option Nat) :
    Except Error PartialShape := do
  match ← target with
  | some values => return .ofSizes (← Shape.reshape dims values specialZero)
  | none => return openShape length

theorem reshapeShape_mono {specialZero : Bool} {length length' : Option Nat}
    (hd : FinerShape dims dims') (hi : FinerInts ints ints') (hl : FinerLength ints length length')
    (hok : reshapeShape specialZero dims ints length = .ok shape) :
    ∃ shape', reshapeShape specialZero dims' ints' length' = .ok shape' ∧ shape.Refines shape' := by
  obtain ⟨values, hv, hok⟩ := bind_eq_ok.mp hok
  obtain ⟨values', hv', hvv⟩ := hi values hv
  rw [reshapeShape, hv', ok_bind]
  cases values with
  | some target =>
    obtain ⟨r, hr, hok⟩ := bind_eq_ok.mp hok
    obtain rfl := Except.ok.inj hok
    rcases hvv with rfl | rfl
    · refine ⟨_, rfl, refines_openShape fun n hn => ?_⟩
      rw [length_reshape hr, (hl n hn).2 target hv]
    · obtain ⟨r', hr', hrr⟩ := reshape_mono hd hr
      exact ⟨_, bind_eq_ok.mpr ⟨r', hr', rfl⟩, .ofSizes hrr⟩
  | none =>
    obtain rfl := Except.ok.inj hok
    obtain rfl : values' = none := by simpa using hvv
    exact ⟨_, rfl, openShape_mono fun n hn => (hl n hn).1⟩

/-- The size of one axis after padding. -/
def paddedDim (before after : Option (List Int)) (dim : Option Nat) (axis : Nat) :
    Except Error (Option Nat) :=
  match dim, before.bind (·[axis]?), after.bind (·[axis]?) with
  | some size, some b, some a => do return some (← paddedSize size b a)
  | _, _, _ => .ok none

theorem paddedDims_eq (before after : Option (List Int)) (dims : List (Option Nat)) :
    paddedDims before after dims = dims.zipIdx.mapM fun p => paddedDim before after p.1 p.2 := rfl

theorem paddedDim_mono {before before' after after' : Option (List Int)}
    (hb : before' = none ∨ before' = before) (ha : after' = none ∨ after' = after)
    {dim dim' padded : Option Nat} {axis : Nat} (hd : Finer dim dim')
    (hok : paddedDim before after dim axis = .ok padded) :
    ∃ padded', paddedDim before' after' dim' axis = .ok padded' ∧ Finer padded padded' := by
  unfold paddedDim at hok ⊢
  split
  · rename_i size b a hb' ha'
    rcases hb with rfl | rfl
    · cases hb'
    rcases ha with rfl | rfl
    · cases ha'
    rw [finer_some.mp hd, hb', ha'] at hok
    exact ⟨padded, hok, Finer.refl padded⟩
  · exact ⟨none, rfl, finer_none _⟩

theorem paddedDims_mono {before before' after after' : Option (List Int)}
    (hb : before' = none ∨ before' = before) (ha : after' = none ∨ after' = after)
    {d d' padded : List (Option Nat)} (hd : FinerDims d d')
    (hok : paddedDims before after d = .ok padded) :
    ∃ padded', paddedDims before' after' d' = .ok padded' ∧ FinerDims padded padded' := by
  refine mapM_mono (forall₂_zipIdx hd) ?_ hok
  rintro ⟨dim, axis⟩ ⟨dim', axis'⟩ r ⟨hdim, rfl : axis = axis'⟩ hr
  exact paddedDim_mono hb ha hdim hr

/-- The shape of padded data. -/
def padShape (dims : Option (List (Option Nat))) (before after : Except Error (Option (List Int))) :
    Except Error PartialShape := do
  match dims with
  | none => return .unranked
  | some dims => return .ofSizes (← paddedDims (← before) (← after) dims)

theorem padShape_mono {after after' : Except Error (Option (List Int))}
    (hd : FinerShape dims dims') (hb : FinerInts ints ints') (ha : FinerInts after after')
    (hok : padShape dims ints after = .ok shape) :
    ∃ shape', padShape dims' ints' after' = .ok shape' ∧ shape.Refines shape' := by
  rcases hd.cases with rfl | ⟨d, d', rfl, rfl, hdd⟩
  · exact ⟨_, rfl, PartialShape.refines_unranked _⟩
  simp only [padShape, bind_eq_ok, pure_eq_ok, Except.ok.injEq] at hok ⊢
  obtain ⟨b, hbv, a, hav, padded, hp, rfl⟩ := hok
  obtain ⟨b', hbv', hbb⟩ := hb b hbv
  obtain ⟨a', hav', haa⟩ := ha a hav
  obtain ⟨padded', hp', hpp⟩ := paddedDims_mono hbb haa hdd hp
  exact ⟨_, ⟨b', hbv', a', hav', padded', hp', rfl⟩, .ofSizes hpp⟩

/-- The shape without the axes. -/
def squeezeShape (axes : List Int) (dims : Option (List (Option Nat))) :
    Except Error PartialShape := do
  match dims with
  | some dims => return .ofDims? (← Shape.squeeze dims axes)
  | none => return .unranked

theorem squeezeShape_mono {axes : List Int} (hd : FinerShape dims dims')
    (hok : squeezeShape axes dims = .ok shape) :
    ∃ shape', squeezeShape axes dims' = .ok shape' ∧ shape.Refines shape' := by
  rcases hd.cases with rfl | ⟨d, d', rfl, rfl, hdd⟩
  · exact ⟨_, rfl, PartialShape.refines_unranked _⟩
  obtain ⟨rest, hr, hok⟩ := bind_eq_ok.mp hok
  obtain rfl := Except.ok.inj hok
  obtain ⟨rest', hr', hf⟩ := squeeze_mono hdd hr
  exact ⟨_, bind_eq_ok.mpr ⟨rest', hr', rfl⟩, .ofDims? hf⟩

/-- The shape with axes of size 1 put in. -/
def unsqueezeShape (axes : List Int) (dims : Option (List (Option Nat))) :
    Except Error PartialShape := do
  match dims with
  | some dims => return .ofSizes (← Shape.unsqueeze (some 1) dims axes)
  | none => return .unranked

theorem unsqueezeShape_mono {axes : List Int} (hd : FinerShape dims dims')
    (hok : unsqueezeShape axes dims = .ok shape) :
    ∃ shape', unsqueezeShape axes dims' = .ok shape' ∧ shape.Refines shape' := by
  rcases hd.cases with rfl | ⟨d, d', rfl, rfl, hdd⟩
  · exact ⟨_, rfl, PartialShape.refines_unranked _⟩
  obtain ⟨rest, hr, hok⟩ := bind_eq_ok.mp hok
  obtain rfl := Except.ok.inj hok
  obtain ⟨rest', hr', hf⟩ := unsqueeze_mono hdd hr
  exact ⟨_, bind_eq_ok.mpr ⟨rest', hr', rfl⟩, .ofSizes hf⟩

end Shapes

end Op

end TensorLowering
