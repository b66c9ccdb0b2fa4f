import TensorLowering.Proofs.Shape.Refinement
import TensorLowering.Shape.Axes
import TensorLowering.Shape.Broadcast
import TensorLowering.Shape.Reshape

/-!
# Shape rules and what is known

The shape rules are monotone: where a rule accepts sizes, it accepts whatever is coarser, and the
result is coarser (`broadcastPartial_mono`, `collapse_mono`, `squeeze_mono`, `unsqueeze_mono`,
`reshape_mono`). On sizes that are all known the partial rules give known sizes
(`broadcast_eq_ok`, `squeeze_known`, `unsqueeze_map`).
-/

namespace TensorLowering.Shape

/-! ## Broadcasting -/

theorem map_filterMap_id {dims : List (Option Nat)} (h : ∀ dim ∈ dims, dim.isSome) :
    (dims.filterMap id).map some = dims := by
  induction dims with
  | nil => rfl
  | cons dim dims ih =>
    rw [List.forall_mem_cons] at h
    obtain ⟨n, rfl⟩ := Option.isSome_iff_exists.mp h.1
    rw [List.filterMap_cons, id, List.map_cons, ih h.2]

/-- A size that is known on one side only is the result, unless it is 1. -/
theorem finer_of_broadcastSize_right {x dim : Option Nat} {n : Nat}
    (h : broadcastSize x (some n) = .ok dim) : Finer dim (if n = 1 then none else some n) := by
  split
  · exact finer_none _
  · rename_i hn
    cases x with
    | none => simpa [broadcastSize, hn, eq_comm] using h
    | some a =>
      simp only [broadcastSize, hn, if_false] at h
      split at h
      · simp_all
      · split at h <;> simp_all

theorem finer_of_broadcastSize_left {y dim : Option Nat} {n : Nat}
    (h : broadcastSize (some n) y = .ok dim) : Finer dim (if n = 1 then none else some n) := by
  split
  · exact finer_none _
  · rename_i hn
    cases y with
    | none => simpa [broadcastSize, hn, eq_comm] using h
    | some b =>
      simp only [broadcastSize, hn, if_false] at h
      split at h
      · simp_all
      · split at h <;> simp_all

theorem broadcastSize_mono {x y x' y' dim : Option Nat} (hx : Finer x x') (hy : Finer y y')
    (h : broadcastSize x y = .ok dim) :
    ∃ dim', broadcastSize x' y' = .ok dim' ∧ Finer dim dim' := by
  cases x' with
  | none =>
    cases y' with
    | none => exact ⟨none, rfl, finer_none _⟩
    | some b =>
      obtain rfl := finer_some.mp hy
      exact ⟨_, rfl, finer_of_broadcastSize_right h⟩
  | some a =>
    obtain rfl := finer_some.mp hx
    cases y' with
    | none => exact ⟨_, rfl, finer_of_broadcastSize_left h⟩
    | some b =>
      obtain rfl := finer_some.mp hy
      exact ⟨dim, h, Finer.refl dim⟩

theorem alignRight_mono {dims dims' : List (Option Nat)} (rank : Nat) (h : FinerDims dims dims') :
    FinerDims (alignRight rank dims) (alignRight rank dims') := by
  unfold alignRight
  rw [h.length_eq]
  exact List.rel_append (FinerDims.refl _) h

/-- The partial rule succeeds if the rule for sizes does on each axis. -/
theorem broadcastPartial_eq_ok {left right dims : List (Option Nat)} :
    broadcastPartial left right = .ok dims ↔
      List.Forall₂ (fun pair dim => broadcastSize pair.1 pair.2 = .ok dim)
        (List.zip (alignRight (max left.length right.length) left)
          (alignRight (max left.length right.length) right)) dims := by
  rw [broadcastPartial, mapM_eq_ok]
  refine Iff.trans ?_ (forall₂_zipIdx_left 0)
  constructor <;> refine fun h => h.imp fun pair dim hd => ?_
  · dsimp only at hd
    split at hd
    · rename_i hok
      rw [hok, Except.ok.inj hd]
    · cases hd
  · dsimp only
    rw [hd]

theorem broadcastPartial_mono {left right left' right' dims : List (Option Nat)}
    (hl : FinerDims left left') (hr : FinerDims right right')
    (h : broadcastPartial left right = .ok dims) :
    ∃ dims', broadcastPartial left' right' = .ok dims' ∧ FinerDims dims dims' := by
  rw [broadcastPartial_eq_ok, hl.length_eq, hr.length_eq, ← mapM_eq_ok] at h
  simp only [broadcastPartial_eq_ok]
  simp only [← mapM_eq_ok]
  refine mapM_mono (forall₂_zip (alignRight_mono _ hl) (alignRight_mono _ hr)) ?_ h
  exact fun pair pair' dim hp => broadcastSize_mono hp.1 hp.2

theorem length_alignRight {rank : Nat} {dims : List (Option Nat)} (h : dims.length ≤ rank) :
    (alignRight rank dims).length = rank := by
  simp [alignRight, h]

theorem length_broadcastPartial {left right dims : List (Option Nat)}
    (h : broadcastPartial left right = .ok dims) : dims.length = max left.length right.length := by
  rw [← (broadcastPartial_eq_ok.mp h).length_eq, List.length_zip,
    length_alignRight (Nat.le_max_left ..), length_alignRight (Nat.le_max_right ..), Nat.min_self]

@[simp] theorem broadcastSize_one (dim : Option Nat) : broadcastSize (some 1) dim = .ok dim := by
  cases dim with
  | none => rfl
  | some n => by_cases hn : 1 = n <;> simp [broadcastSize, hn]

/-- Broadcasting an empty shape gives the other one. -/
theorem broadcastPartial_nil (dims : List (Option Nat)) :
    broadcastPartial [] dims = .ok dims := by
  have hl : alignRight dims.length [] = List.replicate dims.length (some 1) := by simp [alignRight]
  have hr : alignRight dims.length dims = dims := by simp [alignRight]
  rw [broadcastPartial_eq_ok, List.length_nil, Nat.zero_max, hl, hr]
  induction dims with
  | nil => exact .nil
  | cons dim dims ih =>
    exact .cons (broadcastSize_one dim) (ih (by simp [alignRight]) (by simp [alignRight]))

@[simp] theorem broadcastSize_self (dim : Option Nat) : broadcastSize dim dim = .ok dim := by
  cases dim <;> simp [broadcastSize]

/-- A shape broadcasts to itself. -/
theorem broadcastPartial_self (dims : List (Option Nat)) :
    broadcastPartial dims dims = .ok dims := by
  have halign : alignRight (max dims.length dims.length) dims = dims := by simp [alignRight]
  rw [broadcastPartial_eq_ok, halign]
  clear halign
  induction dims with
  | nil => exact .nil
  | cons dim dims ih => exact .cons (broadcastSize_self dim) ih

theorem alignRight_map_some (rank : Nat) (sizes : List Nat) :
    alignRight rank (sizes.map some) =
      (List.replicate (rank - sizes.length) 1 ++ sizes).map some := by
  simp [alignRight]

/-- Known sizes broadcast to known sizes. -/
theorem broadcast_eq_ok {left right sizes : List Nat} (h : broadcast left right = .ok sizes) :
    broadcastPartial (left.map some) (right.map some) = .ok (sizes.map some) := by
  simp only [broadcast, bind_pure_comp, map_eq_ok] at h
  obtain ⟨dims, hd, rfl⟩ := h
  rw [hd, eq_comm]
  refine congrArg Except.ok (map_filterMap_id fun dim hdim => ?_)
  obtain ⟨⟨x, y⟩, hp, hok⟩ := exists_of_forall₂_right (broadcastPartial_eq_ok.mp hd) hdim
  rw [alignRight_map_some, alignRight_map_some] at hp
  obtain ⟨hx, hy⟩ := List.of_mem_zip hp
  obtain ⟨a, -, rfl⟩ := List.mem_map.mp hx
  obtain ⟨b, -, rfl⟩ := List.mem_map.mp hy
  dsimp only [broadcastSize] at hok
  split at hok
  · rw [← Except.ok.inj hok]; rfl
  · split at hok
    · rw [← Except.ok.inj hok]; rfl
    · split at hok
      · rw [← Except.ok.inj hok]; rfl
      · cases hok

theorem broadcast_self (sizes : List Nat) : broadcast sizes sizes = .ok sizes := by
  simp [broadcast, broadcastPartial_self]

theorem broadcast_nil (sizes : List Nat) : broadcast [] sizes = .ok sizes := by
  simp [broadcast, broadcastPartial_nil]

/-! ## Axes that are removed or added -/

theorem collapse_mono {one : Option Nat} (keepDims : Bool) (axes : List Nat)
    {dims dims' : List (Option Nat)} (h : FinerDims dims dims') :
    FinerDims (collapse one keepDims axes dims) (collapse one keepDims axes dims') := by
  refine List.rel_filterMap ?_ (forall₂_zipIdx h)
  rintro ⟨dim, axis⟩ ⟨dim', axis'⟩ ⟨hd, rfl : axis = axis'⟩
  dsimp only
  split
  · split
    · exact .some (Finer.refl one)
    · exact .none
  · exact .some hd

/-- What stands for a removed axis matters only if the axis is kept. -/
theorem collapse_map {α β : Type} (f : α → β) {one : α} {one' : β} {keepDims : Bool}
    (h : keepDims = true → one' = f one) (axes : List Nat) (dims : List α) :
    collapse one' keepDims axes (dims.map f) = (collapse one keepDims axes dims).map f := by
  simp only [collapse, List.zipIdx_map, List.filterMap_map, List.map_filterMap]
  congr 1
  funext ⟨dim, axis⟩
  by_cases hc : axes.contains axis = true <;> cases keepDims <;> simp_all

theorem collapse_keep {α : Type} (one : α) (axes : List Nat) (dims : List α) :
    collapse one true axes dims =
      dims.zipIdx.map fun pair => if axes.contains pair.2 then one else pair.1 := by
  rw [collapse, ← List.filterMap_eq_map]
  congr 1
  funext pair
  dsimp only [Function.comp]
  split <;> rfl

/-- Axes that are kept leave the rank as it is. -/
theorem length_collapse_keep {α : Type} (one : α) (axes : List Nat) (dims : List α) :
    (collapse one true axes dims).length = dims.length := by
  rw [collapse_keep, List.length_map, List.length_zipIdx]

theorem getElem?_collapse_keep {α : Type} (one : α) (axes : List Nat) (dims : List α) (i : Nat) :
    (collapse one true axes dims)[i]? = dims[i]?.map fun dim => if i ∈ axes then one else dim := by
  rw [collapse_keep, List.getElem?_map, List.getElem?_zipIdx, Option.map_map]
  simp [Function.comp_def]

@[simp] theorem collapse_nil {α : Type} (one : α) (keepDims : Bool) (dims : List α) :
    collapse one keepDims [] dims = dims := by
  simp [collapse]

theorem collapse_keep_cons {α : Type} (one : α) (a : Nat) (axes : List Nat) (dims : List α) :
    collapse one true (a :: axes) dims = collapse one true axes (dims.set a one) := by
  refine List.ext_getElem? fun i => ?_
  rw [getElem?_collapse_keep, getElem?_collapse_keep, List.getElem?_set]
  by_cases hi : a = i
  · subst hi
    by_cases hlt : a < dims.length <;> simp [hlt]
  · simp [hi, Ne.symm hi]

/-- Updates have the shape of the rows, then that of the slices which rows of that depth address. -/
theorem updatesShape_eq_ok {data indices updates : List Nat} :
    updatesShape data indices = .ok updates ↔ ∃ depth, indices.getLast? = some depth ∧
      depth ≤ data.length ∧ updates = indices.dropLast ++ data.drop depth := by
  unfold updatesShape
  cases hlast : indices.getLast? with
  | none => simp
  | some depth =>
    simp only [Option.some.injEq, exists_eq_left']
    split
    · rename_i hdepth
      exact iff_of_false nofun fun h => absurd h.1 (Nat.not_le.mpr hdepth)
    · rename_i hdepth
      rw [Except.ok.injEq, eq_comm]
      exact (and_iff_right (Nat.not_lt.mp hdepth)).symm

theorem squeeze_mono {dims dims' : List (Option Nat)} {axes : List Int}
    {rest : Option (List (Option Nat))} (h : FinerDims dims dims')
    (hok : squeeze dims axes = .ok rest) :
    ∃ rest', squeeze dims' axes = .ok rest' ∧ FinerShape rest rest' := by
  unfold squeeze at hok ⊢
  by_cases he : axes.isEmpty
  · rw [if_pos he] at hok ⊢
    obtain rfl := Except.ok.inj hok
    refine ⟨_, rfl, ?_⟩
    by_cases hc : dims'.contains none
    · rw [if_pos hc]
      exact finerShape_none _
    · -- All sizes are known on the coarse side, so both sides are the same.
      have hknown : (dims'.filterMap id).map some = dims' := map_filterMap_id fun dim hdim => by
        cases dim with
        | none => exact absurd (List.contains_iff_mem.mpr hdim) hc
        | some n => rfl
      rw [← hknown, finerDims_map_some, hknown] at h
      rw [h]
      exact FinerShape.refl _
  · rw [if_neg he] at hok ⊢
    simp only [bind_eq_ok, pure_eq_ok, Except.ok.injEq] at hok ⊢
    obtain ⟨positions, hp, _, hcheck, rfl⟩ := hok
    refine ⟨_, ⟨positions, h.length_eq ▸ hp, (), ?_, rfl⟩, ?_⟩
    · simp only [List.forM_eq_forM, forM_eq_ok] at hcheck ⊢
      intro axis haxis
      have := hcheck axis haxis
      split
      · rename_i size hs
        rw [h.getElem? hs] at this
        exact this
      · rfl
    · exact finerShape_some.mpr ⟨_, rfl, collapse_mono false positions h⟩

/-- Known sizes squeeze to known sizes. -/
theorem squeeze_known {sizes : List Nat} {axes : List Int} {rest : Option (List (Option Nat))}
    (h : squeeze (sizes.map some) axes = .ok rest) :
    ∃ sizes' : List Nat, rest = some (sizes'.map some) := by
  unfold squeeze at h
  by_cases he : axes.isEmpty
  · rw [if_pos he, if_neg (by simp)] at h
    obtain rfl := Except.ok.inj h
    refine ⟨sizes.filter (· != 1), congrArg some ?_⟩
    rw [List.filter_map]
    rfl
  · rw [if_neg he] at h
    simp only [bind_eq_ok, pure_eq_ok, Except.ok.injEq] at h
    obtain ⟨positions, -, _, -, rfl⟩ := h
    exact ⟨collapse 0 false positions sizes, congrArg some (collapse_map some (by simp) ..)⟩

theorem fromBack?_eq_some {i bound : Int} {j : Nat} :
    fromBack? i bound = some j ↔ (j : Int) = (if i < 0 then i + bound else i) ∧ (j : Int) < bound := by
  unfold fromBack?
  generalize (if i < 0 then i + bound else i) = k
  dsimp only
  split
  · refine iff_of_false nofun fun h => ?_
    omega
  · rw [Option.some_inj]
    omega

theorem resolveAxis_eq_ok {axis : Int} {rank a : Nat} :
    resolveAxis axis rank = .ok a ↔ fromBack? axis rank = some a := by
  unfold resolveAxis
  cases fromBack? axis rank <;> simp

theorem resolveIndex_iff {index : Int} {size i : Nat} :
    resolveIndex index size = .ok i ↔ fromBack? index (signedSize size) = some i := by
  unfold resolveIndex
  cases fromBack? index (signedSize size) <;> simp

/-- A place counted from the front. -/
theorem fromBack?_natCast {a : Nat} {bound : Int} (h : (a : Int) < bound) :
    fromBack? a bound = some a :=
  fromBack?_eq_some.mpr ⟨(if_neg (Int.not_lt.mpr (Int.natCast_nonneg a))).symm, h⟩

/-- An axis counted from the front. -/
theorem resolveAxis_natCast {a rank : Nat} (h : a < rank) : resolveAxis a rank = .ok a :=
  resolveAxis_eq_ok.mpr (fromBack?_natCast (Int.ofNat_lt.mpr h))

/-- Axes are resolved to the positions that they name, in order and each of them once. -/
theorem resolveAxes_eq_ok {axes : List Int} {rank : Nat} {positions : List Nat} :
    resolveAxes axes rank = .ok positions ↔ ∃ named, axes.mapM (resolveAxis · rank) = .ok named ∧
      positions = (List.range rank).filter named.contains := by
  simp only [resolveAxes, bind_eq_ok, pure_eq_ok, Except.ok.injEq, eq_comm (a := positions)]

theorem resolveAxes_natCast {axes : List Nat} {rank : Nat} (h : ∀ a ∈ axes, a < rank) :
    resolveAxes (axes.map Int.ofNat) rank = .ok ((List.range rank).filter axes.contains) := by
  have hnamed : (axes.map Int.ofNat).mapM (resolveAxis · rank) = .ok axes := by
    rw [mapM_eq_ok, List.forall₂_map_left_iff]
    exact List.forall₂_same.mpr fun a ha => resolveAxis_natCast (h a ha)
  rw [resolveAxes, hnamed, ok_bind]
  rfl

/-- Of the axes only those of the shape matter, and neither their order nor how often they are
listed. -/
theorem collapse_congr {α : Type} {one : α} {keepDims : Bool} {axes axes' : List Nat} {dims : List α}
    (h : ∀ i < dims.length, axes.contains i = axes'.contains i) :
    collapse one keepDims axes dims = collapse one keepDims axes' dims := by
  refine List.filterMap_congr fun pair hpair => ?_
  obtain ⟨-, hlt, -⟩ := List.mem_zipIdx hpair
  simp only [h pair.2 (by omega)]

theorem squeeze_ones {axes : List Nat} {dims : List (Option Nat)} (hne : axes ≠ [])
    (h : ∀ a ∈ axes, dims[a]? = some (some 1)) :
    squeeze dims (axes.map Int.ofNat) = .ok (some (collapse none false axes dims)) := by
  have hlt : ∀ a ∈ axes, a < dims.length := fun a ha => (List.getElem?_eq_some_iff.mp (h a ha)).1
  have hcollapse : collapse none false ((List.range dims.length).filter axes.contains) dims =
      collapse none false axes dims :=
    collapse_congr fun i hi => by rw [Bool.eq_iff_iff]; simp [hi]
  rw [squeeze, if_neg (by simpa using hne)]
  refine bind_eq_ok.mpr ⟨_, resolveAxes_natCast hlt, bind_eq_ok.mpr ⟨(), ?_, ?_⟩⟩
  · simp only [List.forM_eq_forM, forM_eq_ok]
    intro a ha
    have hmem : a ∈ axes := by simpa using (List.mem_filter.mp ha).2
    rw [h a hmem]
    exact if_pos rfl
  · rw [hcollapse]
    rfl

theorem insertOnes_mono {one : Option Nat} (axes positions : List Nat)
    {dims dims' : List (Option Nat)} (h : FinerDims dims dims') :
    FinerDims (insertOnes one axes positions dims) (insertOnes one axes positions dims') := by
  induction positions generalizing dims dims' with
  | nil => exact .nil
  | cons position positions ih =>
    unfold insertOnes
    split
    · exact .cons (Finer.refl one) (ih h)
    · cases h with
      | nil => exact ih .nil
      | cons hd h => exact .cons hd (ih h)

theorem insertOnes_map {α β : Type} (f : α → β) (one : α) (axes positions : List Nat)
    (dims : List α) : insertOnes (f one) axes positions (dims.map f) =
      (insertOnes one axes positions dims).map f := by
  induction positions generalizing dims with
  | nil => rfl
  | cons position positions ih =>
    unfold insertOnes
    split
    · rw [ih, List.map_cons]
    · cases dims with
      | nil => exact ih []
      | cons dim dims => exact congrArg (f dim :: ·) (ih dims)

theorem unsqueeze_eq_ok {α : Type} {one : α} {dims dims' : List α} {axes : List Int} :
    unsqueeze one dims axes = .ok dims' ↔
      ∃ positions, resolveAxes axes (dims.length + axes.length) = .ok positions ∧
        positions.length = axes.length ∧
        dims' = insertOnes one positions (List.range (dims.length + axes.length)) dims := by
  simp only [unsqueeze, bind_eq_ok]
  refine exists_congr fun positions => and_congr_right fun _ => ?_
  split <;> simp_all [eq_comm]

theorem unsqueeze_mono {one : Option Nat} {axes : List Int} {dims dims' rest : List (Option Nat)}
    (h : FinerDims dims dims') (hok : unsqueeze one dims axes = .ok rest) :
    ∃ rest', unsqueeze one dims' axes = .ok rest' ∧ FinerDims rest rest' := by
  obtain ⟨positions, hp, hlen, rfl⟩ := unsqueeze_eq_ok.mp hok
  rw [h.length_eq] at hp ⊢
  exact ⟨_, unsqueeze_eq_ok.mpr ⟨positions, hp, hlen, rfl⟩, insertOnes_mono _ _ h⟩

theorem unsqueeze_map {α β : Type} (f : α → β) {one : α} {axes : List Int} {dims rest : List α}
    (h : unsqueeze one dims axes = .ok rest) :
    unsqueeze (f one) (dims.map f) axes = .ok (rest.map f) := by
  obtain ⟨positions, hp, hlen, rfl⟩ := unsqueeze_eq_ok.mp h
  rw [unsqueeze_eq_ok, List.length_map]
  exact ⟨positions, hp, hlen, (insertOnes_map ..).symm⟩

/-! ## Reshaping -/

/-- An entry of a target as it is read against data of which more is known. -/
inductive TargetEntry.Refines : TargetEntry → TargetEntry → Prop where
  | inferred : Refines .inferred .inferred
  | size {dim dim' : Option Nat} : Finer dim dim' → Refines (.size dim) (.size dim')

/-- One entry of a target, read against the data. -/
def readEntry (data : Option (List (Option Nat))) (specialZero : Bool) (axis : Nat)
    (inferred : Bool) (entry : Int) : Except Error TargetEntry :=
  if entry = -1 then
    if inferred then .error (.shape .inferredTwice) else .ok .inferred
  else if entry = 0 ∧ specialZero then
    match data with
    | none => .ok (.size none)
    | some dims =>
      match dims[axis]? with
      | none => .error (.shape (.copiedAxis axis))
      | some dim => .ok (.size dim)
  else (TargetEntry.size ∘ some) <$> sizeOfInt entry

/-- A target is read entry by entry. -/
theorem readTarget_cons (data : Option (List (Option Nat))) (specialZero : Bool) (axis : Nat)
    (inferred : Bool) (entry : Int) (target : List Int) :
    readTarget data specialZero axis inferred (entry :: target) = (do
      let first ← readEntry data specialZero axis inferred entry
      let rest ← readTarget data specialZero (axis + 1) (inferred || entry = -1) target
      return first :: rest) := by
  rw [readTarget.eq_def, readEntry.eq_def]
  dsimp only
  by_cases he : entry = -1
  · cases inferred <;> simp [he]
  · by_cases hz : entry = 0 ∧ specialZero = true
    · rw [if_neg he, if_neg he, if_pos hz, if_pos hz]
      cases data with
      | none => simp [he]
      | some dims => cases hd : dims[axis]? <;> simp [he, hd]
    · rw [if_neg he, if_neg he, if_neg hz, if_neg hz]
      cases sizeOfInt entry <;> simp [he]

theorem readTarget_cons_eq_ok {data : Option (List (Option Nat))} {specialZero : Bool} {axis : Nat}
    {inferred : Bool} {entry : Int} {target : List Int} {entries : List TargetEntry} :
    readTarget data specialZero axis inferred (entry :: target) = .ok entries ↔
      ∃ first, readEntry data specialZero axis inferred entry = .ok first ∧
        ∃ rest, readTarget data specialZero (axis + 1) (inferred || entry = -1) target = .ok rest ∧
          first :: rest = entries := by
  simp only [readTarget_cons, bind_eq_ok, pure_eq_ok, Except.ok.injEq]

theorem readEntry_mono {data data' : Option (List (Option Nat))} (h : FinerShape data data')
    {specialZero : Bool} {axis : Nat} {inferred : Bool} {entry : Int} {read : TargetEntry}
    (hok : readEntry data specialZero axis inferred entry = .ok read) :
    ∃ read', readEntry data' specialZero axis inferred entry = .ok read' ∧ read.Refines read' := by
  unfold readEntry at hok ⊢
  by_cases he : entry = -1
  · rw [if_pos he] at hok ⊢
    cases inferred with
    | true => cases hok
    | false =>
      obtain rfl := Except.ok.inj hok
      exact ⟨_, rfl, .inferred⟩
  rw [if_neg he] at hok ⊢
  by_cases hz : entry = 0 ∧ specialZero = true
  · rw [if_pos hz] at hok ⊢
    rcases h.cases with rfl | ⟨dims, dims', rfl, rfl, hd⟩
    · refine ⟨_, rfl, ?_⟩
      split at hok
      · rw [← Except.ok.inj hok]
        exact .size (finer_none _)
      · split at hok
        · cases hok
        · rw [← Except.ok.inj hok]
          exact .size (finer_none _)
    · dsimp only at hok ⊢
      split at hok
      · cases hok
      · rename_i dim hdim
        obtain ⟨dim', hdim', hf⟩ := getElem?_of_forall₂ hd hdim
        rw [hdim', ← Except.ok.inj hok]
        exact ⟨_, rfl, .size hf⟩
  · rw [if_neg hz] at hok ⊢
    obtain ⟨size, -, rfl⟩ := map_eq_ok.mp hok
    exact ⟨_, hok, .size (Finer.refl _)⟩

theorem readTarget_mono {data data' : Option (List (Option Nat))} (h : FinerShape data data')
    {specialZero : Bool} {target : List Int} {axis : Nat} {inferred : Bool}
    {entries : List TargetEntry}
    (hok : readTarget data specialZero axis inferred target = .ok entries) :
    ∃ entries', readTarget data' specialZero axis inferred target = .ok entries' ∧
      List.Forall₂ TargetEntry.Refines entries entries' := by
  induction target generalizing axis inferred entries with
  | nil => exact ⟨[], rfl, by rw [← Except.ok.inj hok]; exact .nil⟩
  | cons entry target ih =>
    obtain ⟨first, hf, rest, hr, rfl⟩ := readTarget_cons_eq_ok.mp hok
    obtain ⟨first', hf', hfirst⟩ := readEntry_mono h hf
    obtain ⟨rest', hr', hrest⟩ := ih hr
    exact ⟨_, readTarget_cons_eq_ok.mpr ⟨first', hf', rest', hr', rfl⟩, .cons hfirst hrest⟩

theorem length_readTarget {data : Option (List (Option Nat))} {specialZero inferred : Bool}
    {axis : Nat} {target : List Int} {entries : List TargetEntry}
    (h : readTarget data specialZero axis inferred target = .ok entries) :
    entries.length = target.length := by
  induction target generalizing axis inferred entries with
  | nil => rw [← Except.ok.inj h]; rfl
  | cons entry target ih =>
    obtain ⟨first, -, rest, hr, rfl⟩ := readTarget_cons_eq_ok.mp h
    rw [List.length_cons, List.length_cons, ih hr]

theorem knownProduct?_mono {dims dims' : List (Option Nat)} (h : FinerDims dims dims') {n : Nat}
    (hn : knownProduct? dims' = some n) : knownProduct? dims = some n := by
  unfold knownProduct? at hn ⊢
  obtain ⟨sizes, hs, rfl⟩ := Option.map_eq_some_iff.mp hn
  rw [mapM_id_eq_some.mp hs, finerDims_map_some] at h
  rw [mapM_id_eq_some.mpr h, Option.map_some]

theorem TargetEntry.Refines.isInferred {entry entry' : TargetEntry} (h : entry.Refines entry') :
    entry.isInferred = entry'.isInferred := by
  cases h <;> rfl

theorem TargetEntry.Refines.dim {entry entry' : TargetEntry} (h : entry.Refines entry')
    {fill fill' : Option Nat} (hf : Finer fill fill') :
    Finer (entry.dim fill) (entry'.dim fill') := by
  cases h with
  | inferred => exact hf
  | size hd => exact hd

section Entries

variable {entries entries' : List TargetEntry}
  (h : List.Forall₂ TargetEntry.Refines entries entries')
include h

theorem any_isInferred_congr :
    entries.any TargetEntry.isInferred = entries'.any TargetEntry.isInferred := by
  induction h with
  | nil => rfl
  | cons he _ ih => rw [List.any_cons, List.any_cons, he.isInferred, ih]

theorem map_dim_mono {fill fill' : Option Nat} (hf : Finer fill fill') :
    FinerDims (entries.map (TargetEntry.dim fill)) (entries'.map (TargetEntry.dim fill')) := by
  simp only [List.forall₂_map_left_iff, List.forall₂_map_right_iff]
  exact h.imp fun entry entry' he => he.dim hf

theorem filterMap_size?_mono :
    FinerDims (entries.filterMap TargetEntry.size?) (entries'.filterMap TargetEntry.size?) := by
  refine List.rel_filterMap (fun entry entry' he => ?_) h
  cases he with
  | inferred => exact .none
  | size hd => exact .some hd

end Entries

/-- A reshape that succeeds reads the target and fills in one size for the inferred entry. -/
theorem exists_of_reshape_eq_ok {data : Option (List (Option Nat))} {target : List Int}
    {specialZero : Bool} {dims : List (Option Nat)}
    (h : reshape data target specialZero = .ok dims) : ∃ entries fill,
      readTarget data specialZero 0 false target = .ok entries ∧
        dims = entries.map (TargetEntry.dim fill) := by
  obtain ⟨entries, he, h⟩ := bind_eq_ok.mp h
  dsimp only at h
  split at h
  · split at h
    · split at h
      · cases h
      · exact ⟨entries, _, he, (Except.ok.inj h).symm⟩
    · split at h
      · cases h
      · exact ⟨entries, _, he, (Except.ok.inj h).symm⟩
  · exact ⟨entries, _, he, (Except.ok.inj h).symm⟩

theorem reshape_mono {data data' : Option (List (Option Nat))} (h : FinerShape data data')
    {target : List Int} {specialZero : Bool} {dims : List (Option Nat)}
    (hok : reshape data target specialZero = .ok dims) :
    ∃ dims', reshape data' target specialZero = .ok dims' ∧ FinerDims dims dims' := by
  obtain ⟨entries, fill, he, rfl⟩ := exists_of_reshape_eq_ok hok
  obtain ⟨entries', he', hent⟩ := readTarget_mono h he
  unfold reshape at hok ⊢
  rw [he, ok_bind] at hok
  rw [he', ok_bind]
  dsimp only at hok ⊢
  split
  · -- The coarse numbers of elements are known, so the fine ones are the same.
    rename_i elements known hel hkn
    obtain ⟨d', hd', hp'⟩ := Option.bind_eq_some_iff.mp hel
    obtain ⟨d, hd, hdd⟩ := h d' hd'
    have hel' : data.bind knownProduct? = some elements := by
      rw [hd, Option.bind_some, knownProduct?_mono hdd hp']
    have hkn' := knownProduct?_mono (filterMap_size?_mono hent) hkn
    rw [hel', hkn'] at hok
    dsimp only at hok
    rw [any_isInferred_congr hent] at hok
    split at hok
    · rename_i hinf
      rw [if_pos hinf]
      split at hok
      · cases hok
      · rename_i hdiv
        rw [if_neg hdiv, ← Except.ok.inj hok]
        exact ⟨_, rfl, map_dim_mono hent (Finer.refl _)⟩
    · rename_i hinf
      rw [if_neg hinf]
      split at hok
      · cases hok
      · rename_i heq
        rw [if_neg heq, ← Except.ok.inj hok]
        exact ⟨_, rfl, map_dim_mono hent (Finer.refl _)⟩
  · exact ⟨_, rfl, map_dim_mono hent (finer_none _)⟩

/-- A target lists one size for each axis of the result. -/
theorem length_reshape {data : Option (List (Option Nat))} {target : List Int} {specialZero : Bool}
    {dims : List (Option Nat)} (h : reshape data target specialZero = .ok dims) :
    dims.length = target.length := by
  obtain ⟨entries, fill, he, rfl⟩ := exists_of_reshape_eq_ok h
  rw [List.length_map, length_readTarget he]

theorem readTarget_natCast (data : Option (List (Option Nat))) (axis : Nat) (inferred : Bool)
    (target : List Nat) : readTarget data false axis inferred (target.map Int.ofNat) =
      .ok (target.map fun size => .size (some size)) := by
  induction target generalizing axis inferred with
  | nil => rfl
  | cons size target ih =>
    have hentry : readEntry data false axis inferred (Int.ofNat size) = .ok (.size (some size)) := by
      have hne : Int.ofNat size ≠ -1 := nofun
      have hcopied : ¬(Int.ofNat size = 0 ∧ false = true) := nofun
      rw [readEntry.eq_def, if_neg hne, if_neg hcopied]
      rfl
    exact readTarget_cons_eq_ok.mpr ⟨_, hentry, _, ih .., rfl⟩

theorem knownProduct?_map_some (sizes : List Nat) :
    knownProduct? (sizes.map some) = some (Word.unsigned (volume sizes)) := by
  rw [knownProduct?, mapM_id_eq_some.mpr rfl, Option.map_some]

/-- A target of sizes is reached where it has as many elements. -/
theorem reshape_natCast {sizes target : List Nat} (h : volume target = volume sizes) :
    reshape (some (sizes.map some)) (target.map Int.ofNat) false = .ok (target.map some) := by
  have hsizes : (target.map fun size => TargetEntry.size (some size)).filterMap TargetEntry.size? =
      target.map some := by
    simp [List.filterMap_map, Function.comp_def, TargetEntry.size?]
  have hinferred : (target.map fun size => TargetEntry.size (some size)).any
      TargetEntry.isInferred = false := by
    simp [TargetEntry.isInferred]
  simp only [reshape, readTarget_natCast, ok_bind, Option.bind_some, hsizes,
    knownProduct?_map_some, hinferred, h]
  simp [TargetEntry.dim]

end TensorLowering.Shape
