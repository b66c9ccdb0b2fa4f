import TensorLowering.Proofs.Shape.RowMajor

/-!
# Shape rules on known sizes

Where all sizes of the data are known, the rules that move axes or elements give known sizes, and
they keep the number of elements: `reshape_known` for targets with inferred and copied entries,
`squeeze_volume` and `unsqueeze_volume` for axes of size 1 that go and come.
-/

namespace TensorLowering.Shape

variable {sizes shape : List Nat}

theorem exists_of_isFixed {shape : PartialShape} (h : shape.isFixed = true) :
    ∃ sizes, shape = .fixed sizes := by
  cases shape with
  | fixed sizes => exact ⟨sizes, rfl⟩
  | ranked _ => cases h
  | unranked => cases h

theorem eq_of_map_some {sizes' : List Nat} (h : sizes.map some = sizes'.map some) :
    sizes = sizes' :=
  (List.map_inj_right fun _ _ => Option.some.inj).mp h

/-- Known sizes that the partial rule accepts broadcast. -/
theorem exists_broadcast_of_partial {left right : List Nat} {dims : List (Option Nat)}
    (h : broadcastPartial (left.map some) (right.map some) = .ok dims) :
    ∃ result, broadcast left right = .ok result ∧ dims = result.map some := by
  have hb : broadcast left right = .ok (dims.filterMap id) := by
    rw [broadcast, h]
    rfl
  exact ⟨_, hb, Except.ok.inj (h.symm.trans (broadcast_eq_ok hb))⟩

/-! ## Reshaping -/

/-- An entry that is read against known sizes is a known size, unless it is inferred; and only one
entry is. -/
theorem readEntry_known {specialZero inferred : Bool} {axis : Nat} {entry : Int} {read : TargetEntry}
    (h : readEntry (some (sizes.map some)) specialZero axis inferred entry = .ok read) :
    (read = .inferred ∧ entry = -1 ∧ inferred = false) ∨
      ∃ n, read = .size (some n) ∧ entry ≠ -1 := by
  unfold readEntry at h
  by_cases he : entry = -1
  · rw [if_pos he] at h
    cases inferred with
    | true => cases h
    | false => exact .inl ⟨(Except.ok.inj h).symm, he, rfl⟩
  · rw [if_neg he] at h
    refine .inr ?_
    by_cases hz : entry = 0 ∧ specialZero = true
    · rw [if_pos hz] at h
      cases hd : (sizes.map some)[axis]? with
      | none => simp [hd] at h
      | some dim =>
        obtain ⟨n, -, rfl⟩ := Option.map_eq_some_iff.mp ((List.getElem?_map ..).symm.trans hd)
        simp only [hd] at h
        exact ⟨n, (Except.ok.inj h).symm, he⟩
    · rw [if_neg hz] at h
      obtain ⟨n, -, rfl⟩ := map_eq_ok.mp h
      exact ⟨n, rfl, he⟩

/-- What is read against known sizes: known sizes, and at most one entry that is inferred, which
takes its part of the elements. -/
theorem readTarget_known {specialZero inferred : Bool} {axis : Nat} {target : List Int}
    {entries : List TargetEntry}
    (h : readTarget (some (sizes.map some)) specialZero axis inferred target = .ok entries) :
    (inferred = true → entries.any TargetEntry.isInferred = false) ∧
      ∃ known : List Nat, entries.filterMap TargetEntry.size? = known.map some ∧
        ∀ n, ∃ shape : List Nat, entries.map (TargetEntry.dim (some n)) = shape.map some ∧
          volume shape =
            volume known * if entries.any TargetEntry.isInferred = true then n else 1 := by
  induction target generalizing axis inferred entries with
  | nil =>
    obtain rfl := Except.ok.inj h
    exact ⟨fun _ => rfl, [], rfl, fun _ => ⟨[], rfl, rfl⟩⟩
  | cons entry target ih =>
    obtain ⟨first, hf, rest, hr, rfl⟩ := readTarget_cons_eq_ok.mp h
    obtain ⟨hinferred, known, hknown, hfill⟩ := ih hr
    rcases readEntry_known hf with ⟨rfl, rfl, rfl⟩ | ⟨k, rfl, hne⟩
    · have hrest := hinferred rfl
      refine ⟨nofun, known, hknown, fun n => ?_⟩
      obtain ⟨shape, hshape, hvolume⟩ := hfill n
      refine ⟨n :: shape, congrArg (some n :: ·) hshape, ?_⟩
      rw [hrest, if_neg Bool.false_ne_true, Nat.mul_one] at hvolume
      simp [TargetEntry.isInferred, hvolume, Nat.mul_comm]
    · refine ⟨fun hi => ?_, k :: known, congrArg (some k :: ·) hknown, fun n => ?_⟩
      · simpa [TargetEntry.isInferred] using hinferred (by simp [hi])
      · obtain ⟨shape, hshape, hvolume⟩ := hfill n
        refine ⟨k :: shape, congrArg (some k :: ·) hshape, ?_⟩
        simp [TargetEntry.isInferred, hvolume, Nat.mul_assoc]

/-- Where no entry is inferred, it does not matter what an inferred one would be. -/
theorem map_dim_congr {entries : List TargetEntry} {fill fill' : Option Nat}
    (h : entries.any TargetEntry.isInferred = false) :
    entries.map (TargetEntry.dim fill) = entries.map (TargetEntry.dim fill') := by
  refine List.map_congr_left fun entry hentry => ?_
  have := List.any_eq_false.mp h entry hentry
  cases entry with
  | inferred => exact absurd rfl this
  | size dim => rfl

/-- Known data is reshaped to known sizes, and as far as words can count them all elements find a
place. -/
theorem reshape_known {target : List Int} {specialZero : Bool} {dims : List (Option Nat)}
    (h : reshape (some (sizes.map some)) target specialZero = .ok dims) : ∃ shape : List Nat,
      dims = shape.map some ∧ Word.unsigned (volume shape) = Word.unsigned (volume sizes) := by
  obtain ⟨entries, hentries, h⟩ := bind_eq_ok.mp h
  obtain ⟨-, known, hknown, hfill⟩ := readTarget_known hentries
  simp only [Option.bind_some, hknown, knownProduct?_map_some] at h
  by_cases hany : entries.any TargetEntry.isInferred = true
  · rw [if_pos hany] at h
    split at h
    · cases h
    · rename_i hdiv
      obtain ⟨shape, hshape, hvolume⟩ :=
        hfill (Word.unsigned (volume sizes) / Word.unsigned (volume known))
      rw [if_pos hany] at hvolume
      refine ⟨shape, (Except.ok.inj h).symm.trans hshape, ?_⟩
      have hmod : Word.unsigned (volume sizes) % Word.unsigned (volume known) = 0 := by
        by_contra hne
        exact hdiv (.inr hne)
      rw [hvolume, ← Word.unsigned_unsigned_mul, Nat.mul_div_cancel' (Nat.dvd_of_mod_eq_zero hmod),
        Word.unsigned_unsigned]
  · rw [if_neg hany] at h
    split at h
    · cases h
    · rename_i heq
      obtain ⟨shape, hshape, hvolume⟩ := hfill 0
      rw [if_neg hany, Nat.mul_one] at hvolume
      refine ⟨shape, ?_, hvolume ▸ not_not.mp heq⟩
      rw [← Except.ok.inj h, map_dim_congr (eq_false_of_ne_true hany)]
      exact hshape

/-! ## Axes of size 1 -/

theorem volume_filter_ne_one (sizes : List Nat) : volume (sizes.filter (· != 1)) = volume sizes := by
  induction sizes with
  | nil => rfl
  | cons size sizes ih =>
    by_cases h : size = 1
    · simp [h, ih]
    · simp [h, ih]

/-- Listed axes of known sizes go if they are of size 1. -/
theorem exists_of_squeeze {axes : List Int} {rest : Option (List (Option Nat))} (hne : axes ≠ [])
    (h : squeeze (sizes.map some) axes = .ok rest) :
    ∃ positions, resolveAxes axes sizes.length = .ok positions ∧
      (∀ i size, sizes[i]? = some size → 0 + i ∈ positions → size = 1) ∧
      rest = some ((collapse 1 false positions sizes).map some) := by
  rw [squeeze, if_neg (by simpa using hne), List.length_map] at h
  simp only [bind_eq_ok, pure_eq_ok, Except.ok.injEq, exists_unit, List.forM_eq_forM,
    forM_eq_ok] at h
  obtain ⟨positions, hpositions, hone, rfl⟩ := h
  refine ⟨positions, hpositions, fun i size hsize hi => ?_,
    congrArg some (collapse_map some (by simp) ..)⟩
  have hcheck := hone i (by simpa using hi)
  simp only [List.getElem?_map, hsize, Option.map_some] at hcheck
  by_contra hne
  rw [if_neg hne] at hcheck
  cases hcheck

/-- Known data keeps its elements when axes of size 1 go. -/
theorem squeeze_volume {axes : List Int} {rest : Option (List (Option Nat))}
    (h : squeeze (sizes.map some) axes = .ok rest) :
    ∃ shape : List Nat, rest = some (shape.map some) ∧ volume shape = volume sizes := by
  by_cases hne : axes = []
  · rw [squeeze, hne, if_pos List.isEmpty_nil, if_neg (by simp)] at h
    obtain rfl := Except.ok.inj h
    refine ⟨sizes.filter (· != 1), congrArg some ?_, volume_filter_ne_one sizes⟩
    rw [List.filter_map]
    rfl
  · obtain ⟨positions, -, hone, rfl⟩ := exists_of_squeeze hne h
    refine ⟨collapse 1 false positions sizes, rfl, ?_⟩
    rw [collapse_eq, ← length_walk, ← length_walk, walk_collapseFrom hone, List.length_map]

/-- Each of the dims finds a place among the positions that are not taken by a one. -/
theorem volume_insertOnes (axes positions : List Nat)
    (h : sizes.length ≤ (positions.filter (!axes.contains ·)).length) :
    volume (insertOnes 1 axes positions sizes) = volume sizes := by
  induction positions generalizing sizes with
  | nil =>
    obtain rfl := List.length_eq_zero_iff.mp (Nat.le_zero.mp h)
    rfl
  | cons position positions ih =>
    unfold insertOnes
    by_cases hp : axes.contains position = true
    · rw [if_pos hp, volume_cons, Nat.one_mul]
      refine ih ?_
      rwa [List.filter_cons_of_neg (by simpa using hp)] at h
    · rw [if_neg hp]
      rw [List.filter_cons_of_pos (by simpa using hp), List.length_cons] at h
      cases sizes with
      | nil => exact ih (Nat.zero_le _)
      | cons size sizes => rw [volume_cons, volume_cons, ih (Nat.succ_le_succ_iff.mp h)]

/-- Each position of the result is for one of the axes or for one of the dims. -/
theorem length_filter_of_resolveAxes {axes : List Int} {rank : Nat} {positions : List Nat}
    (h : resolveAxes axes rank = .ok positions) :
    ((List.range rank).filter (!positions.contains ·)).length + positions.length = rank := by
  obtain ⟨named, -, rfl⟩ := resolveAxes_eq_ok.mp h
  set positions := (List.range rank).filter named.contains
  have hsame : (List.range rank).filter positions.contains = positions :=
    List.filter_congr fun i hi => by rw [Bool.eq_iff_iff]; simp [positions, List.mem_range.mp hi]
  have hsplit : (List.range rank).length = _ := List.length_eq_length_filter_add positions.contains
  rw [hsame, List.length_range] at hsplit
  omega

/-- Known data keeps its elements when axes of size 1 are put in. -/
theorem unsqueeze_volume {axes : List Int} (h : unsqueeze 1 sizes axes = .ok shape) :
    volume shape = volume sizes := by
  obtain ⟨positions, hp, hlen, rfl⟩ := unsqueeze_eq_ok.mp h
  have hplaces := length_filter_of_resolveAxes hp
  exact volume_insertOnes positions _ (by omega)

/-- The rule accepts partially known sizes as it does known ones. -/
theorem exists_unsqueeze_of_map {axes : List Int} {rest : List (Option Nat)}
    (h : unsqueeze (some 1) (sizes.map some) axes = .ok rest) :
    ∃ shape : List Nat, unsqueeze 1 sizes axes = .ok shape ∧ rest = shape.map some := by
  obtain ⟨positions, hp, hlen, rfl⟩ := unsqueeze_eq_ok.mp h
  rw [List.length_map] at hp ⊢
  exact ⟨_, unsqueeze_eq_ok.mpr ⟨positions, hp, hlen, rfl⟩, insertOnes_map ..⟩

end TensorLowering.Shape
