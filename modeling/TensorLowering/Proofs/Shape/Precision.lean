import TensorLowering.Proofs.Shape.Rules

/-!
# What partially known shapes stand for

A partially known shape stands for the shapes that match it, and says more than another one if and
only if fewer shapes match it (`finerShape_iff_admits`).

`broadcastPartial` is exact for this reading: it fails just where all shapes that match its
arguments fail to broadcast, and otherwise its result is matched by what they broadcast to and by
nothing else (`broadcastsTo_iff_admits`), so a size that it leaves open takes more than one value
(`broadcastPartial_exact`). Axis by axis this is `finer_iff_of_broadcastSize`. The ones that fill up
the shorter shape are known sizes, which only ones match; so the shapes can be chosen axis by axis
after the alignment.
-/

namespace TensorLowering.Shape

variable {left right dims : List (Option Nat)} {sizes : List Nat}

/-! ## Open sizes -/

/-- The shapes that match sizes are finer than these. -/
theorem admits_ranked {dims : List (Option Nat)} :
    (PartialShape.ranked dims).admits sizes = true ↔ FinerDims (sizes.map some) dims := by
  rw [PartialShape.admits_eq_true, PartialShape.refines_fixed]
  simp [PartialShape.dims?]

/-- The sizes with `n` for each that is open. -/
def fill (n : Nat) (dims : List (Option Nat)) : List Nat :=
  dims.map (·.getD n)

theorem admits_fill (n : Nat) (dims : List (Option Nat)) :
    (PartialShape.ranked dims).admits (fill n dims) = true := by
  rw [admits_ranked, fill, List.map_map]
  induction dims with
  | nil => exact .nil
  | cons dim dims ih => exact .cons (by cases dim <;> simp) ih

theorem getElem?_fill {axis : Nat} (n : Nat) (h : dims[axis]? = some none) :
    (fill n dims)[axis]? = some n := by
  simp [fill, h]

/-- Sizes say more if and only if fewer shapes match them. -/
theorem finerDims_iff_admits {fine coarse : List (Option Nat)} : FinerDims fine coarse ↔
    ∀ sizes, (PartialShape.ranked fine).admits sizes = true →
      (PartialShape.ranked coarse).admits sizes = true := by
  constructor
  · intro h sizes hs
    exact admits_ranked.mpr ((admits_ranked.mp hs).trans h)
  · intro h
    have h₀ := admits_ranked.mp (h _ (admits_fill 0 fine))
    have h₁ := admits_ranked.mp (h _ (admits_fill 1 fine))
    clear h
    induction fine generalizing coarse with
    | nil => exact h₀
    | cons x fine ih =>
      cases coarse with
      | nil => cases h₀
      | cons dim coarse =>
        obtain ⟨hd₀, h₀⟩ := List.forall₂_cons.mp h₀
        obtain ⟨hd₁, h₁⟩ := List.forall₂_cons.mp h₁
        refine .cons (fun n hn => ?_) (ih h₀ h₁)
        -- an open size would match both 0 and 1
        cases x with
        | none =>
          exact absurd (Option.some.inj ((hd₀ n hn).trans (hd₁ n hn).symm)) Nat.zero_ne_one
        | some m => exact hd₀ n hn

/-- The same for shapes whose rank may be open. -/
theorem finerShape_iff_admits {fine coarse : PartialShape} :
    FinerShape fine.dims? coarse.dims? ↔
      ∀ sizes, fine.admits sizes = true → coarse.admits sizes = true := by
  simp only [PartialShape.admits_eq_true, PartialShape.refines_fixed]
  refine ⟨fun h sizes hs => hs.trans h, fun h dims hd => ?_⟩
  rw [hd] at h
  cases hf : fine.dims? with
  | none =>
    -- without a rank, shapes of another rank match as well
    obtain ⟨_, hs, hlen⟩ := h (List.replicate (dims.length + 1) 0)
      (by rw [hf]; exact finerShape_none _) dims rfl
    rw [← Option.some.inj hs] at hlen
    simpa using hlen.length_eq
  | some dims' =>
    refine ⟨dims', rfl, finerDims_iff_admits.mpr fun sizes hs => ?_⟩
    rw [admits_ranked] at hs ⊢
    obtain ⟨_, hs', hdims⟩ := h sizes (by rw [hf]; exact finerShape_some.mpr ⟨_, rfl, hs⟩) dims rfl
    rwa [Option.some.inj hs']

/-- A shape refines another one if fewer shapes match it and it is fixed where the other one is. -/
theorem refines_of_admits {fine coarse : PartialShape}
    (h : ∀ sizes, fine.admits sizes = true → coarse.admits sizes = true)
    (hfixed : coarse.isFixed = true → fine.isFixed = true) : fine.Refines coarse := by
  have hdims := finerShape_iff_admits.mpr h
  cases fine with
  | fixed sizes => exact PartialShape.refines_fixed.mpr hdims
  | ranked dims => exact ⟨hdims, by rintro sizes rfl; cases hfixed rfl⟩
  | unranked => exact ⟨hdims, by rintro sizes rfl; cases hfixed rfl⟩

/-! ## Broadcasting -/

/-- Shapes that match `left` and `right` broadcast to `sizes`. -/
def BroadcastsTo (left right : List (Option Nat)) (sizes : List Nat) : Prop :=
  ∃ ls rs, (PartialShape.ranked left).admits ls = true ∧
    (PartialShape.ranked right).admits rs = true ∧ broadcast ls rs = .ok sizes

/-- On one axis the result allows just what sizes that match the arguments give. -/
theorem finer_iff_of_broadcastSize {x y dim : Option Nat} (h : broadcastSize x y = .ok dim)
    (n : Nat) : Finer (some n) dim ↔ ∃ a b, Finer (some a) x ∧ Finer (some b) y ∧
      broadcastSize (some a) (some b) = .ok (some n) := by
  constructor
  · intro hn
    cases x with
    | none =>
      cases y with
      | none => exact ⟨n, n, finer_none _, finer_none _, broadcastSize_self _⟩
      | some b =>
        -- the open size gives way to a known one, unless that is 1
        by_cases hb : b = 1
        · subst hb
          refine ⟨n, 1, finer_none _, Finer.refl _, ?_⟩
          by_cases h1 : n = 1 <;> simp [broadcastSize, h1]
        · obtain rfl : some b = dim := by simpa [broadcastSize, hb] using h
          exact ⟨b, b, finer_none _, Finer.refl _, by rw [finer_some.mp hn, broadcastSize_self]⟩
    | some a =>
      cases y with
      | none =>
        by_cases ha : a = 1
        · subst ha
          exact ⟨1, n, Finer.refl _, finer_none _, broadcastSize_one _⟩
        · obtain rfl : some a = dim := by simpa [broadcastSize, ha] using h
          exact ⟨a, a, Finer.refl _, finer_none _, by rw [finer_some.mp hn, broadcastSize_self]⟩
      | some b =>
        have hknown : dim.isSome := by
          dsimp only [broadcastSize] at h
          split_ifs at h <;> rw [← Except.ok.inj h] <;> rfl
        obtain ⟨m, rfl⟩ := Option.isSome_iff_exists.mp hknown
        exact ⟨a, b, Finer.refl _, Finer.refl _, by rw [h, finer_some.mp hn]⟩
  · rintro ⟨a, b, ha, hb, hab⟩
    obtain ⟨dim', hd, hf⟩ := broadcastSize_mono ha hb hab
    rwa [Except.ok.inj (h.symm.trans hd)]

/-- What matches a shape that is filled up with ones is itself filled up with ones. -/
theorem exists_of_finer_alignRight {rank : Nat}
    (h : FinerDims (sizes.map some) (alignRight rank dims)) :
    ∃ own : List Nat, FinerDims (own.map some) dims ∧
      alignRight rank (own.map some) = sizes.map some := by
  have hown := List.forall₂_drop_append _ _ _ h
  have hones := List.forall₂_take_append _ _ _ h
  rw [List.length_replicate, ← List.map_drop] at hown
  rw [← List.map_replicate] at hones
  replace hones := finerDims_map_some.mp hones
  rw [List.length_map, List.length_replicate] at hones
  refine ⟨sizes.drop (rank - dims.length), hown, ?_⟩
  rw [alignRight, hown.length_eq, ← List.map_replicate, ← hones, List.map_drop,
    List.take_append_drop]

/-- Sizes that match the result can be traced back to sizes that match the arguments. -/
theorem exists_of_forall₂_broadcastSize {xs ys : List (Option Nat)} (hlen : xs.length = ys.length)
    (h : List.Forall₂ (fun pair dim => broadcastSize pair.1 pair.2 = .ok dim) (List.zip xs ys) dims)
    (hs : FinerDims (sizes.map some) dims) :
    ∃ ls rs : List Nat, FinerDims (ls.map some) xs ∧ FinerDims (rs.map some) ys ∧
      List.Forall₂ (fun pair dim => broadcastSize pair.1 pair.2 = .ok dim)
        (List.zip (ls.map some) (rs.map some)) (sizes.map some) := by
  induction xs generalizing ys dims sizes with
  | nil =>
    rw [List.zip_nil_left] at h
    cases h
    obtain rfl : sizes = [] := by simpa using hs
    obtain rfl := List.length_eq_zero_iff.mp hlen.symm
    exact ⟨[], [], .nil, .nil, .nil⟩
  | cons x xs ih =>
    obtain ⟨y, ys, rfl⟩ := List.exists_cons_of_length_eq_add_one hlen.symm
    rw [List.zip_cons_cons] at h
    obtain ⟨dim, rest, hd, hrest, rfl⟩ := List.forall₂_cons_left_iff.mp h
    cases sizes with
    | nil => cases hs
    | cons n sizes =>
      obtain ⟨hn, hs⟩ := List.forall₂_cons.mp hs
      obtain ⟨a, b, ha, hb, hab⟩ := (finer_iff_of_broadcastSize hd n).mp hn
      obtain ⟨ls, rs, hl, hr, hok⟩ := ih (Nat.succ.inj hlen) hrest hs
      exact ⟨a :: ls, b :: rs, .cons ha hl, .cons hb hr, .cons hab hok⟩

/-- The result of `broadcastPartial` is matched by just what the shapes that match its arguments
broadcast to. -/
theorem broadcastsTo_iff_admits (h : broadcastPartial left right = .ok dims) :
    BroadcastsTo left right sizes ↔ (PartialShape.ranked dims).admits sizes = true := by
  simp only [BroadcastsTo, admits_ranked]
  constructor
  · rintro ⟨ls, rs, hl, hr, hok⟩
    obtain ⟨dims', hd, hf⟩ := broadcastPartial_mono hl hr (broadcast_eq_ok hok)
    rwa [Except.ok.inj (h.symm.trans hd)]
  · intro hs
    obtain ⟨as, bs, ha, hb, hab⟩ := exists_of_forall₂_broadcastSize
      (by rw [length_alignRight (Nat.le_max_left ..), length_alignRight (Nat.le_max_right ..)])
      (broadcastPartial_eq_ok.mp h) hs
    obtain ⟨ls, hl, hls⟩ := exists_of_finer_alignRight ha
    obtain ⟨rs, hr, hrs⟩ := exists_of_finer_alignRight hb
    refine ⟨ls, rs, hl, hr, ?_⟩
    have hok : broadcastPartial (ls.map some) (rs.map some) = .ok (sizes.map some) := by
      rw [broadcastPartial_eq_ok, hl.length_eq, hr.length_eq, hls, hrs]
      exact hab
    simp [broadcast, hok]

/-- `broadcastPartial` fails if and only if all shapes that match its arguments fail to broadcast.
If it succeeds, what such shapes broadcast to matches its result and is all that does, and each size
that it leaves open takes two values among them. -/
theorem broadcastPartial_exact (left right : List (Option Nat)) :
    ((∃ e, broadcastPartial left right = .error e) ↔
      ∀ ls rs, (PartialShape.ranked left).admits ls = true →
        (PartialShape.ranked right).admits rs = true → ∃ e, broadcast ls rs = .error e) ∧
    ∀ dims : List (Option Nat), broadcastPartial left right = .ok dims →
      (∀ sizes, BroadcastsTo left right sizes ↔ (PartialShape.ranked dims).admits sizes = true) ∧
      ∀ axis : Nat, dims[axis]? = some none → ∃ (sizes sizes' : List Nat) (n n' : Nat),
        BroadcastsTo left right sizes ∧ BroadcastsTo left right sizes' ∧
        sizes[axis]? = some n ∧ sizes'[axis]? = some n' ∧ n ≠ n' := by
  refine ⟨⟨?_, fun hfail => ?_⟩, fun dims h => ⟨fun sizes => broadcastsTo_iff_admits h, ?_⟩⟩
  · rintro ⟨e, he⟩ ls rs hl hr
    cases hok : broadcast ls rs with
    | error e' => exact ⟨e', rfl⟩
    | ok sizes =>
      obtain ⟨dims, hd, -⟩ := broadcastPartial_mono (admits_ranked.mp hl) (admits_ranked.mp hr)
        (broadcast_eq_ok hok)
      cases he.symm.trans hd
  · cases h : broadcastPartial left right with
    | error e => exact ⟨e, rfl⟩
    | ok dims =>
      obtain ⟨ls, rs, hl, hr, hok⟩ := (broadcastsTo_iff_admits h).mpr (admits_fill 1 dims)
      obtain ⟨e, he⟩ := hfail ls rs hl hr
      cases he.symm.trans hok
  · intro axis hopen
    exact ⟨fill 0 dims, fill 1 dims, 0, 1, (broadcastsTo_iff_admits h).mpr (admits_fill 0 dims),
      (broadcastsTo_iff_admits h).mpr (admits_fill 1 dims), getElem?_fill 0 hopen,
      getElem?_fill 1 hopen, Nat.zero_ne_one⟩

end TensorLowering.Shape
