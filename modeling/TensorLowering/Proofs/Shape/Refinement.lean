import TensorLowering.Proofs.Outcome
import TensorLowering.Shape.Partial

/-!
# More known about a shape

`PartialShape.Refines` compares what is known about a shape at two times: everything that the coarse
shape says, the fine one says too. A shape is compared axis by axis (`Finer`, `FinerDims`); a fixed
shape stays one. A tensor has a shape that a partial shape admits if its own shape, which is fixed,
refines it (`refines_fixed`).
-/

namespace TensorLowering

namespace Shape

/-! ## Sizes -/

/-- The size is known wherever the coarse one is, and then it is the same. -/
def Finer (fine coarse : Option Nat) : Prop := ∀ n, coarse = some n → fine = some n

@[simp] theorem finer_none (fine : Option Nat) : Finer fine none := fun _ h => by cases h

@[simp] theorem finer_some {fine : Option Nat} {n : Nat} : Finer fine (some n) ↔ fine = some n :=
  ⟨fun h => h n rfl, fun h _ hn => by rw [h, hn]⟩

@[simp] theorem Finer.refl (dim : Option Nat) : Finer dim dim := fun _ h => h

theorem Finer.trans {fine middle coarse : Option Nat} (h : Finer fine middle)
    (h' : Finer middle coarse) : Finer fine coarse := fun n hn => h n (h' n hn)

/-! ## Lists of sizes -/

/-- The ranks agree, and on each axis the size is known wherever the coarse one is. -/
abbrev FinerDims (fine coarse : List (Option Nat)) : Prop := List.Forall₂ Finer fine coarse

@[simp] theorem FinerDims.refl (dims : List (Option Nat)) : FinerDims dims dims :=
  List.forall₂_same.mpr fun dim _ => Finer.refl dim

theorem FinerDims.trans {fine middle coarse : List (Option Nat)} (h : FinerDims fine middle)
    (h' : FinerDims middle coarse) : FinerDims fine coarse := by
  induction h generalizing coarse with
  | nil => exact h'
  | cons hd _ ih =>
    cases h' with
    | cons hd' h' => exact .cons (hd.trans hd') (ih h')

/-- Nothing is finer than sizes that are all known. -/
@[simp] theorem finerDims_map_some {fine : List (Option Nat)} {sizes : List Nat} :
    FinerDims fine (sizes.map some) ↔ fine = sizes.map some := by
  refine ⟨fun h => ?_, fun h => h ▸ FinerDims.refl _⟩
  induction sizes generalizing fine with
  | nil => exact List.forall₂_nil_right_iff.mp h
  | cons size sizes ih =>
    cases h with
    | cons hd h => rw [List.map_cons, ih h, finer_some.mp hd]

/-- Everything of the right rank is finer than sizes that are all open. -/
@[simp] theorem finerDims_replicate_none {fine : List (Option Nat)} {rank : Nat} :
    FinerDims fine (List.replicate rank none) ↔ fine.length = rank := by
  refine ⟨fun h => by simpa using h.length_eq, ?_⟩
  rintro rfl
  induction fine with
  | nil => exact .nil
  | cons dim fine ih => exact .cons (finer_none dim) ih

@[simp] theorem finerDims_map_none {fine dims : List (Option Nat)} :
    FinerDims fine (dims.map fun _ => none) ↔ fine.length = dims.length := by
  rw [List.map_const', finerDims_replicate_none]

/-- A known size is finer than what allows it. -/
theorem finer_iff_all {size : Nat} {dim : Option Nat} :
    Finer (some size) dim ↔ dim.all (· == size) = true := by
  cases dim with
  | none => simp
  | some n => simpa using eq_comm

theorem finerDims_iff_all {sizes : List Nat} {dims : List (Option Nat)} :
    FinerDims (sizes.map some) dims ↔ dims.length = sizes.length ∧
      ∀ pair ∈ List.zip dims sizes, pair.1.all (· == pair.2) = true := by
  induction dims generalizing sizes with
  | nil => cases sizes <;> simp
  | cons dim dims ih =>
    cases sizes with
    | nil => simp
    | cons size sizes =>
      simp only [List.map_cons, List.forall₂_cons, finer_iff_all, List.zip_cons_cons,
        List.forall_mem_cons, List.length_cons, Nat.succ_inj, and_left_comm, ih]

theorem FinerDims.getElem? {fine coarse : List (Option Nat)} (h : FinerDims fine coarse) {i n : Nat}
    (hn : coarse[i]? = some (some n)) : fine[i]? = some (some n) := by
  induction h generalizing i with
  | nil => simp at hn
  | cons hd _ ih =>
    cases i with
    | zero =>
      obtain rfl := Option.some.inj hn
      rw [List.getElem?_cons_zero, finer_some.mp hd]
    | succ i => exact ih hn

/-- Changing one axis to a size that is open forgets only that axis. -/
theorem FinerDims.set_none {fine coarse : List (Option Nat)} {axis : Nat}
    (h : fine.length = coarse.length)
    (hne : ∀ i n, i ≠ axis → coarse[i]? = some (some n) → fine[i]? = some (some n)) :
    FinerDims fine (coarse.set axis none) := by
  refine List.forall₂_iff_get.mpr ⟨by simpa using h, fun i hi hi' n hn => ?_⟩
  rw [List.get_eq_getElem, List.getElem_set] at hn
  split at hn
  · cases hn
  · rename_i hia
    have := hne i n (fun e => hia e.symm) (by rw [List.getElem?_eq_getElem (by omega), hn])
    rw [List.getElem?_eq_getElem hi] at this
    exact Option.some.inj this

theorem forall₂_zipIdx {α β : Type} {R : α → β → Prop} {xs : List α} {ys : List β} {k : Nat}
    (h : List.Forall₂ R xs ys) :
    List.Forall₂ (fun x y => R x.1 y.1 ∧ x.2 = y.2) (xs.zipIdx k) (ys.zipIdx k) := by
  induction h generalizing k with
  | nil => exact .nil
  | cons hxy _ ih => exact .cons ⟨hxy, rfl⟩ ih

/-- A relation that does not look at the positions. -/
theorem forall₂_zipIdx_left {α β : Type} {R : α → β → Prop} {xs : List α} {ys : List β} (k : Nat) :
    List.Forall₂ (fun x y => R x.1 y) (xs.zipIdx k) ys ↔ List.Forall₂ R xs ys := by
  induction xs generalizing k ys with
  | nil => simp
  | cons x xs ih => simp only [List.zipIdx_cons, List.forall₂_cons_left_iff, ih]

theorem forall₂_zip {α β α' β' : Type} {R : α → α' → Prop} {S : β → β' → Prop} {xs : List α}
    {xs' : List α'} {ys : List β} {ys' : List β'} (h : List.Forall₂ R xs xs')
    (h' : List.Forall₂ S ys ys') :
    List.Forall₂ (fun p q => R p.1 q.1 ∧ S p.2 q.2) (List.zip xs ys) (List.zip xs' ys') := by
  induction h generalizing ys ys' with
  | nil => exact .nil
  | cons hx _ ih =>
    cases h' with
    | nil => exact .nil
    | cons hy h' => exact .cons ⟨hx, hy⟩ (ih h')

/-! ## Shapes whose rank may be open -/

/-- If the coarse rank is known, so is the fine one, and the sizes compare. -/
def FinerShape (fine coarse : Option (List (Option Nat))) : Prop :=
  ∀ dims, coarse = some dims → ∃ dims', fine = some dims' ∧ FinerDims dims' dims

@[simp] theorem finerShape_none (fine : Option (List (Option Nat))) : FinerShape fine none :=
  fun _ h => by cases h

@[simp] theorem finerShape_some {fine : Option (List (Option Nat))} {dims : List (Option Nat)} :
    FinerShape fine (some dims) ↔ ∃ dims', fine = some dims' ∧ FinerDims dims' dims :=
  ⟨fun h => h dims rfl, fun h _ hd => by obtain rfl := Option.some.inj hd; exact h⟩

@[simp] theorem FinerShape.refl (dims : Option (List (Option Nat))) : FinerShape dims dims :=
  fun d hd => ⟨d, hd, FinerDims.refl d⟩

theorem FinerShape.trans {fine middle coarse : Option (List (Option Nat))}
    (h : FinerShape fine middle) (h' : FinerShape middle coarse) : FinerShape fine coarse :=
  fun dims hd => by
    obtain ⟨dims', hd', hf'⟩ := h' dims hd
    obtain ⟨dims'', hd'', hf''⟩ := h dims' hd'
    exact ⟨dims'', hd'', hf''.trans hf'⟩

/-- Either the coarse rank is open, or both are known. -/
theorem FinerShape.cases {fine coarse : Option (List (Option Nat))} (h : FinerShape fine coarse) :
    coarse = none ∨
      ∃ dims dims', fine = some dims ∧ coarse = some dims' ∧ FinerDims dims dims' := by
  cases coarse with
  | none => exact .inl rfl
  | some dims' =>
    obtain ⟨dims, hd, hf⟩ := h dims' rfl
    exact .inr ⟨dims, dims', hd, rfl, hf⟩

end Shape

open Shape

namespace PartialShape

/-- The fine shape says what the coarse one says, and is fixed where that one is. -/
structure Refines (fine coarse : PartialShape) : Prop where
  dims : FinerShape fine.dims? coarse.dims?
  fixed : ∀ sizes, coarse = .fixed sizes → fine = .fixed sizes

@[simp] theorem Refines.refl (shape : PartialShape) : Refines shape shape :=
  ⟨FinerShape.refl _, fun _ h => h⟩

theorem Refines.trans {fine middle coarse : PartialShape} (h : Refines fine middle)
    (h' : Refines middle coarse) : Refines fine coarse :=
  ⟨h.dims.trans h'.dims, fun sizes hs => h.fixed sizes (h'.fixed sizes hs)⟩

@[simp] theorem refines_unranked (fine : PartialShape) : Refines fine .unranked :=
  ⟨finerShape_none _, fun _ h => by cases h⟩

@[simp] theorem dims?_fixed (sizes : List Nat) : (fixed sizes).dims? = some (sizes.map some) := rfl

@[simp] theorem dims?_ofSizes (dims : List (Option Nat)) : (ofSizes dims).dims? = some dims := by
  unfold ofSizes
  split
  · rename_i sizes h
    rw [dims?, ← mapM_id_eq_some.mp h]
  · rfl

@[simp] theorem dims?_ofDims? (dims : Option (List (Option Nat))) :
    (ofDims? dims).dims? = dims := by
  cases dims with
  | none => rfl
  | some dims => exact dims?_ofSizes dims

@[simp] theorem ofSizes_map_some (sizes : List Nat) : ofSizes (sizes.map some) = fixed sizes := by
  unfold ofSizes
  rw [mapM_id_eq_some.mpr rfl]

theorem rank?_eq (shape : PartialShape) : shape.rank? = shape.dims?.map List.length := by
  cases shape <;> simp [rank?, dims?]

/-- A fixed shape refines whatever it does axis by axis. -/
theorem refines_fixed {sizes : List Nat} {shape : PartialShape} :
    Refines (fixed sizes) shape ↔ FinerShape (some (sizes.map some)) shape.dims? := by
  refine ⟨fun h => h.dims, fun h => ⟨h, ?_⟩⟩
  rintro sizes' rfl
  obtain ⟨dims, hd, hf⟩ := h _ rfl
  obtain rfl := Option.some.inj hd
  rw [(List.map_inj_right fun _ _ => Option.some.inj).mp (finerDims_map_some.mp hf)]

theorem Refines.ofSizes {fine coarse : List (Option Nat)} (h : FinerDims fine coarse) :
    Refines (ofSizes fine) (ofSizes coarse) := by
  refine ⟨by simpa using h, fun sizes hs => ?_⟩
  have hc : coarse = sizes.map some := by
    have := congrArg dims? hs
    simpa using this
  rw [hc, finerDims_map_some] at h
  rw [h, ofSizes_map_some]

theorem Refines.ofDims? {fine coarse : Option (List (Option Nat))} (h : FinerShape fine coarse) :
    Refines (ofDims? fine) (ofDims? coarse) := by
  rcases h.cases with rfl | ⟨dims, dims', rfl, rfl, hd⟩
  · exact refines_unranked _
  · exact .ofSizes hd

variable {fine coarse : PartialShape}

theorem Refines.rank? (h : Refines fine coarse) {rank : Nat} (hr : coarse.rank? = some rank) :
    fine.rank? = some rank := by
  rw [rank?_eq] at hr ⊢
  obtain ⟨dims, hd, rfl⟩ := Option.map_eq_some_iff.mp hr
  obtain ⟨dims', hd', hf⟩ := h.dims dims hd
  rw [hd', Option.map_some, hf.length_eq]

theorem Refines.fixed? (h : Refines fine coarse) {sizes : List Nat}
    (hs : coarse.fixed? = some sizes) : fine.fixed? = some sizes := by
  cases coarse with
  | fixed sizes' =>
    obtain rfl := Option.some.inj hs
    rw [h.fixed _ rfl]
    rfl
  | ranked _ => cases hs
  | unranked => cases hs

theorem Refines.firstSize? (h : Refines fine coarse) {n : Nat} (hn : coarse.firstSize? = some n) :
    fine.firstSize? = some n := by
  unfold PartialShape.firstSize? at hn ⊢
  obtain ⟨dims, hd, hn⟩ := Option.bind_eq_some_iff.mp hn
  obtain ⟨dims', hd', hf⟩ := h.dims dims hd
  rw [List.head?_eq_getElem?, Option.join_eq_some_iff] at hn
  rw [hd', Option.bind_some, List.head?_eq_getElem?, hf.getElem? hn]
  rfl

/-- The shapes that a partial shape stands for are those that refine it. -/
theorem admits_eq_true {shape : PartialShape} {sizes : List Nat} :
    shape.admits sizes = true ↔ Refines (fixed sizes) shape := by
  rw [refines_fixed, admits]
  cases shape.dims? with
  | none => simp
  | some dims =>
    rw [finerShape_some, Bool.and_eq_true, beq_iff_eq, List.all_eq_true]
    simp only [Option.some.injEq, exists_eq_left', finerDims_iff_all]

end PartialShape

end TensorLowering
