import TensorLowering.Op.Compute
import TensorLowering.Proofs.Shape.Known

/-!
# Axes of size 1 that come and go

Axes of size 1 are put in at positions of the result, and the axes that are taken out are positions
of what they are taken out of. So the same list of axes names the same positions both ways, and
either operation undoes the other (`squeeze_of_unsqueeze`, `unsqueeze_of_squeeze`), on tensors as on
shapes (`unitAxes_inverse`). Only putting in asks for the axes to be named once.
-/

namespace TensorLowering

open Shape

namespace Shape

variable {axes : List Int} {rank : Nat} {named positions : List Nat}

/-- Axes that are put in are taken out again. -/
theorem squeeze_of_unsqueeze {dims dims' : List (Option Nat)} (hne : axes ≠ [])
    (h : unsqueeze (some 1) dims axes = .ok dims') : squeeze dims' axes = .ok (some dims) := by
  obtain ⟨positions, hpositions, hlen, rfl⟩ := unsqueeze_eq_ok.mp h
  have hplaces := length_filter_of_resolveAxes hpositions
  have hfit : ((List.range' 0 (dims.length + axes.length)).filter
      (!positions.contains ·)).length = dims.length := by
    rw [← List.range_eq_range']
    omega
  obtain ⟨hlength, hones, hdims⟩ := insertOnes_range' (some 1) none hfit
  rw [List.range_eq_range', squeeze, if_neg (by simpa using hne), hlength, hpositions, ok_bind]
  refine bind_eq_ok.mpr ⟨(), ?_, congrArg (Except.ok ∘ some) hdims⟩
  simp only [List.forM_eq_forM, forM_eq_ok]
  intro axis haxis
  obtain ⟨named, -, rfl⟩ := resolveAxes_eq_ok.mp hpositions
  have hlt := List.mem_range.mp (List.mem_filter.mp haxis).1
  rw [hones axis hlt (by rwa [Nat.zero_add])]
  exact if_pos rfl

/-- Axes that are named once have as many positions. -/
theorem length_resolveAxes (hnamed : axes.mapM (resolveAxis · rank) = .ok named)
    (hnodup : named.Nodup) (h : resolveAxes axes rank = .ok positions) :
    positions.length = axes.length := by
  rw [resolveAxes, hnamed, ok_bind] at h
  obtain rfl := Except.ok.inj h
  have hresolved := mapM_eq_ok.mp hnamed
  rw [hresolved.length_eq]
  refine ((List.perm_ext_iff_of_nodup (List.nodup_range.filter _) hnodup).mpr fun a => ?_).length_eq
  rw [List.mem_filter, List.mem_range, List.contains_iff_mem]
  refine and_iff_right_of_imp fun ha => ?_
  obtain ⟨axis, -, haxis⟩ := exists_of_forall₂_right hresolved ha
  exact resolveAxis_lt haxis

/-- Axes that are taken out are put in again, if each is named once. -/
theorem unsqueeze_of_squeeze {sizes rest : List Nat} (hne : axes ≠ [])
    (hnamed : axes.mapM (resolveAxis · sizes.length) = .ok named) (hnodup : named.Nodup)
    (h : squeeze (sizes.map some) axes = .ok (some (rest.map some))) :
    unsqueeze 1 rest axes = .ok sizes := by
  obtain ⟨positions, hpositions, hone, hrest⟩ := exists_of_squeeze hne h
  obtain rfl : rest = collapse 1 false positions sizes := eq_of_map_some (Option.some.inj hrest)
  have hlen := length_resolveAxes hnamed hnodup hpositions
  have hplaces := length_filter_of_resolveAxes hpositions
  have hrank : (collapse 1 false positions sizes).length + axes.length = sizes.length := by
    rw [collapse_eq, length_collapseFrom, ← List.range_eq_range', ← hlen]
    exact hplaces
  refine unsqueeze_eq_ok.mpr ⟨positions, hrank ▸ hpositions, hlen, ?_⟩
  rw [hrank, List.range_eq_range']
  exact (insertOnes_collapseFrom hone).symm

end Shape

namespace Tensor

variable {x v : Tensor} {shape : List Nat}

/-- Another shape leaves the elements as they are, so the first shape can be had again. -/
theorem reshape_back (h : x.reshape shape = .ok v) :
    v.shape = shape ∧ v.reshape x.shape = .ok x := by
  obtain ⟨_, rfl⟩ := ofData_eq_ok.mp h
  exact ⟨rfl, ofData_eq_ok.mpr ⟨x.size_data, rfl⟩⟩

theorem squeeze_of_unsqueeze {axes : List Int} (hne : axes ≠ []) (h : unsqueeze axes x = .ok v) :
    squeeze axes v = .ok x := by
  obtain ⟨shape, hshape, h⟩ := bind_eq_ok.mp h
  obtain ⟨rfl, hback⟩ := reshape_back h
  rw [squeeze, Shape.squeeze_of_unsqueeze hne (unsqueeze_map some hshape), ok_bind]
  simpa using hback

theorem unsqueeze_of_squeeze {axes : List Int} {named : List Nat} (hne : axes ≠ [])
    (hnamed : axes.mapM (resolveAxis · x.rank) = .ok named) (hnodup : named.Nodup)
    (h : squeeze axes x = .ok v) : unsqueeze axes v = .ok x := by
  obtain ⟨dims, hdims, h⟩ := bind_eq_ok.mp h
  obtain ⟨rest, rfl⟩ := squeeze_known hdims
  have hreshape : x.reshape rest = .ok v := by simpa using h
  obtain ⟨rfl, hback⟩ := reshape_back hreshape
  rw [unsqueeze, Shape.unsqueeze_of_squeeze hne hnamed hnodup hdims, ok_bind]
  exact hback

end Tensor

namespace Op

/-- Axes of size 1 that are put in by a list of axes are taken out by the same list, of tensors as
of partially known shapes; and those that are taken out are put in, if the list names each of them
once. -/
theorem unitAxes_inverse (axes : List Int) (hne : axes ≠ []) :
    (∀ x v, (unsqueeze axes).compute [x] = .ok v → (squeeze axes).compute [v] = .ok x) ∧
    (∀ x v named, axes.mapM (resolveAxis · x.rank) = .ok named → named.Nodup →
      (squeeze axes).compute [x] = .ok v → (unsqueeze axes).compute [v] = .ok x) ∧
    ∀ dims dims' : List (Option Nat), Shape.unsqueeze (some 1) dims axes = .ok dims' →
      Shape.squeeze dims' axes = .ok (some dims) :=
  ⟨fun _ _ h => Tensor.squeeze_of_unsqueeze hne h,
    fun _ _ _ hnamed hnodup h => Tensor.unsqueeze_of_squeeze hne hnamed hnodup h,
    fun _ _ h => squeeze_of_unsqueeze hne h⟩

/-- The rows `1, 3, 5` and `2, 4, 6`, each element in a column of its own. -/
def elementColumns : Tensor :=
  ⟨.i32, [2, 1, 3, 1], #[1, 3, 5, 2, 4, 6], rfl⟩

/-- The last axis, named from the back, and the second one come and go together. -/
theorem elementColumns_inverse :
    (unsqueeze [-1, 1]).compute [⟨.i32, [2, 3], #[1, 3, 5, 2, 4, 6], rfl⟩] = .ok elementColumns ∧
    (squeeze [-1, 1]).compute [elementColumns] = .ok ⟨.i32, [2, 3], #[1, 3, 5, 2, 4, 6], rfl⟩ ∧
    Shape.squeeze [none, some 1, some 3, some 1] [-1, 1] = .ok (some [none, some 3]) := by
  obtain ⟨hin, hout, hdims⟩ := unitAxes_inverse [-1, 1] (by decide)
  have hsqueezed : (squeeze [-1, 1]).compute [elementColumns] =
      .ok ⟨.i32, [2, 3], #[1, 3, 5, 2, 4, 6], rfl⟩ := by decide +kernel
  have hunsqueezed := hout _ _ [3, 1] rfl (by decide) hsqueezed
  exact ⟨hunsqueezed, hin _ _ hunsqueezed, hdims [none, some 3] _ rfl⟩

end Op

end TensorLowering
