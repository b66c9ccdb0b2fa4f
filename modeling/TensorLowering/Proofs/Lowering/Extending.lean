import TensorLowering.Proofs.Lowering.Preparing
import TensorLowering.Proofs.Tensor.Scatter

/-!
# Conditions with further axes

A condition in the older form has the leading axes of the branches only. The operations before its
reshape come to its sizes and as many ones as it has axes less (`exists_extendedShape?`), so it gets
axes of size 1 at the end and keeps its elements, and with more axes than the branches it is not
extended at all (`extended?_eq_some`). Ranks and sizes are counted in 64-bit integers on the way.
-/

namespace TensorLowering

open Shape

namespace Shape

/-- The rank and the sizes are signed 64-bit integers. -/
structure InWords (shape : List Nat) : Prop where
  rank : shape.length < 9223372036854775808
  sizes : ∀ n ∈ shape, n < 9223372036854775808

end Shape

namespace Tensor

variable {t : Tensor} {e : ElementType} {shape : List Nat} {f : List Nat → e.Carrier}

/-- The same elements in a shape that is listed in a tensor. -/
theorem reshapeTo_of_ints {target : Tensor} {sizes : List Nat}
    (hints : target.ints = .ok (sizes.map Int.ofNat)) (h : volume sizes = volume t.shape) :
    t.reshapeTo false target = t.reshape sizes := by
  have hsizes : (sizes.map some).mapM id = some sizes := mapM_id_eq_some.mpr rfl
  simp only [reshapeTo, hints, ok_bind, reshape_natCast h, hsizes]

theorem convert_self (t : Tensor) : t.convert t.elementType = t := by
  obtain ⟨e, shape, data, hsize⟩ := t
  have hid : e.convert e = id := funext fun x => dif_pos rfl
  simp [convert, hid]

/-- The tensor with further axes of size 1 at the end. -/
def withOnes (n : Nat) (t : Tensor) : Tensor where
  elementType := t.elementType
  shape := t.shape ++ List.replicate n 1
  data := t.data
  size_data := by rw [volume_append_ones, t.size_data]

theorem reshape_eq_withOnes (n : Nat) (t : Tensor) :
    t.reshape (t.shape ++ List.replicate n 1) = .ok (t.withOnes n) :=
  dif_pos (t.withOnes n).size_data

theorem withOnes_tabulate (n : Nat) : (tabulate e shape f).withOnes n =
    tabulate e (shape ++ List.replicate n 1) fun c => f (c.take shape.length) :=
  Except.ok.inj ((reshape_eq_withOnes n _).symm.trans (reshape_ones n))

end Tensor

namespace Lowering

variable {t u v r : Tensor}

theorem shapeVector_eq (t : Tensor) : shapeVector t = .ofInts (t.shape.map Int.ofNat) :=
  Tensor.convert_self (.ofInts _)

/-- A vector of one integer. -/
theorem ofInts_singleton (n : Int) : Tensor.ofInts [n] = .tabulate .i64 [1] fun _ => n.toInt64 := rfl

theorem subtract_ofInts (m n : Int) :
    Op.subtract.compute [.ofInts [m], .ofInts [n]] = .ok (.ofInts [m - n]) := by
  have hsub : m.toInt64 - n.toInt64 = (m - n).toInt64 := (Int64.ofInt_sub m n).symm
  simp only [ofInts_singleton, ← hsub]
  exact Tensor.arithmetic_tabulate (e := .i64) rfl Arithmetic.sub

theorem missing?_eq (t u : Tensor) :
    missing? t u = some (.ofInts [u.shape.length - t.shape.length]) := by
  have hrank (t : Tensor) : shapeVector (shapeVector t) = .ofInts [t.shape.length] := by
    rw [shapeVector_eq, shape_shapeVector]
    rfl
  rw [missing?, hrank, hrank, Op.result?_two, subtract_ofInts]
  rfl

theorem ones?_eq_some (ht : t.shape.length < 9223372036854775808)
    (hu : u.shape.length < 9223372036854775808) : ones? t u = some v ↔
      t.shape.length ≤ u.shape.length ∧
        v = .ofInts (List.replicate (u.shape.length - t.shape.length) 1) := by
  -- The difference of two ranks may be negative, but it is still a word, and so it is exact.
  have hints : (Tensor.ofInts [(u.shape.length : Int) - t.shape.length]).ints =
      .ok [(u.shape.length : Int) - t.shape.length] :=
    congrArg (fun n => Except.ok [n]) (Tensor.toInt_toInt64 (by omega) (by omega))
  have hones (n : Nat) : Tensor.tabulate .i64 [n] (fun _ => (1 : Int).toInt64) =
      .ofInts (List.replicate n 1) := by
    simp [Tensor.tabulate, Tensor.ofInts, List.map_const']
  rw [ones?, missing?_eq, Op.result?_two, toOption_eq_some]
  refine Tensor.broadcast_scalar_eq_ok.trans ?_
  rw [hints]
  constructor
  · rintro ⟨sizes, hsizes, rfl⟩
    obtain ⟨n, rfl, hn⟩ : ∃ n, sizes = [n] ∧ (u.shape.length : Int) - t.shape.length = n := by
      obtain _ | ⟨n, _ | _⟩ := sizes <;> simp at hsizes
      exact ⟨n, rfl, hsizes⟩
    obtain rfl : u.shape.length - t.shape.length = n := by omega
    exact ⟨by omega, hones _⟩
  · rintro ⟨hle, rfl⟩
    refine ⟨[u.shape.length - t.shape.length], ?_, (hones _).symm⟩
    simp
    omega

/-- The new shape of a condition lists its sizes and then ones. -/
theorem exists_extendedShape? (ht : InWords t.shape) (hu : u.shape.length < 9223372036854775808)
    (hle : t.shape.length ≤ u.shape.length) : ∃ s, extendedShape? t u = some s ∧
      s.ints = .ok ((t.shape ++ List.replicate (u.shape.length - t.shape.length) 1).map Int.ofNat) := by
  have hones := (ones?_eq_some ht.rank hu).mpr ⟨hle, rfl⟩
  have hvector : (shapeVector t).ints = .ok (t.shape.map Int.ofNat) := by
    rw [shapeVector_eq, Tensor.ints_ofInts ht.sizes]
  obtain ⟨s, hs, -, -, hints⟩ := exists_concat_ofInts (t := shapeVector t) rfl (by simp)
    (List.replicate (u.shape.length - t.shape.length) 1)
  refine ⟨s, by rw [extendedShape?, hones, hs], ?_⟩
  have hmore : (Tensor.ofInts ((List.replicate (u.shape.length - t.shape.length) 1).map
      Int.ofNat)).ints = .ok ((List.replicate (u.shape.length - t.shape.length) 1).map Int.ofNat) :=
    Tensor.ints_ofInts fun n hn => by simp [List.eq_of_mem_replicate hn]
  rw [List.map_replicate] at hmore
  rw [hints _ hvector, List.map_append, List.map_replicate]
  exact congrArg (Except.map _) hmore

/-- A condition with more axes than the branches is not extended, whatever its sizes. -/
theorem length_le_of_extended? (ht : t.shape.length < 9223372036854775808)
    (hu : u.shape.length < 9223372036854775808) (hr : extended? (some t) (some u) = some r) :
    t.shape.length ≤ u.shape.length := by
  obtain ⟨_, s, -, hs, -⟩ := Op.result?_two_eq_some.mp hr
  obtain ⟨_, ones, -, hones, -⟩ := Op.result?_two_eq_some.mp hs
  exact ((ones?_eq_some ht hu).mp hones).1

/-- A condition is extended by as many axes of size 1 as it has axes less. -/
theorem extended?_eq_some (ht : InWords t.shape) (hu : u.shape.length < 9223372036854775808) :
    extended? (some t) (some u) = some r ↔ t.shape.length ≤ u.shape.length ∧
      r = t.withOnes (u.shape.length - t.shape.length) := by
  have hextended (hle : t.shape.length ≤ u.shape.length) : extended? (some t) (some u) =
      some (t.withOnes (u.shape.length - t.shape.length)) := by
    obtain ⟨s, hs, hints⟩ := exists_extendedShape? ht hu hle
    rw [extended?, Option.bind_some, Option.bind_some, hs, Op.result?_two]
    have hreshape : Tensor.reshapeTo false t s = .ok (t.withOnes _) :=
      (Tensor.reshapeTo_of_ints hints (volume_append_ones ..)).trans (Tensor.reshape_eq_withOnes ..)
    exact congrArg Except.toOption hreshape
  constructor
  · intro hr
    have hle := length_le_of_extended? ht.rank hu hr
    exact ⟨hle, Option.some.inj (hr.symm.trans (hextended hle))⟩
  · rintro ⟨hle, rfl⟩
    exact hextended hle

end Lowering

end TensorLowering
