import TensorLowering.Proofs.Tensor.Padding
import TensorLowering.Proofs.Tensor.Scatter

/-!
# The slices that rows of indices name

A row of indices names places on the first axes of the data, counted from the back where they are
negative (`Kernel.namedPlaces`). It addresses the slice there if the places are in the data and the
sizes of these axes are signed 64-bit integers as the indices are (`Kernel.rowAddress_eq_ok`). So
scattering fails only where some row does not, or the updates do not fit. Each slice of the result
is the update of the last row that names it, and the slice of the data if there is none
(`scatterNdUpdate_lastRow`).
-/

namespace TensorLowering

open Shape

namespace Shape

/-- The place that an index names on an axis, be it in the axis or not. -/
def namedPlace (index : Int) (size : Nat) : Int :=
  if index < 0 then index + size else index

theorem resolveIndex_eq_ok {index : Int} {size i : Nat} (hsize : size < UInt64.size) :
    resolveIndex index size = .ok i ↔ size < 9223372036854775808 ∧
      (0 ≤ namedPlace index size ∧ namedPlace index size < size) ∧
        i = (namedPlace index size).toNat := by
  rw [resolveIndex_iff, fromBack?_eq_some]
  by_cases hword : size < 9223372036854775808
  · rw [signedSize_of_lt hword, ← namedPlace]
    omega
  · have hneg := signedSize_neg (Nat.le_of_not_lt hword) hsize
    omega

end Shape

/-- The last of the rows that address a slice. -/
theorem getLast?_rowsAt {a : List Nat → List Nat} {batch r slice : List Nat} (hr : Within r batch)
    (har : a r = slice) (hlast : ∀ r', Within r' batch → a r' = slice →
      position r' (strides batch) ≤ position r (strides batch)) :
    (rowsAt a (walk batch) slice).getLast? = some r := by
  have hmem : r ∈ rowsAt a (walk batch) slice :=
    List.mem_filter.mpr ⟨mem_walk.mpr hr, decide_eq_true har⟩
  have hsorted := (pairwise_walk batch).filter (a · = slice)
  obtain hnil | ⟨front, last, hsplit⟩ := (rowsAt a (walk batch) slice).eq_nil_or_concat
  · exact absurd (hnil ▸ hmem) List.not_mem_nil
  rw [List.concat_eq_append] at hsplit
  rw [← rowsAt, hsplit, List.pairwise_append] at hsorted
  rw [hsplit, List.getLast?_concat]
  rcases List.mem_append.mp (hsplit ▸ hmem) with hfront | hend
  · have hlt := hsorted.2.2 r hfront last List.mem_cons_self
    have hlast' : last ∈ rowsAt a (walk batch) slice := by simp [hsplit]
    obtain ⟨hwalk, hname⟩ := List.mem_filter.mp hlast'
    have hle := hlast last (mem_walk.mp hwalk) (of_decide_eq_true hname)
    exact absurd hlt (Nat.not_lt.mpr hle)
  · rw [List.mem_singleton.mp hend]

namespace Kernel

variable {row : List Int} {shape p : List Nat}

/-- The places on the first axes that a row of indices names. -/
def namedPlaces (row : List Int) (shape : List Nat) : List Int :=
  List.zipWith namedPlace row shape

/-- The places that the row names are in the data, and the sizes of their axes are signed 64-bit
integers. -/
structure InData (row : List Int) (shape : List Nat) : Prop where
  inside : Inside (namedPlaces row shape) (shape.take row.length)
  words : ∀ size ∈ shape.take row.length, size < 9223372036854775808

theorem inData_cons {index : Int} {size : Nat} : InData (index :: row) (size :: shape) ↔
    (size < 9223372036854775808 ∧ 0 ≤ namedPlace index size ∧ namedPlace index size < size) ∧
      InData row shape := by
  constructor
  · rintro ⟨hinside, hwords⟩
    obtain ⟨hplace, hinside⟩ := inside_cons.mp hinside
    obtain ⟨hword, hwords⟩ := List.forall_mem_cons.mp hwords
    exact ⟨⟨hword, hplace⟩, hinside, hwords⟩
  · rintro ⟨⟨hword, hplace⟩, hinside, hwords⟩
    exact ⟨inside_cons.mpr ⟨hplace, hinside⟩, List.forall_mem_cons.mpr ⟨hword, hwords⟩⟩

/-- A row addresses the slice at the places that it names. -/
theorem rowAddress_eq_ok (hsizes : ∀ size ∈ shape, size < UInt64.size)
    (hlen : row.length ≤ shape.length) : rowAddress row shape = .ok p ↔
      InData row shape ∧ p = (namedPlaces row shape).map Int.toNat := by
  induction row generalizing shape p with
  | nil =>
    have hdata : InData [] shape := ⟨.nil, nofun⟩
    simp [rowAddress, namedPlaces, hdata, eq_comm]
  | cons index row ih =>
    cases shape with
    | nil => cases hlen
    | cons size shape =>
      rw [List.forall_mem_cons] at hsizes
      rw [rowAddress, bind_eq_ok, inData_cons]
      simp only [resolveIndex_eq_ok hsizes.1, bind_eq_ok, pure_eq_ok, Except.ok.injEq,
        ih hsizes.2 (Nat.le_of_succ_le_succ hlen), namedPlaces, List.zipWith_cons_cons,
        List.map_cons, and_assoc, exists_and_left, exists_eq_left, eq_comm (a := p)]

/-- The places in the data may be given without signs. -/
theorem map_toNat_eq_iff {places : List Int} (h : Inside places shape) :
    places.map Int.toNat = p ↔ places = p.map Int.ofNat := by
  constructor
  · rintro rfl
    rw [List.map_map]
    conv_lhs => rw [← List.map_id places]
    refine List.map_congr_left fun place hplace => ?_
    obtain ⟨size, -, hplace, -⟩ := exists_of_forall₂_left h hplace
    exact (Int.toNat_of_nonneg hplace).symm
  · rintro rfl
    simp [Function.comp_def]

theorem rowAt_congr {index index' : List Nat → Int} {batch r : List Nat} {depth : Nat}
    (h : (walk (batch ++ [depth])).map index = (walk (batch ++ [depth])).map index')
    (hr : Within r batch) : rowAt index depth r = rowAt index' depth r := by
  refine List.map_congr_left fun j hj => ?_
  have hwithin : Within (r ++ [j]) (batch ++ [depth]) :=
    within_append hr (.cons (List.mem_range.mp hj) .nil)
  exact List.map_inj_left.mp h _ (mem_walk.mpr hwithin)

@[simp] theorem length_rowAt (index : List Nat → Int) (depth : Nat) (r : List Nat) :
    (rowAt index depth r).length = depth := by
  simp [rowAt]

end Kernel

namespace Tensor

open Kernel

variable {shape batch : List Nat} {depth : Nat} {rows : Tensor} {index : List Nat → Int}
  {a : List Nat → List Nat}

/-- The rows of a tensor of indices address slices if they name places in the data. -/
theorem addresses_iff (hrows : rows.shape = batch ++ [depth])
    (hints : rows.ints = .ok ((walk (batch ++ [depth])).map index))
    (hsizes : ∀ size ∈ shape, size < UInt64.size) :
    Addresses rows shape batch depth a ↔ depth ≤ shape.length ∧ ∀ r, Within r batch →
      InData (rowAt index depth r) shape ∧
        a r = (namedPlaces (rowAt index depth r) shape).map Int.toNat := by
  constructor
  · rintro ⟨-, hdepth, index', hints', haddress⟩
    have hindex := Except.ok.inj (hints.symm.trans hints')
    refine ⟨hdepth, fun r hr => (rowAddress_eq_ok hsizes (by simpa)).mp ?_⟩
    rw [rowAt_congr hindex hr]
    exact haddress r hr
  · rintro ⟨hdepth, hnames⟩
    exact ⟨hrows, hdepth, index, hints, fun r hr =>
      (rowAddress_eq_ok hsizes (by simpa)).mpr (hnames r hr)⟩

/-- The elements after scattering: a slice that rows name is the update of the last one, and any
other is as it was. -/
structure Scatters (x : Tensor) (batch : List Nat) (depth : Nat) (index : List Nat → Int)
    (u g : List Nat → x.elementType.Carrier) : Prop where
  updated : ∀ r p q, Within r batch → Within (p ++ q) x.shape → p.length = depth →
    namedPlaces (rowAt index depth r) x.shape = p.map Int.ofNat →
    (∀ r', Within r' batch → namedPlaces (rowAt index depth r') x.shape = p.map Int.ofNat →
      position r' (strides batch) ≤ position r (strides batch)) →
    g (p ++ q) = u (r ++ q)
  kept : ∀ p q, Within (p ++ q) x.shape → p.length = depth →
    (∀ r, Within r batch → namedPlaces (rowAt index depth r) x.shape ≠ p.map Int.ofNat) →
    g (p ++ q) = x.entry (p ++ q)

/-- Leaving the last update of each slice is scattering. -/
theorem scatters_lastUpdate {x : Tensor} {u : List Nat → x.elementType.Carrier}
    (hnames : ∀ r, Within r batch → InData (rowAt index depth r) x.shape ∧
      a r = (namedPlaces (rowAt index depth r) x.shape).map Int.toNat) :
    Scatters x batch depth index u (lastUpdate depth a (walk batch) u x.entry) := by
  have haddress {r p : List Nat} (hr : Within r batch) : a r = p ↔
      namedPlaces (rowAt index depth r) x.shape = p.map Int.ofNat := by
    obtain ⟨hdata, hr⟩ := hnames r hr
    rw [hr, map_toNat_eq_iff hdata.inside]
  constructor
  · intro r p q hr hpq hp hname hlast
    have hrows : (rowsAt a (walk batch) p).getLast? = some r :=
      getLast?_rowsAt hr ((haddress hr).mpr hname) fun r' hr' h =>
        hlast r' hr' ((haddress hr').mp h)
    rw [lastUpdate, List.take_left' hp, List.drop_left' hp, hrows]
    rfl
  · intro p q hpq hp hnone
    have hrows : rowsAt a (walk batch) p = [] := List.filter_eq_nil_iff.mpr fun r hr h =>
      hnone r (mem_walk.mp hr) ((haddress (mem_walk.mp hr)).mp (of_decide_eq_true h))
    rw [lastUpdate, List.take_left' hp, hrows]
    rfl

end Tensor

namespace Op

open Kernel Tensor

/-- Scattering replaces the slices that rows of indices name, each by the update of the last row
that names it. It fails only where there are too few axes, the updates do not have the shape of the
slices, or a row names no place in the data. The sizes of the axes that rows name places on have to
be signed 64-bit integers, as the indices are. -/
theorem scatterNdUpdate_lastRow {x indices : Tensor} {batch : List Nat} {depth : Nat}
    {index : List Nat → Int} (given : List Nat) (u : List Nat → x.elementType.Carrier)
    (hindices : indices.shape = batch ++ [depth])
    (hints : indices.ints = .ok ((walk (batch ++ [depth])).map index))
    (hsizes : ∀ size ∈ x.shape, size < UInt64.size) :
    ((∃ v, scatterNdUpdate.compute [x, indices, tabulate x.elementType given u] = .ok v) ↔
      depth ≤ x.rank ∧ given = batch ++ x.shape.drop depth ∧
        ∀ r, Within r batch → InData (rowAt index depth r) x.shape) ∧
    ∀ v, scatterNdUpdate.compute [x, indices, tabulate x.elementType given u] = .ok v →
      ∃ g, v = tabulate x.elementType x.shape g ∧ Scatters x batch depth index u g := by
  have hcompute := @scatter_tabulate_eq_ok x.elementType x.shape indices given x.entry u
  rw [tabulate_entry] at hcompute
  have hunique {batch' : List Nat} {depth' : Nat} {a : List Nat → List Nat}
      (h : Addresses indices x.shape batch' depth' a) : batch' = batch ∧ depth' = depth := by
    simpa using h.shape_eq.symm.trans hindices
  have haddresses {a : List Nat → List Nat} :=
    @addresses_iff x.shape batch depth indices index a hindices hints hsizes
  refine ⟨⟨?_, ?_⟩, fun v hv => ?_⟩
  · rintro ⟨v, hv⟩
    obtain ⟨batch', depth', a, ha, hgiven, -⟩ := hcompute.mp hv
    obtain ⟨rfl, rfl⟩ := hunique ha
    obtain ⟨hdepth, hnames⟩ := haddresses.mp ha
    exact ⟨hdepth, hgiven, fun r hr => (hnames r hr).1⟩
  · rintro ⟨hdepth, hgiven, hdata⟩
    have ha := haddresses.mpr ⟨hdepth, fun r hr => ⟨hdata r hr, rfl⟩⟩
    exact ⟨_, hcompute.mpr ⟨batch, depth, _, ha, hgiven, rfl⟩⟩
  · obtain ⟨batch', depth', a, ha, -, rfl⟩ := hcompute.mp hv
    obtain ⟨rfl, rfl⟩ := hunique ha
    exact ⟨_, rfl, scatters_lastUpdate (haddresses.mp ha).2⟩

/-- The rows `6, 5`, `4, 3` and `2, 1`. -/
def threeRows : Tensor :=
  ⟨.i32, [3, 2], #[6, 5, 4, 3, 2, 1], rfl⟩

/-- The last row is named twice, first from the back. The second update is the one that is left. -/
theorem threeRows_scattered :
    (∃ g, (⟨.i32, [3, 2], #[6, 5, 4, 3, 9, 10], rfl⟩ : Tensor) = tabulate .i32 [3, 2] g ∧
      Scatters threeRows [2] 1 (fun r => if r = [0, 0] then -1 else 2)
        (fun c => ([7, 8, 9, 10] : List Int32).getD (position c [2, 1]) 0) g) ∧
    ¬∃ v, scatterNdUpdate.compute [threeRows, ⟨.i64, [1, 1], #[3], rfl⟩,
      tabulate .i32 [1, 2] fun _ => (0 : Int32)] = .ok v := by
  have hsizes : ∀ size ∈ threeRows.shape, size < UInt64.size := by decide
  constructor
  · have hints : (⟨.i64, [2, 1], #[-1, 2], rfl⟩ : Tensor).ints =
        .ok ((walk ([2] ++ [1])).map fun r => if r = [0, 0] then -1 else 2) := by decide
    refine (scatterNdUpdate_lastRow (x := threeRows) [2, 2]
      (fun c => ([7, 8, 9, 10] : List Int32).getD (position c [2, 1]) 0) rfl hints hsizes).2 _ ?_
    decide +kernel
  · have hints : (⟨.i64, [1, 1], #[3], rfl⟩ : Tensor).ints =
        .ok ((walk ([1] ++ [1])).map fun _ => 3) := by decide
    intro h
    have hscatter := (scatterNdUpdate_lastRow (x := threeRows) [1, 2] (fun _ => (0 : Int32)) rfl
      hints hsizes).1.mp h
    have hinside := (hscatter.2.2 [0] (by decide)).inside
    unfold Inside at hinside
    exact absurd hinside (by decide)

/-- A row names the first place of an axis and the update fits, but the size of the axis is no
signed 64-bit integer: it counts as negative. -/
theorem scatterNdUpdate_beyondWords : ∃ (x indices : Tensor) (index : List Nat → Int)
    (u : List Nat → x.elementType.Carrier),
    indices.shape = [1] ++ [1] ∧ indices.ints = .ok ((walk ([1] ++ [1])).map index) ∧ 1 ≤ x.rank ∧
    (∀ r, Within r [1] →
      Inside (namedPlaces (rowAt index 1 r) x.shape) (x.shape.take 1)) ∧
    ∃ error, scatterNdUpdate.compute
      [x, indices, tabulate x.elementType ([1] ++ x.shape.drop 1) u] = .error error := by
  refine ⟨⟨.f32, [9223372036854775808, 0], #[], rfl⟩, ⟨.i64, [1, 1], #[0], rfl⟩, fun _ => 0,
    fun _ => .zero, rfl, by decide, by decide, fun r _ => ?_,
    .shape (.indexRange 0 9223372036854775808), ?_⟩
  · show Inside [0] [9223372036854775808]
    exact .cons (by decide) .nil
  · decide +kernel

end Op

end TensorLowering
