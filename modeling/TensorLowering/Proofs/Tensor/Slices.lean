import TensorLowering.Proofs.Tensor.Pairs

/-!
# Slices along an axis

Gathering reads the elements at the named places of an axis (`reads_of_gather`). For a range of places
that is a slice, consecutive slices side by side are the tensor again (`concat_slices`), and tensors
that are put side by side are consecutive slices of the result (`eq_slices_of_concat`). So gathering by
consecutive ranges takes apart what concatenation puts together, and the other way round
(`gather_concat_inverse`), on axes whose places are signed 64-bit integers.
-/

namespace TensorLowering

open Shape

namespace Shape

variable {start : Nat} {counts : List Nat}

/-- Consecutive ranges of the given lengths, each with its start. -/
def spans : Nat → List Nat → List (Nat × Nat)
  | _, [] => []
  | start, count :: counts => (start, count) :: spans (start + count) counts

@[simp] theorem map_snd_spans (start : Nat) (counts : List Nat) :
    (spans start counts).map Prod.snd = counts := by
  induction counts generalizing start with
  | nil => rfl
  | cons count counts ih => rw [spans, List.map_cons, ih]

theorem bounds_of_mem_spans {span : Nat × Nat} (h : span ∈ spans start counts) :
    start ≤ span.1 ∧ span.1 + span.2 ≤ start + counts.sum := by
  induction counts generalizing start with
  | nil => cases h
  | cons count counts ih =>
    rw [List.sum_cons]
    obtain rfl | h := List.mem_cons.mp h
    · dsimp only
      omega
    · obtain ⟨hstart, hend⟩ := ih h
      omega

/-- One after the other, the ranges are a single one. -/
theorem flatMap_spans {β : Type} (g : Nat → List β) (start : Nat) (counts : List Nat) :
    ((spans start counts).flatMap fun span =>
        (List.range span.2).flatMap fun i => g (span.1 + i)) =
      (List.range' start counts.sum).flatMap g := by
  induction counts generalizing start with
  | nil => rfl
  | cons count counts ih =>
    have hfirst : ((List.range count).flatMap fun i => g (start + i)) =
        (List.range' start count).flatMap g := by
      rw [List.range'_eq_map_range, List.flatMap_map]
    rw [spans, List.flatMap_cons, ih, hfirst, List.sum_cons, ← List.range'_append_1,
      List.flatMap_append]

end Shape

namespace Tensor

variable {e : ElementType} {x v : Tensor} {left right counts : List Nat}
  {axis size start count : Nat} {i : Int}

/-! ## Places by index -/

/-- On the axis, the result has the places that the indices name, counted from the back where they are
negative. Its other coordinates are those of the data. -/
def Reads (i : Int) (x indices v : Tensor) : Prop :=
  ∃ (left : List Nat) (size : Nat) (right : List Nat) (index : List Nat → Int)
    (f : List Nat → x.elementType.Carrier),
    x.shape = left ++ size :: right ∧ resolveAxis i x.rank = .ok left.length ∧
    indices.ints = .ok ((walk indices.shape).map index) ∧
    v = tabulate x.elementType (left ++ indices.shape ++ right) f ∧
    ∀ p j q, Within p left → Within j indices.shape → Within q right →
      ∃ k < size, (k : Int) = (if index j < 0 then index j + size else index j) ∧
        f (p ++ j ++ q) = x.entry (p ++ k :: q)

theorem reads_of_gather {indices : Tensor} (hwords : ∀ size ∈ x.shape, size < UInt64.size)
    (h : gather i x indices = .ok v) : Reads i x indices v := by
  obtain ⟨axis, values, named, ha, hvalues, hnamed, -⟩ := type_gather h
  have hgather := gather_tabulate (f := x.entry) ha hvalues hnamed
  rw [tabulate_entry] at hgather
  obtain rfl := Except.ok.inj (h.symm.trans hgather)
  obtain ⟨left, size, right, hshape, rfl⟩ := exists_split (resolveAxis_lt ha)
  have hsize : x.shape.getD left.length 0 = size := by simp [hshape]
  have htake : x.shape.take left.length = left := by simp [hshape]
  have hdrop : x.shape.drop (left.length + 1) = right := by simp [hshape]
  rw [hsize] at hnamed
  rw [htake, hdrop]
  refine ⟨left, size, right, fun j => values.getD (position j (strides indices.shape)) 0, _, hshape,
    ha, ?_, rfl, fun p j q hp hj hq => ?_⟩
  · rw [map_getD_walk (length_ints hvalues)]
    exact hvalues
  · have hlt : position j (strides indices.shape) < values.length := by
      rw [length_ints hvalues]
      exact position_lt hj
    obtain ⟨k, hk, hresolve⟩ :=
      getElem?_of_forall₂ (mapM_eq_ok.mp hnamed) (List.getElem?_eq_getElem hlt)
    have hword : size < UInt64.size := hwords size (by simp [hshape])
    have hplace := eq_of_resolveIndex hword hresolve
    refine ⟨k, resolveIndex_lt hresolve, ?_, ?_⟩
    · simpa [List.getElem?_eq_getElem hlt] using hplace
    · rw [← hp.length_eq, ← hj.length_eq]
      simp [hk]

/-! ## Single slices -/

/-- The part of a tensor from a place on an axis on. -/
def slice (axis start count : Nat) (t : Tensor) : Tensor :=
  tabulate t.elementType (t.shape.set axis count) fun c =>
    t.entry (c.set axis (start + c.getD axis 0))

theorem slice_tabulate {f : List Nat → e.Carrier} (hle : start + count ≤ size) :
    slice left.length start count (tabulate e (left ++ size :: right) f) =
      tabulate e (left ++ count :: right) fun c =>
        f (c.set left.length (start + c.getD left.length 0)) := by
  have hset : (left ++ size :: right).set left.length count = left ++ count :: right := by simp
  rw [slice, shape_tabulate, hset]
  refine tabulate_congr fun c hc => ?_
  obtain ⟨p, j, q, rfl, hp, hj, hq⟩ := exists_of_within_split hc
  refine entry_tabulate ?_
  have hwithin : Within (p ++ (start + j) :: q) (left ++ size :: right) :=
    within_append hp (.cons (by omega) hq)
  simpa [← hp.length_eq] using hwithin

theorem gather_slice {indices : Tensor} (ha : resolveAxis i x.rank = .ok axis)
    (hindices : indices.Lists (List.range' start count))
    (hword : x.shape.getD axis 0 < 9223372036854775808)
    (hle : start + count ≤ x.shape.getD axis 0) :
    gather i x indices = .ok (slice axis start count x) := by
  have hsize : x.shape[axis]? = some (x.shape.getD axis 0) := by
    simp [List.getElem?_eq_getElem (resolveAxis_lt ha)]
  have hgather := gather_lists (f := x.entry) ha hindices hsize hword hle
  rwa [tabulate_entry] at hgather

/-! ## All slices -/

/-- Consecutive slices of the given lengths. -/
def slices (axis : Nat) (t : Tensor) (counts : List Nat) : List Tensor :=
  (spans 0 counts).map fun span => slice axis span.1 span.2 t

section Tables

variable {α : Type}

/-- The same on functions of a coordinate, each with the length of its slice. -/
def sliceTables (axis : Nat) (f : List Nat → α) (start : Nat) (counts : List Nat) :
    List (Nat × (List Nat → α)) :=
  (spans start counts).map fun span =>
    (span.2, fun c => f (c.set axis (span.1 + c.getD axis 0)))

theorem map_fst_sliceTables (axis : Nat) (f : List Nat → α) (start : Nat) (counts : List Nat) :
    (sliceTables axis f start counts).map Prod.fst = counts := by
  rw [sliceTables, List.map_map]
  exact map_snd_spans start counts

/-- The elements of consecutive slices in turn are those of the whole. -/
theorem flatMap_sliceTables (f : List Nat → α) (p right : List Nat) (start : Nat)
    (counts : List Nat) :
    ((sliceTables p.length f start counts).flatMap fun part =>
        (walk (part.1 :: right)).map fun d => part.2 (p ++ d)) =
      (List.range' start counts.sum).flatMap fun i => (walk right).map fun q => f (p ++ i :: q) := by
  rw [← flatMap_spans, sliceTables, List.flatMap_map]
  refine List.flatMap_congr fun span _ => ?_
  rw [walk_cons, List.map_flatMap]
  refine List.flatMap_congr fun i _ => ?_
  rw [List.map_map]
  refine List.map_congr_left fun q _ => ?_
  simp

end Tables

theorem slices_tabulate {f : List Nat → e.Carrier} (hsum : counts.sum = size) :
    slices left.length (tabulate e (left ++ size :: right) f) counts =
      (sliceTables left.length f 0 counts).map fun part =>
        tabulate e (left ++ part.1 :: right) part.2 := by
  rw [sliceTables, List.map_map]
  refine List.map_congr_left fun span hspan => slice_tabulate ?_
  have hbounds := bounds_of_mem_spans hspan
  omega

/-- Side by side, consecutive slices are the tensor again. -/
theorem concat_slices {first : Tensor} {others : List Tensor}
    (ha : resolveAxis i x.rank = .ok axis) (hsum : counts.sum = x.shape.getD axis 0)
    (hparts : first :: others = slices axis x counts) : concat i first others = .ok x := by
  obtain ⟨left, size, right, hshape, rfl⟩ := exists_split (resolveAxis_lt ha)
  obtain ⟨f, hx⟩ := exists_tabulate (t := x) rfl
  generalize x.elementType = e at *
  rw [hshape] at hx
  subst hx
  obtain rfl : counts.sum = size := by simpa using hsum
  rw [slices_tabulate rfl] at hparts
  cases counts with
  | nil => cases hparts
  | cons count counts =>
    obtain ⟨rfl, rfl⟩ := List.cons.inj hparts
    refine concat_eq_tabulate right (by simpa [rank] using ha) _ ?_ fun p hp => ?_
    · exact congrArg (count + ·.sum) (map_fst_sliceTables left.length f (0 + count) counts)
    · rw [← hp.length_eq, walk_cons, List.map_flatMap, List.range_eq_range']
      simp only [List.map_map]
      exact flatMap_sliceTables f p right 0 (count :: counts)

/-- Any tables are the slices of a single one, by induction from the last one on: a table goes before
those behind it. -/
theorem exists_sliced (left right : List Nat) (parts : List (Nat × (List Nat → e.Carrier)))
    (start : Nat) : ∃ f : List Nat → e.Carrier, List.Forall₂ (fun part span => part.1 = span.2 ∧
        ∀ c, Within c (left ++ part.1 :: right) →
          part.2 c = f (c.set left.length (span.1 + c.getD left.length 0)))
      parts (spans start (parts.map Prod.fst)) := by
  induction parts generalizing start with
  | nil => exact ⟨fun _ => e.zero, .nil⟩
  | cons part parts ih =>
    obtain ⟨count, g⟩ := part
    obtain ⟨f, hf⟩ := ih (start + count)
    refine ⟨fun c => if c.getD left.length 0 < start + count then
      g (c.set left.length (c.getD left.length 0 - start)) else f c, .cons ⟨rfl, fun c hc => ?_⟩ ?_⟩
    · obtain ⟨p, j, q, rfl, hp, hj, -⟩ := exists_of_within_split hc
      simp [← hp.length_eq, hj]
    · refine (forall₂_and_right hf fun span hspan => (bounds_of_mem_spans hspan).1).imp ?_
      rintro part span ⟨⟨hcount, hpart⟩, hstart⟩
      refine ⟨hcount, fun c hc => ?_⟩
      rw [hpart c hc]
      obtain ⟨p, j, q, rfl, hp, -, -⟩ := exists_of_within_split hc
      have hge : ¬span.1 + j < start + count := by omega
      simp [← hp.length_eq, hge]

/-- Tensors that are put side by side are tables of one type, but for the lengths on the axis. -/
theorem exists_tables_of_concat {first : Tensor} {others : List Tensor}
    (h : concat i first others = .ok v) : ∃ (left right : List Nat)
      (tables : List (Nat × (List Nat → first.elementType.Carrier))),
      resolveAxis i (left.length + (right.length + 1)) = .ok left.length ∧
      tables.map Prod.fst = (first :: others).map (·.shape.getD left.length 0) ∧
      first :: others =
        tables.map fun table => tabulate first.elementType (left ++ table.1 :: right) table.2 := by
  obtain ⟨axis, ha, hshapes, -⟩ := type_concat h
  obtain ⟨left, size, right, hshape, rfl⟩ := exists_split (resolveAxis_lt ha)
  have htable (part : Tensor) (hpart : part ∈ first :: others) :
      ∃ table : Nat × (List Nat → first.elementType.Carrier),
        part.shape.getD left.length 0 = table.1 ∧
          part = tabulate first.elementType (left ++ table.1 :: right) table.2 := by
    have hsplit : part.shape = left ++ part.shape.getD left.length 0 :: right := by
      obtain rfl | hpart := List.mem_cons.mp hpart
      · simp [hshape]
      · obtain ⟨hlen, herase⟩ := hshapes part hpart
        have hset := Op.eq_set_of_eraseIdx hlen herase
        rw [hshape, List.set_append_right _ _ (Nat.le_refl _), Nat.sub_self] at hset
        exact hset
    have helement : part.elementType = first.elementType := by
      obtain rfl | hpart := List.mem_cons.mp hpart
      · rfl
      · exact elementType_of_concat h part hpart
    have htype : part.type =
        ⟨first.elementType, .fixed (left ++ part.shape.getD left.length 0 :: right)⟩ := by
      rw [type, helement, ← hsplit]
    obtain ⟨g, hg⟩ := exists_tabulate htype
    exact ⟨(_, g), rfl, hg⟩
  obtain ⟨tables, htables⟩ := exists_forall₂.mpr htable
  refine ⟨left, right, tables, by simpa [hshape] using ha, ?_, ?_⟩
  · rw [← List.forall₂_eq_eq_eq, List.forall₂_map_left_iff, List.forall₂_map_right_iff]
    exact htables.flip.imp fun _ _ h => h.1.symm
  · rw [← List.forall₂_eq_eq_eq, List.forall₂_map_right_iff]
    exact htables.imp fun _ _ h => h.2

/-- Tensors side by side are the consecutive slices of the result. -/
theorem eq_slices_of_concat {first : Tensor} {others : List Tensor}
    (h : concat i first others = .ok v) : ∃ axis, resolveAxis i v.rank = .ok axis ∧
      ((first :: others).map (·.shape.getD axis 0)).sum = v.shape.getD axis 0 ∧
      first :: others = slices axis v ((first :: others).map (·.shape.getD axis 0)) := by
  obtain ⟨left, right, tables, ha, hcounts, hparts⟩ := exists_tables_of_concat h
  obtain ⟨f, hf⟩ := exists_sliced left right tables 0
  have hslices : first :: others = slices left.length
      (tabulate first.elementType (left ++ (tables.map Prod.fst).sum :: right) f)
      (tables.map Prod.fst) := by
    rw [slices_tabulate rfl, hparts, sliceTables, List.map_map, ← List.forall₂_eq_eq_eq,
      List.forall₂_map_left_iff, List.forall₂_map_right_iff]
    refine hf.imp fun table span htable => ?_
    rw [Function.comp_apply, ← htable.1]
    exact tabulate_congr htable.2
  rw [hcounts] at hslices
  have hresult := concat_slices (by simpa [rank] using ha) (by simp) hslices
  obtain rfl := Except.ok.inj (h.symm.trans hresult)
  exact ⟨left.length, by simpa [rank] using ha, by simp, hslices⟩

end Tensor

namespace Op

open Tensor

/-- The consecutive ranges of the given lengths are vectors of integers, and gathering by them gives
the parts. -/
def TakesApart (axis : Int) (v : Tensor) (parts : List Tensor) (counts : List Nat) : Prop :=
  List.Forall₂ (fun part span =>
      (∃ indices : Tensor, indices.Lists (List.range' span.1 span.2)) ∧
      ∀ indices : Tensor, indices.Lists (List.range' span.1 span.2) →
        (gather axis).compute [v, indices] = .ok part)
    parts (spans 0 counts)

theorem takesApart_slices {i : Int} {axis : Nat} {v : Tensor} {counts : List Nat}
    (ha : resolveAxis i v.rank = .ok axis) (hword : v.shape.getD axis 0 < 9223372036854775808)
    (hsum : counts.sum = v.shape.getD axis 0) : TakesApart i v (slices axis v counts) counts := by
  rw [TakesApart, slices, List.forall₂_map_left_iff, List.forall₂_same]
  intro span hspan
  have hbounds := bounds_of_mem_spans hspan
  refine ⟨⟨_, lists_ofInts fun n hn => ?_⟩, fun indices hindices => ?_⟩
  · have hn := List.mem_range'_1.mp hn
    omega
  · exact gather_slice ha hindices hword (by omega)

/-- Gathering reads the elements at the named places of an axis. It takes what is put side by side
apart again, and side by side, the parts that it takes are the whole again. The size of the whole on
the axis has to be a signed 64-bit integer there, as all its places are named. -/
theorem gather_concat_inverse (axis : Int) :
    (∀ x indices v : Tensor, (∀ size ∈ x.shape, size < UInt64.size) →
      (gather axis).compute [x, indices] = .ok v → Reads axis x indices v) ∧
    (∀ parts v a, (concat axis).compute parts = .ok v → resolveAxis axis v.rank = .ok a →
      v.shape.getD a 0 < 9223372036854775808 →
      TakesApart axis v parts (parts.map (·.shape.getD a 0))) ∧
    ∀ (x : Tensor) a counts, resolveAxis axis x.rank = .ok a →
      x.shape.getD a 0 < 9223372036854775808 → counts ≠ [] → counts.sum = x.shape.getD a 0 →
      ∃ parts, TakesApart axis x parts counts ∧ (concat axis).compute parts = .ok x := by
  refine ⟨fun x indices v hwords h => reads_of_gather hwords h, fun parts v a h ha hword => ?_,
    fun x a counts ha hword hne hsum => ⟨_, takesApart_slices ha hword hsum, ?_⟩⟩
  · cases parts with
    | nil => cases h
    | cons first others =>
      obtain ⟨a', ha', hsum, hslices⟩ := eq_slices_of_concat h
      obtain rfl := Except.ok.inj (ha.symm.trans ha')
      have htakes := takesApart_slices ha hword hsum
      rwa [← hslices] at htakes
  · obtain ⟨count, counts, rfl⟩ := List.exists_cons_of_ne_nil hne
    exact concat_slices ha hsum rfl

/-- The rows `1, 2, 3` and `4, 5, 6`. -/
def oneToSix : Tensor :=
  ⟨.i32, [2, 3], #[1, 2, 3, 4, 5, 6], rfl⟩

/-- The first column, and the other two. -/
def columns : List Tensor :=
  [⟨.i32, [2, 1], #[1, 4], rfl⟩, ⟨.i32, [2, 2], #[2, 3, 5, 6], rfl⟩]

/-- The columns are taken apart by gathering `0` and `1, 2`, and so are other splits of the axis, also
with an empty slice. -/
theorem columns_takenApart : Reads (-1) oneToSix (ofInts [-1, 0]) ⟨.i32, [2, 2], #[3, 1, 6, 4], rfl⟩ ∧
    TakesApart (-1) oneToSix columns [1, 2] ∧
    ∃ parts, TakesApart (-1) oneToSix parts [2, 0, 1] ∧
      (concat (-1)).compute parts = .ok oneToSix := by
  obtain ⟨hreads, hparts, hcounts⟩ := gather_concat_inverse (-1)
  refine ⟨hreads _ _ _ (by decide) (by decide +kernel), ?_, ?_⟩
  · exact hparts columns oneToSix 1 (by decide +kernel) (by decide) (by decide)
  · exact hcounts oneToSix 1 [2, 0, 1] (by decide) (by decide) (by decide) (by decide)

/-- Of a tensor without elements, the size on the first axis is no signed 64-bit integer: it counts as
negative, and no place on the axis can be named. So the first of two parts does not come back. -/
theorem concat_beyondWords : ∃ first second v indices : Tensor,
    (concat 0).compute [first, second] = .ok v ∧ resolveAxis 0 v.rank = .ok 0 ∧
    indices.Lists (List.range' 0 (first.shape.getD 0 0)) ∧
    (gather 0).compute [v, indices] ≠ .ok first := by
  refine ⟨⟨.f32, [1, 0], #[], rfl⟩, ⟨.f32, [9223372036854775808, 0], #[], rfl⟩,
    ⟨.f32, [9223372036854775809, 0], #[], rfl⟩, ofInts [0], ?_, rfl, ⟨rfl, rfl⟩, ?_⟩
  · decide +kernel
  · decide +kernel

end Op

end TensorLowering
