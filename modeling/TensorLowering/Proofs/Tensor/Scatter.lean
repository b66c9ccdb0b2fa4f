import TensorLowering.Proofs.Tensor.Planes

/-!
# Scattering by coordinate

A row of indices addresses a slice by the coordinates of its first axes (`Kernel.rowAddress`). Writing
one row replaces one slice (`Kernel.writeBlock_walk`), so after all rows a slice holds the update of
the last row that addresses it, and the data if no row does (`Kernel.scatter_walk`). That is all that
scattering does, and it fails where a row addresses no slice or the updates do not have the shape of
the slices (`Tensor.scatter_tabulate`).
-/

namespace TensorLowering

open Shape

/-! ## Rows and the slices that they address -/

section Rows

variable {α : Type} {a : List Nat → List Nat} {rows : List (List Nat)} {depth : Nat}
  {u f : List Nat → α} {c slice : List Nat}

/-- The rows, each named by its coordinate, that address the slice. -/
def rowsAt (a : List Nat → List Nat) (rows : List (List Nat)) (slice : List Nat) :
    List (List Nat) :=
  rows.filter fun r => a r = slice

/-- At each place, the element of the last update of its slice, if there is one. -/
def lastUpdate (depth : Nat) (a : List Nat → List Nat) (rows : List (List Nat))
    (u f : List Nat → α) (c : List Nat) : α :=
  ((rowsAt a rows (c.take depth)).getLast?.map fun r => u (r ++ c.drop depth)).getD (f c)

/-- At each place, the sum of the elements of all updates of its slice. -/
def sumOfUpdates (add : α → α → α) (depth : Nat) (a : List Nat → List Nat) (rows : List (List Nat))
    (u f : List Nat → α) (c : List Nat) : α :=
  (rowsAt a rows (c.take depth)).foldl (fun sum r => add sum (u (r ++ c.drop depth))) (f c)

/-- The update of the first row is data for the other rows. -/
theorem lastUpdate_cons {r : List Nat} : lastUpdate depth a (r :: rows) u f c =
    lastUpdate depth a rows u (fun c => if c.take depth = a r then u (r ++ c.drop depth) else f c)
      c := by
  unfold lastUpdate rowsAt
  by_cases hr : a r = c.take depth
  · simp only [List.filter_cons_of_pos, decide_eq_true hr, List.getLast?_cons, if_pos hr.symm]
    cases (rows.filter fun r => a r = c.take depth).getLast? <;> rfl
  · have hne : ¬c.take depth = a r := Ne.symm hr
    simp only [List.filter_cons_of_neg, decide_eq_true_eq, hr, not_false_eq_true, if_neg hne]

/-- Where at most one row addresses a slice, its update is also the sum of the updates. -/
theorem lastUpdate_eq_sumOfUpdates {add : α → α → α} (hzero : ∀ x, add (f c) x = x)
    (h : (rowsAt a rows (c.take depth)).length ≤ 1) :
    lastUpdate depth a rows u f c = sumOfUpdates add depth a rows u f c := by
  unfold lastUpdate sumOfUpdates
  cases hrows : rowsAt a rows (c.take depth) with
  | nil => rfl
  | cons r rest =>
    rw [hrows] at h
    obtain rfl := List.length_eq_zero_iff.mp (Nat.le_zero.mp (Nat.le_of_succ_le_succ h))
    exact (hzero _).symm

/-- What is left at one place behind all slices. -/
theorem lastUpdate_concat {k : Nat} (h : depth ≤ c.length) :
    lastUpdate depth a rows u f (c ++ [k]) =
      lastUpdate depth a rows (fun d => u (d ++ [k])) (fun d => f (d ++ [k])) c := by
  simp only [lastUpdate, List.take_append_of_le_length h, List.drop_append_of_le_length h,
    List.append_assoc]

end Rows

namespace Kernel

variable {α : Type}

/-- The coordinates of the slice that a row of indices addresses. -/
def rowAddress : List Int → List Nat → Except Error (List Nat)
  | index :: row, size :: sizes => do
    let i ← resolveIndex index size
    return i :: (← rowAddress row sizes)
  | _, _ => .ok []

theorem rowOffset_eq (row : List Int) (shape : List Nat) :
    rowOffset row shape (strides shape) =
      (rowAddress row shape).map (position · (strides shape)) := by
  induction row generalizing shape with
  | nil => rfl
  | cons index row ih =>
    cases shape with
    | nil => rfl
    | cons size sizes =>
      simp only [strides, rowOffset, rowAddress, ih]
      cases resolveIndex index size with
      | error => rfl
      | ok i => cases rowAddress row sizes <;> rfl

theorem within_rowAddress {row : List Int} {shape c : List Nat} (hlen : row.length ≤ shape.length)
    (h : rowAddress row shape = .ok c) : Within c (shape.take row.length) := by
  induction row generalizing shape c with
  | nil =>
    obtain rfl := Except.ok.inj h
    exact .nil
  | cons index row ih =>
    cases shape with
    | nil => cases hlen
    | cons size sizes =>
      obtain ⟨i, hi, h⟩ := bind_eq_ok.mp h
      obtain ⟨c', hc', h⟩ := bind_eq_ok.mp h
      obtain rfl := Except.ok.inj h
      exact .cons (resolveIndex_lt hi) (ih (Nat.le_of_succ_le_succ hlen) hc')

/-- A row says nothing about the axes behind those it addresses. -/
theorem rowAddress_append {row : List Int} {shape more : List Nat} (h : row.length ≤ shape.length) :
    rowAddress row (shape ++ more) = rowAddress row shape := by
  induction row generalizing shape with
  | nil => simp [rowAddress]
  | cons index row ih =>
    cases shape with
    | nil => cases h
    | cons size sizes =>
      simp only [List.cons_append, rowAddress, ih (Nat.le_of_succ_le_succ h)]

/-! ## Writing rows -/

theorem writeBlock_append {xs ys zs block : List α} (h : block.length = ys.length) :
    writeBlock (xs ++ ys ++ zs).toArray xs.length block = .ok (xs ++ block ++ zs).toArray := by
  have hle : xs.length + block.length ≤ (xs ++ ys ++ zs).toArray.size := by
    simp only [List.size_toArray, List.length_append]
    omega
  rw [writeBlock, if_pos hle]
  have hdrop : (ys ++ zs).drop block.length = zs := by rw [h, List.drop_left]
  have hrest : xs.length + (ys.length + zs.length) - (xs.length + block.length) = zs.length := by
    omega
  refine congrArg Except.ok (Array.ext' ?_)
  simp [List.extract_eq_take_drop, hdrop, hrest]

/-- Writing a row replaces the slice that it addresses. -/
theorem writeBlock_walk (f u : List Nat → α) {left p : List Nat} (right : List Nat)
    (hp : Within p left) :
    writeBlock ((walk (left ++ right)).map f).toArray (position p (strides left) * volume right)
        ((walk right).map u) =
      .ok ((walk (left ++ right)).map fun c =>
        if c.take left.length = p then u (c.drop left.length) else f c).toArray := by
  obtain ⟨before, after, hsplit, hposition, hbefore, hafter⟩ := exists_walk_split hp
  have hsplitMap (g : List Nat → α) : (walk (left ++ right)).map g =
      (before.flatMap fun q => (walk right).map fun d => g (q ++ d)) ++
        ((walk right).map fun d => g (p ++ d)) ++
        after.flatMap fun q => (walk right).map fun d => g (q ++ d) := by
    rw [walk_append, hsplit, List.map_flatMap]
    simp [Function.comp_def]
  have hother {qs : List (List Nat)} (hqs : ∀ q ∈ qs, q ∈ walk left) (hp : p ∉ qs) :
      (qs.flatMap fun q => (walk right).map fun d =>
        if (q ++ d).take left.length = p then u ((q ++ d).drop left.length) else f (q ++ d)) =
      qs.flatMap fun q => (walk right).map fun d => f (q ++ d) := by
    refine List.flatMap_congr fun q hq => List.map_congr_left fun d _ => ?_
    have hne : q ≠ p := fun heq => hp (heq ▸ hq)
    rw [List.take_left' (mem_walk.mp (hqs q hq)).length_eq, if_neg hne]
  have hown : ((walk right).map fun d =>
      if (p ++ d).take left.length = p then u ((p ++ d).drop left.length) else f (p ++ d)) =
      (walk right).map u := by
    refine List.map_congr_left fun d _ => ?_
    rw [List.take_left' hp.length_eq, if_pos rfl, List.drop_left' hp.length_eq]
  -- The slices before that of the row fill the elements up to its position.
  have hlen : (before.flatMap fun q => (walk right).map fun d => f (q ++ d)).length =
      position p (strides left) * volume right := by
    simp [List.length_flatMap, List.map_const', hposition]
  rw [hsplitMap f, hsplitMap, hown, hother (fun q hq => hsplit ▸ by simp [hq]) hbefore,
    hother (fun q hq => hsplit ▸ by simp [hq]) hafter, ← hlen]
  exact writeBlock_append (by simp)

/-- Writing the rows one after the other leaves the last update of each slice. -/
theorem foldlM_writeBlock {u : List Nat → α} {a : List Nat → List Nat} {left : List Nat}
    (right : List Nat) {rows : List (List Nat)} (ha : ∀ r ∈ rows, Within (a r) left)
    (f : List Nat → α) :
    rows.foldlM (fun written r => writeBlock written (position (a r) (strides left) * volume right)
        ((walk right).map fun d => u (r ++ d))) ((walk (left ++ right)).map f).toArray =
      .ok ((walk (left ++ right)).map (lastUpdate left.length a rows u f)).toArray := by
  induction rows generalizing f with
  | nil => rfl
  | cons r rows ih =>
    obtain ⟨hr, ha⟩ := List.forall_mem_cons.mp ha
    rw [List.foldlM_cons, writeBlock_walk f _ right hr, ok_bind, ih ha]
    exact congrArg (fun xs : List α => Except.ok xs.toArray)
      (List.map_congr_left fun c _ => lastUpdate_cons.symm)

theorem scatter_walk (f u : List Nat → α) {a : List Nat → List Nat} {batch left : List Nat}
    (right : List Nat) (ha : ∀ r, Within r batch → Within (a r) left) :
    scatter ((walk (left ++ right)).map f).toArray ((walk (batch ++ right)).map u).toArray
        ((walk batch).map fun r => position (a r) (strides left) * volume right) =
      .ok ((walk (left ++ right)).map (lastUpdate left.length a (walk batch) u f)).toArray := by
  have hrows : ((walk batch).map fun r => position (a r) (strides left) * volume right).zipIdx =
      (walk batch).map fun r =>
        (position (a r) (strides left) * volume right, position r (strides batch)) := by
    rw [List.zipIdx_eq_zip_range', List.length_map, length_walk, ← List.range_eq_range',
      ← map_position_walk, List.zip_map']
  rw [scatter, hrows, List.foldlM_map, ← foldlM_writeBlock right (fun r hr => ha r (mem_walk.mp hr))]
  refine foldlM_congr fun r hr written => ?_
  have hr := mem_walk.mp hr
  have hposition := position_lt hr
  have hlength : ((walk (batch ++ right)).map u).toArray.size /
      ((walk batch).map fun r => position (a r) (strides left) * volume right).length =
        volume right := by
    simp only [List.size_toArray, List.length_map, length_walk, volume_append]
    exact Nat.mul_div_cancel_left _ (Nat.zero_lt_of_lt hposition)
  dsimp only
  rw [hlength, readBlock_walk u right hposition, locate_position hr, ok_bind]

/-- The row of indices at a coordinate of all axes but the last one. -/
def rowAt (index : List Nat → Int) (depth : Nat) (r : List Nat) : List Int :=
  (List.range depth).map fun j => index (r ++ [j])

theorem rowOffsets_walk (index : List Nat → Int) (shape batch : List Nat) (depth : Nat) :
    rowOffsets shape (volume batch) depth ((walk (batch ++ [depth])).map index).toArray =
      (walk batch).mapM fun r =>
        (rowAddress (rowAt index depth r) shape).map (position · (strides shape)) := by
  rw [rowOffsets, walk_eq batch, List.mapM_map]
  refine mapM_congr fun n hn => ?_
  have hread := readBlock_walk index [depth] (List.mem_range.mp hn)
  have hvolume : volume [depth] = depth := Nat.mul_one depth
  have hrow : (walk [depth]).map (fun d => index (locate batch n ++ d)) =
      rowAt index depth (locate batch n) := by
    rw [walk_cons, List.map_flatMap, rowAt, List.map_eq_flatMap]
    rfl
  rw [hvolume, hrow] at hread
  simp only [hread, ok_bind, rowOffset_eq, Function.comp_apply]

end Kernel

namespace Tensor

variable {e : ElementType} {shape batch : List Nat} {depth : Nat} {a : List Nat → List Nat}
  {rows : Tensor}

/-- The tensor holds a row of indices for each coordinate of the batch, which addresses the slice at
the given coordinates of the shape. -/
structure Addresses (rows : Tensor) (shape batch : List Nat) (depth : Nat)
    (a : List Nat → List Nat) : Prop where
  shape_eq : rows.shape = batch ++ [depth]
  depth_le : depth ≤ shape.length
  address : ∃ index, rows.ints = .ok ((walk (batch ++ [depth])).map index) ∧
    ∀ r, Within r batch → Kernel.rowAddress (Kernel.rowAt index depth r) shape = .ok (a r)

theorem rowOffsets_addresses {index : List Nat → Int} {left right : List Nat}
    (hdepth : left.length = depth)
    (ha : ∀ r, Within r batch → Kernel.rowAddress (Kernel.rowAt index depth r) (left ++ right) =
      .ok (a r)) :
    (∀ r, Within r batch → Within (a r) left) ∧
      Kernel.rowOffsets (left ++ right) (volume batch) depth
          ((walk (batch ++ [depth])).map index).toArray =
        .ok ((walk batch).map fun r => position (a r) (strides left) * volume right) := by
  have hwithin : ∀ r, Within r batch → Within (a r) left := fun r hr => by
    have hlen : (Kernel.rowAt index depth r).length = left.length := by simp [Kernel.rowAt, hdepth]
    have hr := Kernel.within_rowAddress (by simp [hlen]) (ha r hr)
    rwa [hlen, List.take_left] at hr
  refine ⟨hwithin, ?_⟩
  rw [Kernel.rowOffsets_walk]
  refine mapM_eq_ok_map fun r hr => ?_
  have hr := mem_walk.mp hr
  have hposition : position (a r ++ []) (strides (left ++ right)) = _ :=
    position_append (hwithin r hr).length_eq
  rw [List.append_nil, show position [] (strides right) = 0 from rfl, Nat.add_zero] at hposition
  rw [ha r hr, ← hposition]
  rfl

theorem scatter_tabulate {f u : List Nat → e.Carrier} (h : Addresses rows shape batch depth a) :
    scatter (tabulate e shape f) rows (tabulate e (batch ++ shape.drop depth) u) =
      .ok (tabulate e shape (lastUpdate depth a (walk batch) u f)) := by
  obtain ⟨hrows, hdepth, index, hints, haddress⟩ := h
  have hexpected : updatesShape shape rows.shape = .ok (batch ++ shape.drop depth) :=
    updatesShape_eq_ok.mpr ⟨depth, by simp [hrows], hdepth, by simp [hrows]⟩
  obtain ⟨left, right, rfl, hleft⟩ : ∃ left right, shape = left ++ right ∧ left.length = depth :=
    ⟨shape.take depth, shape.drop depth, (List.take_append_drop ..).symm,
      List.length_take_of_le hdepth⟩
  obtain ⟨hwithin, hoffsets⟩ := rowOffsets_addresses hleft haddress
  rw [List.drop_left' hleft] at hexpected ⊢
  have hcount : rows.shape.dropLast = batch ∧ rows.shape.getLastD 0 = depth := by simp [hrows]
  have hkernel := Kernel.scatter_walk f u right hwithin
  rw [hleft] at hkernel
  simp only [scatter, shape_tabulate, hexpected, ok_bind, ne_eq, not_true_eq_false, if_false,
    hcount, hints, hoffsets, elementType_tabulate, dataAs_tabulate]
  exact (congrArg (· >>= ofData e _) hkernel).trans ofData_walk

theorem scatter_tabulate_eq_ok {given : List Nat} {f u : List Nat → e.Carrier} {v : Tensor} :
    scatter (tabulate e shape f) rows (tabulate e given u) = .ok v ↔ ∃ batch depth a,
      Addresses rows shape batch depth a ∧ given = batch ++ shape.drop depth ∧
        v = tabulate e shape (lastUpdate depth a (walk batch) u f) := by
  constructor
  · intro h
    have hscatter := h
    obtain ⟨expected, hexpected, h⟩ := bind_eq_ok.mp h
    dsimp only at h
    split at h
    · cases h
    rename_i hgiven
    obtain rfl : expected = given := not_not.mp hgiven
    obtain ⟨depth, hlast, hdepth, rfl⟩ := updatesShape_eq_ok.mp hexpected
    obtain ⟨batch, hrows⟩ := List.getLast?_eq_some_iff.mp hlast
    obtain ⟨values, hints, h⟩ := bind_eq_ok.mp h
    obtain ⟨offsets, hoffsets, -⟩ := bind_eq_ok.mp h
    have hlen : values.length = volume (batch ++ [depth]) :=
      (length_ints hints).trans (congrArg volume hrows)
    obtain ⟨index, rfl⟩ : ∃ index, values = (walk (batch ++ [depth])).map index :=
      ⟨_, (map_getD_walk hlen 0).symm⟩
    have hcount : rows.shape.dropLast = batch ∧ rows.shape.getLastD 0 = depth := by simp [hrows]
    rw [hcount.1, hcount.2, Kernel.rowOffsets_walk, mapM_eq_ok] at hoffsets
    have haddress : ∀ r, Within r batch →
        ∃ c, Kernel.rowAddress (Kernel.rowAt index depth r) shape = .ok c := fun r hr => by
      obtain ⟨offset, -, hoffset⟩ := exists_of_forall₂_left hoffsets (mem_walk.mpr hr)
      obtain ⟨c, hc, -⟩ := map_eq_ok.mp hoffset
      exact ⟨c, hc⟩
    choose! a ha using haddress
    rw [hcount.1] at hscatter ⊢
    have haddresses : Addresses rows shape batch depth a :=
      ⟨hrows, hdepth, index, hrows ▸ hints, ha⟩
    exact ⟨batch, depth, a, haddresses, rfl,
      Except.ok.inj (hscatter.symm.trans (scatter_tabulate haddresses))⟩
  · rintro ⟨batch, depth, a, haddresses, rfl, rfl⟩
    exact scatter_tabulate haddresses

/-- Further axes of the shape are part of every slice. -/
theorem addresses_append {more : List Nat} (hdepth : depth ≤ shape.length) :
    Addresses rows (shape ++ more) batch depth a ↔ Addresses rows shape batch depth a := by
  have hlen (index : List Nat → Int) (r : List Nat) :
      (Kernel.rowAt index depth r).length ≤ shape.length := by simpa [Kernel.rowAt] using hdepth
  constructor
  · rintro ⟨hrows, -, index, hindex, ha⟩
    refine ⟨hrows, hdepth, index, hindex, fun r hr => ?_⟩
    rw [← ha r hr, Kernel.rowAddress_append (hlen index r)]
  · rintro ⟨hrows, -, index, hindex, ha⟩
    refine ⟨hrows, by simp; omega, index, hindex, fun r hr => ?_⟩
    rw [← ha r hr, Kernel.rowAddress_append (hlen index r)]

/-! ## Constant tensors -/

theorem mapM_targetSize_eq_ok {values : List Int} {sizes : List Nat} :
    values.mapM targetSize = .ok sizes ↔ values = sizes.map Int.ofNat := by
  have hsize {value : Int} {size : Nat} : targetSize value = .ok size ↔ value = Int.ofNat size := by
    unfold targetSize
    split
    · simp
      omega
    · simp
      omega
  rw [mapM_eq_ok, ← List.forall₂_eq_eq_eq, List.forall₂_map_right_iff]
  simp only [hsize]

theorem spread_scalar {α : Type} (x : α) (sizes : List Nat) :
    Kernel.spread [] sizes #[x] = .ok ((walk sizes).map fun _ => x) := by
  rw [Kernel.spread, Kernel.readAll, broadcastPositions, List.mapM_map]
  exact mapM_eq_ok_map fun c _ => rfl

theorem broadcast_scalar_eq_ok {x : e.Carrier} {target v : Tensor} :
    broadcast (scalar e x) target = .ok v ↔ ∃ sizes : List Nat,
      target.ints = .ok (sizes.map Int.ofNat) ∧ v = tabulate e sizes fun _ => x := by
  have hbroadcast {sizes : List Nat} (hints : target.ints = .ok (sizes.map Int.ofNat)) :
      broadcast (scalar e x) target = .ok (tabulate e sizes fun _ => x) := by
    have hshape : Shape.broadcast (scalar e x).shape sizes = .ok sizes := broadcast_nil sizes
    have hspread : Kernel.spread (scalar e x).shape sizes (scalar e x).data =
        .ok ((walk sizes).map fun _ => x) := spread_scalar x sizes
    have hsizes : (sizes.map Int.ofNat).mapM targetSize = .ok sizes := mapM_targetSize_eq_ok.mpr rfl
    simp only [broadcast, hints, ok_bind, hsizes, hshape, hspread]
    exact ofData_walk
  constructor
  · intro h
    have hresult := h
    obtain ⟨values, hints, h⟩ := bind_eq_ok.mp h
    obtain ⟨sizes, hsizes, -⟩ := bind_eq_ok.mp h
    obtain rfl := mapM_targetSize_eq_ok.mp hsizes
    exact ⟨sizes, hints, Except.ok.inj (hresult.symm.trans (hbroadcast hints))⟩
  · rintro ⟨sizes, hints, rfl⟩
    exact hbroadcast hints

end Tensor

end TensorLowering
