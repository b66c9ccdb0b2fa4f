import TensorLowering.Proofs.Shape.Positions
import TensorLowering.Proofs.Shape.Rules

/-!
# Row-major order

A walk lists the coordinates of a shape by their flat positions (`walk_eq`): `locate` is the
coordinate at a position, and the inverse of `position` on the coordinates of the shape. So the walk
of a shape in two parts is a walk of the first part, with one of the second at each of its
coordinates (`walk_append`), and the elements along the second part lie in one block
(`block_map_walk`).
-/

namespace TensorLowering.Shape

variable {shape left right coordinate c d : List Nat} {n : Nat}

/-- The coordinate at a flat position. -/
def locate : List Nat → Nat → List Nat
  | [], _ => []
  | _ :: sizes, n => n / volume sizes :: locate sizes (n % volume sizes)

theorem within_locate (h : n < volume shape) : Within (locate shape n) shape := by
  induction shape generalizing n with
  | nil => exact .nil
  | cons size sizes ih =>
    have hpos : 0 < volume sizes := Nat.pos_of_lt_mul_left h
    exact .cons ((Nat.div_lt_iff_lt_mul hpos).mpr h) (ih (Nat.mod_lt n hpos))

theorem position_locate (h : n < volume shape) : position (locate shape n) (strides shape) = n := by
  induction shape generalizing n with
  | nil => exact (Nat.lt_one_iff.mp h).symm
  | cons size sizes ih =>
    have hpos : 0 < volume sizes := Nat.pos_of_lt_mul_left h
    calc n / volume sizes * volume sizes + position (locate sizes (n % volume sizes)) (strides sizes)
        = n / volume sizes * volume sizes + n % volume sizes := by rw [ih (Nat.mod_lt n hpos)]
      _ = n := Nat.div_add_mod' n (volume sizes)

theorem locate_position (h : Within coordinate shape) :
    locate shape (position coordinate (strides shape)) = coordinate := by
  induction h with
  | nil => rfl
  | @cons c size coordinate sizes hc hrest ih =>
    have hlt := position_lt hrest
    have hpos : 0 < volume sizes := Nat.zero_lt_of_lt hlt
    rw [strides, position, locate, Nat.mul_comm, Nat.mul_add_div hpos, Nat.mul_add_mod,
      Nat.div_eq_of_lt hlt, Nat.mod_eq_of_lt hlt, ih, Nat.add_zero]

/-! ## Walks -/

/-- A step to the next coordinate adds one to the position, until the carry leaves the shape. -/
theorem advanceCarry_spec (h : Within coordinate shape) :
    (advanceCarry coordinate shape).2 = true ∧
        position coordinate (strides shape) + 1 = volume shape ∧
        position (advanceCarry coordinate shape).1 (strides shape) = 0 ∨
      (advanceCarry coordinate shape).2 = false ∧
        position (advanceCarry coordinate shape).1 (strides shape) =
          position coordinate (strides shape) + 1 := by
  induction h with
  | nil => exact .inl ⟨rfl, rfl, rfl⟩
  | @cons c size coordinate sizes hc _ ih =>
    unfold advanceCarry
    rcases hstep : advanceCarry coordinate sizes with ⟨rest, _ | _⟩ <;> rw [hstep] at ih
    · obtain ⟨h, -⟩ | ⟨-, hnext⟩ := ih
      · cases h
      · refine .inr ⟨rfl, ?_⟩
        simp only [strides, position, hnext]
        omega
    · obtain ⟨-, hlast, hzero⟩ | ⟨h, -⟩ := ih
      · dsimp only at hzero
        by_cases hnext : c + 1 < size
        · simp only [hnext, if_true, strides, position, hzero, Nat.succ_mul]
          exact .inr ⟨trivial, by omega⟩
        · obtain rfl : size = c + 1 := by omega
          simp only [hnext, if_false, strides, position, hzero, volume_cons, Nat.succ_mul]
          exact .inl ⟨trivial, by omega, by omega⟩
      · cases h

theorem within_advance (h : Within coordinate shape) : Within (advance coordinate shape) shape :=
  within_advanceCarry h

theorem position_advance (h : Within coordinate shape)
    (hlt : position coordinate (strides shape) + 1 < volume shape) :
    position (advance coordinate shape) (strides shape) =
      position coordinate (strides shape) + 1 := by
  rcases advanceCarry_spec h with ⟨-, hlast, -⟩ | ⟨-, hnext⟩
  · omega
  · exact hnext

theorem position_origin (shape : List Nat) : position (origin shape) (strides shape) = 0 := by
  induction shape with
  | nil => rfl
  | cons size sizes ih =>
    show 0 * volume sizes + position (origin sizes) (strides sizes) = 0
    rw [ih, Nat.zero_mul]

/-- By induction on the number of steps. -/
theorem walkFrom_eq {count : Nat} (h : Within coordinate shape)
    (hcount : position coordinate (strides shape) + count ≤ volume shape) :
    walkFrom shape count coordinate =
      (List.range' (position coordinate (strides shape)) count).map (locate shape) := by
  induction count generalizing coordinate with
  | zero => rfl
  | succ count ih =>
    rw [walkFrom, List.range'_succ, List.map_cons, locate_position h]
    congr 1
    cases count with
    | zero => rfl
    | succ count =>
      have hnext := position_advance h (by omega)
      rw [ih (within_advance h) (by omega), hnext]

/-- A walk visits the flat positions in order. -/
theorem walk_eq (shape : List Nat) :
    walk shape = (List.range (volume shape)).map (locate shape) := by
  by_cases hv : volume shape = 0
  · rw [walk_eq_walkFrom, hv]
    rfl
  · have hstart := position_origin shape
    rw [walk_eq_walkFrom, walkFrom_eq (within_origin hv) (by omega), hstart, List.range_eq_range']

@[simp] theorem length_walk (shape : List Nat) : (walk shape).length = volume shape := by
  simp [walk_eq]

theorem getElem?_walk (h : n < volume shape) : (walk shape)[n]? = some (locate shape n) := by
  rw [walk_eq, List.getElem?_map, List.getElem?_range h, Option.map_some]

theorem mem_walk : coordinate ∈ walk shape ↔ Within coordinate shape := by
  refine ⟨within_of_mem_walk, fun h => ?_⟩
  rw [walk_eq, List.mem_map]
  exact ⟨_, List.mem_range.mpr (position_lt h), locate_position h⟩

theorem map_position_walk (shape : List Nat) :
    (walk shape).map (position · (strides shape)) = List.range (volume shape) := by
  rw [walk_eq, List.map_map]
  conv => rhs; rw [← List.map_id (List.range _)]
  exact List.map_congr_left fun n hn => position_locate (List.mem_range.mp hn)

/-- A list of as many elements as a shape has is read off along the walk. -/
theorem map_getD_walk {α : Type} {xs : List α} {shape : List Nat} (h : xs.length = volume shape)
    (x : α) : (walk shape).map (fun c => xs.getD (position c (strides shape)) x) = xs := by
  have hmap : (walk shape).map (fun c => xs.getD (position c (strides shape)) x) =
      ((walk shape).map (position · (strides shape))).map (xs.getD · x) := by
    rw [List.map_map]
    rfl
  rw [hmap, map_position_walk, ← h]
  refine List.ext_getElem (by simp) fun i hi hi' => ?_
  simp [List.getElem?_eq_getElem hi']

/-- A walk comes by the coordinates in the order of their positions. -/
theorem pairwise_walk (shape : List Nat) : (walk shape).Pairwise fun c d =>
    position c (strides shape) < position d (strides shape) :=
  List.pairwise_map.mp (map_position_walk shape ▸ List.pairwise_lt_range)

theorem nodup_walk (shape : List Nat) : (walk shape).Nodup :=
  List.Pairwise.imp (fun {c d} hlt (heq : c = d) => Nat.ne_of_lt hlt (by rw [heq]))
    (pairwise_walk shape)

/-- A walk comes by each coordinate once, after as many others as its position says. -/
theorem exists_walk_split (h : Within coordinate shape) : ∃ before after,
    walk shape = before ++ coordinate :: after ∧
      before.length = position coordinate (strides shape) ∧ coordinate ∉ before ∧
      coordinate ∉ after := by
  obtain ⟨before, after, hsplit⟩ := List.append_of_mem (mem_walk.mpr h)
  have hnodup : (before ++ coordinate :: after).Nodup := hsplit ▸ nodup_walk shape
  obtain ⟨-, hafter, hdisjoint⟩ := List.nodup_append.mp hnodup
  have hlt : before.length < volume shape := by
    rw [← length_walk, hsplit, List.length_append, List.length_cons]
    omega
  have hlocate : locate shape before.length = coordinate := by
    have hget := getElem?_walk hlt
    rw [hsplit, List.getElem?_append_right (Nat.le_refl _), Nat.sub_self] at hget
    exact (Option.some.inj hget).symm
  refine ⟨before, after, hsplit, ?_, fun hmem => ?_, (List.nodup_cons.mp hafter).1⟩
  · rw [← hlocate, position_locate hlt]
  · exact hdisjoint _ hmem _ List.mem_cons_self rfl

/-! ## Shapes in two parts -/

theorem position_append (h : c.length = left.length) : position (c ++ d) (strides (left ++ right)) =
    position c (strides left) * volume right + position d (strides right) := by
  induction left generalizing c with
  | nil =>
    obtain rfl := List.length_eq_zero_iff.mp h
    simp [position]
  | cons size sizes ih =>
    cases c with
    | nil => cases h
    | cons i c =>
      simp only [List.cons_append, strides, position, volume_append, ih (Nat.succ.inj h),
        Nat.add_mul, Nat.mul_assoc, Nat.add_assoc]

theorem within_append (hc : Within c left) (hd : Within d right) :
    Within (c ++ d) (left ++ right) :=
  List.rel_append hc hd

theorem exists_of_within_split {size : Nat} (h : Within c (left ++ size :: right)) :
    ∃ p i q, c = p ++ i :: q ∧ Within p left ∧ i < size ∧ Within q right := by
  obtain ⟨i, q, hi, hq, heq⟩ :=
    List.forall₂_cons_right_iff.mp (List.forall₂_drop_append c left (size :: right) h)
  exact ⟨c.take left.length, i, q, by rw [← heq, List.take_append_drop],
    List.forall₂_take_append c left _ h, hi, hq⟩

theorem range_mul (m n : Nat) :
    List.range (m * n) = (List.range m).flatMap fun i => (List.range n).map (i * n + ·) := by
  induction m with
  | zero => simp
  | succ m ih => rw [Nat.succ_mul, List.range_add, ih, List.range_succ, List.flatMap_append,
      List.flatMap_singleton]

theorem walk_cons (size : Nat) (sizes : List Nat) :
    walk (size :: sizes) = (List.range size).flatMap fun i => (walk sizes).map (i :: ·) := by
  rw [walk_eq, volume_cons, range_mul, List.map_flatMap]
  refine List.flatMap_congr fun i _ => ?_
  rw [List.map_map, walk_eq, List.map_map]
  refine List.map_congr_left fun n hn => ?_
  have hlt := List.mem_range.mp hn
  have hpos : 0 < volume sizes := Nat.zero_lt_of_lt hlt
  rw [Function.comp_apply, locate, Nat.mul_comm, Nat.mul_add_div hpos, Nat.mul_add_mod,
    Nat.div_eq_of_lt hlt, Nat.mod_eq_of_lt hlt, Nat.add_zero]
  rfl

theorem walk_append (left right : List Nat) :
    walk (left ++ right) = (walk left).flatMap fun c => (walk right).map (c ++ ·) := by
  induction left with
  | nil => simp [show walk [] = [[]] from rfl]
  | cons size sizes ih =>
    rw [List.cons_append, walk_cons, walk_cons, List.flatMap_assoc]
    refine List.flatMap_congr fun i _ => ?_
    rw [ih, List.map_flatMap, List.flatMap_map]
    simp [Function.comp_def]

/-! ## Axes of size 1 -/

theorem walk_replicate_one (n : Nat) : walk (List.replicate n 1) = [List.replicate n 0] := by
  induction n with
  | zero => rfl
  | succ n ih => simp [List.replicate_succ, walk_cons, ih]

theorem walk_append_ones (shape : List Nat) (n : Nat) :
    walk (shape ++ List.replicate n 1) = (walk shape).map (· ++ List.replicate n 0) := by
  simp [walk_append, walk_replicate_one, List.map_eq_flatMap]

theorem volume_append_ones (shape : List Nat) (n : Nat) :
    volume (shape ++ List.replicate n 1) = volume shape := by
  rw [← length_walk, walk_append_ones, List.length_map, length_walk]

/-- Collapsing where the first axis has the number `start`. -/
def collapseFrom {α : Type} (one : α) (keepDims : Bool) (axes : List Nat) (start : Nat)
    (dims : List α) : List α :=
  (dims.zipIdx start).filterMap fun (dim, axis) =>
    if axes.contains axis then (if keepDims then some one else none) else some dim

section Collapse

variable {α : Type} {one : α} {keepDims : Bool} {axes : List Nat} {start : Nat}

theorem collapse_eq (dims : List α) :
    collapse one keepDims axes dims = collapseFrom one keepDims axes 0 dims := rfl

theorem collapseFrom_cons_of_mem (h : start ∈ axes) (dim : α) (dims : List α) :
    collapseFrom one keepDims axes start (dim :: dims) =
      (if keepDims then [one] else []) ++ collapseFrom one keepDims axes (start + 1) dims := by
  cases keepDims <;> simp [collapseFrom, h]

theorem collapseFrom_cons_of_notMem (h : start ∉ axes) (dim : α) (dims : List α) :
    collapseFrom one keepDims axes start (dim :: dims) =
      dim :: collapseFrom one keepDims axes (start + 1) dims := by
  simp [collapseFrom, h]

theorem length_collapseFrom (dims : List α) : (collapseFrom one false axes start dims).length =
    ((List.range' start dims.length).filter (!axes.contains ·)).length := by
  induction dims generalizing start with
  | nil => rfl
  | cons dim dims ih =>
    rw [List.length_cons, List.range'_succ]
    by_cases hstart : start ∈ axes
    · simp [collapseFrom_cons_of_mem hstart, hstart, ih]
    · simp [collapseFrom_cons_of_notMem hstart, hstart, ih]

/-- Removing axes of size 1 leaves the order of the coordinates as it is. -/
theorem walk_collapseFrom (h : ∀ i size, shape[i]? = some size → start + i ∈ axes → size = 1) :
    walk (collapseFrom 1 false axes start shape) =
      (walk shape).map (collapseFrom 0 false axes start) := by
  induction shape generalizing start with
  | nil => rfl
  | cons size sizes ih =>
    have hrest : ∀ i size, sizes[i]? = some size → start + 1 + i ∈ axes → size = 1 :=
      fun i n hn hi => h (i + 1) n hn (by rwa [Nat.add_comm i, ← Nat.add_assoc])
    rw [walk_cons, List.map_flatMap]
    by_cases hstart : start ∈ axes
    · obtain rfl : size = 1 := h 0 size rfl hstart
      rw [collapseFrom_cons_of_mem hstart, if_neg Bool.false_ne_true, List.nil_append, ih hrest]
      simp [collapseFrom_cons_of_mem hstart, Function.comp_def]
    · rw [collapseFrom_cons_of_notMem hstart, walk_cons, ih hrest]
      simp [collapseFrom_cons_of_notMem hstart, Function.comp_def]

theorem insertOnes_cons_of_mem {position : Nat} (h : position ∈ axes) (positions : List Nat)
    (dims : List α) : insertOnes one axes (position :: positions) dims =
      one :: insertOnes one axes positions dims := by
  rw [insertOnes.eq_def]
  exact if_pos (List.contains_iff_mem.mpr h)

theorem insertOnes_cons_of_notMem {position : Nat} (h : position ∉ axes) (positions : List Nat)
    (dim : α) (dims : List α) : insertOnes one axes (position :: positions) (dim :: dims) =
      dim :: insertOnes one axes positions dims := by
  rw [insertOnes.eq_def]
  exact if_neg (by simpa using h)

/-- Ones, or zeros of a coordinate, that were removed are put back. -/
theorem insertOnes_collapseFrom {xs : List α}
    (h : ∀ i x, xs[i]? = some x → start + i ∈ axes → x = one) :
    insertOnes one axes (List.range' start xs.length) (collapseFrom one false axes start xs) = xs := by
  induction xs generalizing start with
  | nil => rfl
  | cons x xs ih =>
    have hrest : ∀ i x, xs[i]? = some x → start + 1 + i ∈ axes → x = one :=
      fun i n hn hi => h (i + 1) n hn (by rwa [Nat.add_comm i, ← Nat.add_assoc])
    rw [List.length_cons, List.range'_succ]
    by_cases hstart : start ∈ axes
    · obtain rfl : x = one := h 0 x rfl hstart
      simp [collapseFrom_cons_of_mem hstart, insertOnes, hstart, ih hrest]
    · simp [collapseFrom_cons_of_notMem hstart, insertOnes, hstart, ih hrest]

/-- Where all dims find a place, putting ones in gives as many entries as there are places, a one on
each of the axes, and the dims again without the axes. -/
theorem insertOnes_range' (one one' : α) {n : Nat} {dims : List α}
    (h : ((List.range' start n).filter (!axes.contains ·)).length = dims.length) :
    (insertOnes one axes (List.range' start n) dims).length = n ∧
      (∀ i < n, start + i ∈ axes →
        (insertOnes one axes (List.range' start n) dims)[i]? = some one) ∧
      collapseFrom one' false axes start (insertOnes one axes (List.range' start n) dims) = dims := by
  induction n generalizing start dims with
  | zero =>
    obtain rfl := List.length_eq_zero_iff.mp h.symm
    exact ⟨rfl, nofun, rfl⟩
  | succ n ih =>
    rw [List.range'_succ] at h ⊢
    have hnext {i : Nat} (hi : start + (i + 1) ∈ axes) : start + 1 + i ∈ axes := by
      rwa [Nat.add_assoc, Nat.add_comm 1]
    by_cases hstart : start ∈ axes
    · rw [List.filter_cons_of_neg (by simpa using hstart)] at h
      obtain ⟨hlen, hones, hdims⟩ := ih h
      rw [insertOnes_cons_of_mem hstart]
      refine ⟨congrArg Nat.succ hlen, fun i hi hmem => ?_, ?_⟩
      · cases i with
        | zero => rfl
        | succ i => exact hones i (Nat.lt_of_succ_lt_succ hi) (hnext hmem)
      · rw [collapseFrom_cons_of_mem hstart]
        exact hdims
    · rw [List.filter_cons_of_pos (by simpa using hstart)] at h
      obtain ⟨dim, dims, rfl⟩ := List.exists_cons_of_length_eq_add_one h.symm
      obtain ⟨hlen, hones, hdims⟩ := ih (Nat.succ.inj h)
      rw [insertOnes_cons_of_notMem hstart]
      refine ⟨congrArg Nat.succ hlen, fun i hi hmem => ?_, ?_⟩
      · cases i with
        | zero => exact absurd hmem hstart
        | succ i => exact hones i (Nat.lt_of_succ_lt_succ hi) (hnext hmem)
      · rw [collapseFrom_cons_of_notMem hstart]
        exact congrArg _ hdims

/-- Two lists collapse to the same one if they agree on the axes that stay. -/
theorem collapseFrom_eq_iff {xs ys : List α} (hlen : xs.length = ys.length) :
    collapseFrom one keepDims axes start xs = collapseFrom one keepDims axes start ys ↔
      ∀ i, start + i ∉ axes → xs[i]? = ys[i]? := by
  induction xs generalizing start ys with
  | nil => simp_all [eq_comm]
  | cons x xs ih =>
    obtain ⟨y, ys, rfl⟩ := List.exists_cons_of_length_eq_add_one hlen.symm
    have hsplit : (∀ i, start + i ∉ axes → (x :: xs)[i]? = (y :: ys)[i]?) ↔
        (start ∉ axes → x = y) ∧ ∀ i, start + 1 + i ∉ axes → xs[i]? = ys[i]? := by
      constructor
      · refine fun h => ⟨fun hs => by simpa using h 0 hs, fun i hi => ?_⟩
        exact h (i + 1) (by rwa [Nat.add_comm i, ← Nat.add_assoc])
      · rintro ⟨h, hrest⟩ (_ | i) hi
        · exact congrArg some (h hi)
        · exact hrest i (by rwa [Nat.add_assoc, Nat.add_comm 1])
    rw [hsplit, ← ih (Nat.succ.inj hlen)]
    by_cases hstart : start ∈ axes
    · simp [collapseFrom_cons_of_mem hstart, hstart]
    · simp [collapseFrom_cons_of_notMem hstart, hstart]

theorem collapse_eq_iff {xs ys : List α} (hlen : xs.length = ys.length) :
    collapse one keepDims axes xs = collapse one keepDims axes ys ↔
      ∀ i, i ∉ axes → xs[i]? = ys[i]? := by
  rw [collapse_eq, collapse_eq, collapseFrom_eq_iff hlen]
  simp only [Nat.zero_add]

/-- On reduced axes there is no coordinate but zero. -/
theorem getElem?_of_within_collapse {p : List Nat} (hp : Within p (collapse 1 true axes shape))
    {a : Nat} (ha : a ∈ axes) (hlt : a < shape.length) : p[a]? = some 0 := by
  have hlt' : a < p.length := by rwa [hp.length_eq, length_collapse_keep]
  obtain ⟨size, hsize, hi⟩ := getElem?_of_forall₂ hp (List.getElem?_eq_getElem hlt')
  rw [getElem?_collapse_keep, List.getElem?_eq_getElem hlt, Option.map_some, if_pos ha] at hsize
  obtain rfl := Option.some.inj hsize
  rw [List.getElem?_eq_getElem hlt', Nat.lt_one_iff.mp hi]

theorem collapse_self {p : List Nat} (hp : Within p (collapse 1 true axes shape)) :
    collapse 0 true axes p = p := by
  refine List.ext_getElem? fun a => ?_
  rw [getElem?_collapse_keep]
  by_cases ha : a ∈ axes
  · by_cases hlt : a < shape.length
    · rw [getElem?_of_within_collapse hp ha hlt, Option.map_some, if_pos ha]
    · have hnone : p[a]? = none := by
        rw [List.getElem?_eq_none_iff, hp.length_eq, length_collapse_keep]
        exact Nat.not_lt.mp hlt
      rw [hnone, Option.map_none]
  · simp [ha]

/-- A coordinate is zero on axes of size 1: what stays of it without them says where it was. -/
theorem insertOnes_collapse {p : List Nat} (hone : ∀ a ∈ axes, shape[a]? = some 1)
    (hp : Within p shape) :
    insertOnes 0 axes (List.range shape.length) (collapse 0 false axes p) = p := by
  have hzero : ∀ i x, p[i]? = some x → 0 + i ∈ axes → x = 0 := fun i x hi ha => by
    rw [Nat.zero_add] at ha
    obtain ⟨size, hsize, hx⟩ := getElem?_of_forall₂ hp hi
    obtain rfl := Option.some.inj (hsize.symm.trans (hone i ha))
    exact Nat.lt_one_iff.mp hx
  rw [collapse_eq, List.range_eq_range', ← hp.length_eq, insertOnes_collapseFrom hzero]

/-- Axes may be kept first, and reduced then. -/
theorem collapse_collapse_keep (one : α) (keepDims : Bool) (axes : List Nat) (xs : List α) :
    collapse one keepDims axes (collapse one true axes xs) = collapse one keepDims axes xs := by
  refine (collapse_eq_iff (length_collapse_keep ..)).mpr fun i hi => ?_
  rw [getElem?_collapse_keep]
  simp [hi]

/-- Coordinates come in one order, whether reduced axes are kept or not. -/
theorem walk_collapse_keep (keepDims : Bool) (axes shape : List Nat) :
    walk (collapse 1 keepDims axes shape) =
      (walk (collapse 1 true axes shape)).map (collapse 0 keepDims axes) := by
  cases keepDims with
  | true =>
    conv_lhs => rw [← List.map_id (walk _)]
    exact List.map_congr_left fun p hp => (collapse_self (mem_walk.mp hp)).symm
  | false =>
    have hone : ∀ i size, (collapse 1 true axes shape)[i]? = some size → 0 + i ∈ axes →
        size = 1 := by
      intro i size hsize hi
      rw [getElem?_collapse_keep] at hsize
      obtain ⟨_, -, rfl⟩ := Option.map_eq_some_iff.mp hsize
      exact if_pos (by simpa using hi)
    rw [← collapse_collapse_keep 1 false axes shape]
    exact walk_collapseFrom hone

/-- A reduced axis counts once, whether it is kept or not. -/
theorem volume_collapse_keep (keepDims : Bool) (axes shape : List Nat) :
    volume (collapse 1 true axes shape) = volume (collapse 1 keepDims axes shape) := by
  rw [← length_walk (collapse 1 keepDims axes shape), walk_collapse_keep, List.length_map,
    length_walk]

end Collapse

/-! ## Blocks -/

/-- Of lists of one length that are put in a row, the list with number `i`. -/
theorem block_flatMap {α β : Type} {xs : List α} {f : α → List β} {m i : Nat} {x : α}
    (hm : ∀ x ∈ xs, (f x).length = m) (hi : xs[i]? = some x) :
    ((xs.flatMap f).drop (i * m)).take m = f x := by
  induction xs generalizing i with
  | nil => cases hi
  | cons y ys ih =>
    have hy := hm y List.mem_cons_self
    rw [List.flatMap_cons]
    cases i with
    | zero =>
      obtain rfl := Option.some.inj hi
      rw [Nat.zero_mul, List.drop_zero, ← hy, List.take_left']
      rfl
    | succ i =>
      rw [Nat.succ_mul, Nat.add_comm, ← List.drop_drop, List.drop_left' hy]
      exact ih (fun x hx => hm x (List.mem_cons_of_mem _ hx)) hi

/-- The elements with one coordinate on the first part of a shape lie next to each other. -/
theorem block_map_walk {α : Type} (f : List Nat → α) (right : List Nat) (h : n < volume left) :
    (((walk (left ++ right)).map f).drop (n * volume right)).take (volume right) =
      (walk right).map fun d => f (locate left n ++ d) := by
  rw [walk_append, List.map_flatMap,
    block_flatMap (fun _ _ => by simp) (getElem?_walk h), List.map_map]
  rfl

end TensorLowering.Shape
