import TensorLowering.Proofs.Tensor.Tabulate

/-!
# Selection by coordinate

Shapes of one rank broadcast if on each axis the sizes agree or one of them is 1
(`broadcast_eq_ok_iff`), and an element of the result reads an operand at its own coordinate, with a
zero where the operand has size 1 (`Kernel.spread_walk`). So a condition on the leading axes selects
between two tables by the leading part of a coordinate (`Tensor.select_front`). Where the sizes of
the condition are those of the tables, these are read as they are (`Shape.pickFront_take`).
-/

namespace TensorLowering

open Shape

namespace Shape

variable {left right result front shape c : List Nat} {m n : Nat}

/-! ## Sizes -/

/-- The sizes agree, or one of them is 1 and gives way. -/
def Joinable (m n : Nat) : Prop :=
  m = n ∨ m = 1 ∨ n = 1

/-- The size that two such sizes broadcast to. -/
def joinSize (m n : Nat) : Nat :=
  if m = 1 then n else m

@[simp] theorem joinSize_self (n : Nat) : joinSize n n = n :=
  ite_self n

@[simp] theorem joinSize_one (n : Nat) : joinSize 1 n = n := rfl

theorem broadcastSize_eq_ok {dim : Option Nat} :
    broadcastSize (some m) (some n) = .ok dim ↔ Joinable m n ∧ some (joinSize m n) = dim := by
  by_cases hmn : m = n
  · simp [broadcastSize, Joinable, hmn]
  · by_cases hm : m = 1
    · subst hm
      simp [broadcastSize, Joinable, hmn]
    · by_cases hn : n = 1 <;> simp [broadcastSize, Joinable, joinSize, hmn, hm, hn]

theorem joinSize_joinable (h : Joinable m n) :
    Joinable (joinSize m n) n ∧ joinSize (joinSize m n) n = joinSize m n := by
  unfold Joinable joinSize at *
  split <;> simp_all

/-! ## Shapes of one rank -/

theorem forall₂_broadcastSize {dims : List (Option Nat)} (hlen : left.length = right.length) :
    List.Forall₂ (fun pair dim => broadcastSize pair.1 pair.2 = .ok dim)
      (List.zip (left.map some) (right.map some)) dims ↔
        List.Forall₂ Joinable left right ∧ dims = (List.zipWith joinSize left right).map some := by
  induction left generalizing right dims with
  | nil =>
    obtain rfl := List.length_eq_zero_iff.mp hlen.symm
    simp
  | cons m left ih =>
    obtain ⟨n, right, rfl⟩ := List.exists_cons_of_length_eq_add_one hlen.symm
    have hlen := Nat.succ.inj hlen
    cases dims with
    | nil => simp
    | cons dim dims =>
      simp only [List.map_cons, List.zip_cons_cons, List.zipWith_cons_cons, List.forall₂_cons,
        broadcastSize_eq_ok, ih hlen, List.cons.injEq]
      constructor
      · rintro ⟨⟨hmn, rfl⟩, hjoin, rfl⟩
        exact ⟨⟨hmn, hjoin⟩, rfl, rfl⟩
      · rintro ⟨⟨hmn, hjoin⟩, rfl, rfl⟩
        exact ⟨⟨hmn, rfl⟩, hjoin, rfl⟩

theorem broadcast_eq_ok_iff (hlen : left.length = right.length) :
    broadcast left right = .ok result ↔
      List.Forall₂ Joinable left right ∧ result = List.zipWith joinSize left right := by
  have hpartial {dims : List (Option Nat)} :
      broadcastPartial (left.map some) (right.map some) = .ok dims ↔
        List.Forall₂ Joinable left right ∧ dims = (List.zipWith joinSize left right).map some := by
    rw [broadcastPartial_eq_ok, alignRight_map_some, alignRight_map_some]
    simp only [List.length_map, hlen, Nat.max_self, Nat.sub_self, List.replicate_zero,
      List.nil_append]
    exact forall₂_broadcastSize hlen
  simp only [broadcast, bind_eq_ok, hpartial, pure_eq_ok, Except.ok.injEq]
  constructor
  · rintro ⟨_, ⟨hjoin, rfl⟩, rfl⟩
    exact ⟨hjoin, by simp⟩
  · rintro ⟨hjoin, rfl⟩
    exact ⟨_, ⟨hjoin, rfl⟩, by simp⟩

/-- What two shapes broadcast to broadcasts to itself with the second one. -/
theorem broadcast_of_broadcast (hlen : left.length = right.length)
    (h : broadcast left right = .ok result) : broadcast result right = .ok result := by
  obtain ⟨hjoin, rfl⟩ := (broadcast_eq_ok_iff hlen).mp h
  rw [broadcast_eq_ok_iff (by simp [hlen])]
  clear h hlen
  induction hjoin with
  | nil => exact ⟨.nil, rfl⟩
  | cons hmn _ ih =>
    obtain ⟨hjoin, hsize⟩ := joinSize_joinable hmn
    simp only [List.zipWith_cons_cons, List.forall₂_cons, List.cons.injEq]
    exact ⟨⟨hjoin, ih.1⟩, hsize.symm, ih.2⟩

/-! ## The leading axes -/

/-- The sizes agree with the leading ones of the shape, up to ones. -/
def JoinsFront (front shape : List Nat) : Prop :=
  List.Forall₂ Joinable front (shape.take front.length)

/-- The shape, joined on its leading axes with other sizes. -/
def joinFront (front shape : List Nat) : List Nat :=
  List.zipWith joinSize front (shape.take front.length) ++ shape.drop front.length

theorem length_joinFront (h : front.length ≤ shape.length) :
    (joinFront front shape).length = shape.length := by
  simp [joinFront]
  omega

theorem joinFront_take (k : Nat) : joinFront (shape.take k) shape = shape := by
  have hself (sizes : List Nat) : List.zipWith joinSize sizes sizes = sizes := by
    simp [List.zipWith_self]
  rw [joinFront, List.length_take]
  rcases Nat.le_total k shape.length with hk | hk
  · rw [Nat.min_eq_left hk, hself, List.take_append_drop]
  · rw [Nat.min_eq_right hk, List.take_of_length_le hk, List.take_length, hself, List.drop_length,
      List.append_nil]

theorem joinsFront_take (k : Nat) : JoinsFront (shape.take k) shape := by
  have hself (sizes : List Nat) : List.Forall₂ Joinable sizes sizes :=
    List.forall₂_same.mpr fun _ _ => .inl rfl
  rw [JoinsFront, List.length_take, ← List.take_eq_take_min]
  exact hself _

/-- The sizes are 1 or the leading ones of the shape. -/
def FitsFront (front shape : List Nat) : Prop :=
  List.Forall₂ (fun m n => m = 1 ∨ m = n) front (shape.take front.length)

/-- The shape stays as it is where none of its sizes gives way. -/
theorem joinFront_eq_self (h : front.length ≤ shape.length) :
    joinFront front shape = shape ↔ FitsFront front shape := by
  have hsize (m n : Nat) : joinSize m n = n ↔ m = 1 ∨ m = n := by
    by_cases hm : m = 1 <;> simp [joinSize, hm]
  have hzip (left right : List Nat) (hlen : left.length = right.length) :
      List.zipWith joinSize left right = right ↔
        List.Forall₂ (fun m n => m = 1 ∨ m = n) left right := by
    induction left generalizing right with
    | nil => simp [List.length_eq_zero_iff.mp hlen.symm]
    | cons m left ih =>
      obtain ⟨n, right, rfl⟩ := List.exists_cons_of_length_eq_add_one hlen.symm
      rw [List.zipWith_cons_cons, List.cons.injEq, List.forall₂_cons, hsize,
        ih right (Nat.succ.inj hlen)]
  have hsplit : joinFront front shape = shape ↔ joinFront front shape =
      shape.take front.length ++ shape.drop front.length := by
    rw [List.take_append_drop]
  rw [hsplit, joinFront, List.append_left_inj, FitsFront]
  exact hzip _ _ (by simp [h])

theorem JoinsFront.length_le (h : JoinsFront front shape) : front.length ≤ shape.length := by
  have := List.Forall₂.length_eq h
  simp at this
  omega

/-- Filled up with ones, the sizes broadcast with the shape on the leading axes. -/
theorem broadcast_front (h : front.length ≤ shape.length) :
    broadcast (front ++ List.replicate (shape.length - front.length) 1) shape = .ok result ↔
      JoinsFront front shape ∧ result = joinFront front shape := by
  rw [broadcast_eq_ok_iff (by simp; omega), JoinsFront, joinFront]
  induction front generalizing shape result with
  | nil =>
    -- Behind the front there are only ones, which give way to any size.
    have hjoin : List.Forall₂ Joinable (List.replicate shape.length 1) shape ∧
        List.zipWith joinSize (List.replicate shape.length 1) shape = shape := by
      clear h
      induction shape with
      | nil => exact ⟨.nil, rfl⟩
      | cons n shape ih => exact ⟨.cons (.inr (.inl rfl)) ih.1, congrArg (n :: ·) ih.2⟩
    simp [hjoin]
  | cons m front ih =>
    obtain ⟨n, shape, rfl⟩ := List.exists_cons_of_length_pos (Nat.zero_lt_of_lt h)
    have hle : front.length ≤ shape.length := Nat.le_of_succ_le_succ h
    cases result with
    | nil => simp
    | cons size result =>
      simp only [List.length_cons, Nat.add_sub_add_right, List.cons_append, List.forall₂_cons,
        List.zipWith_cons_cons, List.take_succ_cons, List.drop_succ_cons, List.cons.injEq]
      constructor
      · rintro ⟨⟨hmn, hjoin⟩, hsize, hresult⟩
        obtain ⟨hjoin, hresult⟩ := (ih hle).mp ⟨hjoin, hresult⟩
        exact ⟨⟨hmn, hjoin⟩, hsize, hresult⟩
      · rintro ⟨⟨hmn, hjoin⟩, hsize, hresult⟩
        obtain ⟨hjoin, hresult⟩ := (ih hle).mpr ⟨hjoin, hresult⟩
        exact ⟨⟨hmn, hjoin⟩, hsize, hresult⟩

/-- The leading part of what a coordinate reads. -/
theorem take_clamp_front (hc : c.length = shape.length) (h : front.length ≤ shape.length) :
    (clamp (front ++ List.replicate (shape.length - front.length) 1) c).take front.length =
      clamp front (c.take front.length) := by
  have hlen : (front ++ List.replicate (shape.length - front.length) 1).length = c.length := by
    simp
    omega
  have htake : (c.take front.length).length = front.length := by
    simp
    omega
  rw [clamp, clamp, hlen, htake, Nat.sub_self, Nat.sub_self, List.drop_zero, List.drop_zero,
    List.take_zipWith, List.take_left' rfl]

/-- What is chosen at a coordinate between two tables of the shape, by a table on its leading axes. -/
def pickFront {α : Type} (front shape : List Nat) (f : List Nat → Bool) (g h : List Nat → α)
    (c : List Nat) : α :=
  if f (clamp front (c.take front.length)) then g (clamp shape c) else h (clamp shape c)

/-- Where the sizes are the leading ones of the shape, the leading part of a coordinate chooses. -/
theorem pickFront_take {α : Type} {f : List Nat → Bool} {g h : List Nat → α} (k : Nat)
    (hc : Within c shape) :
    pickFront (shape.take k) shape f g h c = if f (c.take k) then g c else h c := by
  have htake : c.take (shape.take k).length = c.take k := by
    rw [List.length_take, ← hc.length_eq, ← List.take_eq_take_min]
  rw [pickFront, htake, clamp_self hc, clamp_self (List.forall₂_take k hc)]

theorem apply_pickFront {α β : Type} (p : α → β) (f : List Nat → Bool) (g h : List Nat → α) :
    p (pickFront front shape f g h c) = pickFront front shape f (p ∘ g) (p ∘ h) c :=
  apply_ite p _ _ _

end Shape

namespace Kernel

/-- An element of the result reads what the source has at its clamped coordinate. -/
theorem spread_walk {α : Type} {source result : List Nat} (f : List Nat → α)
    (h : Fits source result) : spread source result ((walk source).map f).toArray =
      .ok ((walk result).map fun c => f (clamp source c)) := by
  rw [spread, readAll, broadcastPositions, List.mapM_map]
  refine mapM_eq_ok_map fun c hc => ?_
  have hwithin := within_clamp h (mem_walk.mp hc)
  have hread : ((walk source).map f).toArray[position (clamp source c) (strides source)]? =
      some (f (clamp source c)) := by
    rw [List.getElem?_toArray, List.getElem?_map, getElem?_walk (position_lt hwithin),
      locate_position hwithin]
    rfl
  rw [Function.comp_apply, show broadcastPosition source c = position (clamp source c)
    (strides source) from rfl, read, hread]

end Kernel

namespace Tensor

variable {e : ElementType} {front shape : List Nat} {f : List Nat → Bool}
  {g h : List Nat → e.Carrier}

theorem select_tabulate {cs left right inner result : List Nat}
    (hi : Shape.broadcast cs left = .ok inner) (hs : Shape.broadcast inner right = .ok result) :
    select (tabulate .bool cs f) (tabulate e left g) (tabulate e right h) =
      .ok (tabulate e result fun c =>
        if f (clamp cs c) then g (clamp left c) else h (clamp right c)) := by
  obtain ⟨hcs, hl⟩ := fits_of_broadcast hi
  obtain ⟨hinner, hr⟩ := fits_of_broadcast hs
  have hdata : (tabulate .bool cs f).dataAs? .bool = some ((walk cs).map f).toArray := rfl
  have hchoose : Kernel.choose cs left right result ((walk cs).map f).toArray
      ((walk left).map g).toArray ((walk right).map h).toArray =
      .ok ((walk result).map fun c =>
        if f (clamp cs c) then g (clamp left c) else h (clamp right c)).toArray := by
    simp only [Kernel.choose, Kernel.spread_walk f (hcs.trans hinner),
      Kernel.spread_walk g (hl.trans hinner), Kernel.spread_walk h hr, ok_bind, pure_eq_ok]
    simp [List.zip_map', List.zipWith_map, List.zipWith_self]
  simp only [select, hdata, shape_tabulate, hi, hs, ok_bind, elementType_tabulate, dataAs_tabulate]
  exact (congrArg (· >>= ofData e result) hchoose).trans ofData_walk

theorem select_front (hle : front.length ≤ shape.length) {r : Tensor} :
    select (tabulate .bool (front ++ List.replicate (shape.length - front.length) 1)
        fun c => f (c.take front.length)) (tabulate e shape g) (tabulate e shape h) = .ok r ↔
      JoinsFront front shape ∧
        r = tabulate e (joinFront front shape) (pickFront front shape f g h) := by
  have hlen : (front ++ List.replicate (shape.length - front.length) 1).length = shape.length := by
    simp
    omega
  have hselect (hjoin : JoinsFront front shape) :
      select (tabulate .bool (front ++ List.replicate (shape.length - front.length) 1)
        fun c => f (c.take front.length)) (tabulate e shape g) (tabulate e shape h) =
        .ok (tabulate e (joinFront front shape) (pickFront front shape f g h)) := by
    have hi := (broadcast_front hle).mpr ⟨hjoin, rfl⟩
    rw [select_tabulate hi (broadcast_of_broadcast hlen hi)]
    refine congrArg Except.ok (tabulate_congr fun c hc => ?_)
    rw [take_clamp_front (hc.length_eq.trans (length_joinFront hle)) hle]
    rfl
  constructor
  · intro hr
    obtain ⟨inner, _, hi, -⟩ := type_select hr
    have hjoin := ((broadcast_front hle).mp hi).1
    exact ⟨hjoin, Except.ok.inj (hr.symm.trans (hselect hjoin))⟩
  · rintro ⟨hjoin, rfl⟩
    exact hselect hjoin

end Tensor

end TensorLowering
