import Mathlib.Algebra.QuadraticAlgebra.Defs
import Mathlib.Data.List.Perm.Basic
import TensorLowering.Lowering.ComplexProduct
import TensorLowering.Proofs.Shape.RowMajor
import TensorLowering.Proofs.Shape.Rules

/-!
# Combining by halves

What repeated halving makes of elements on coordinates, for any way to combine two elements.
`halve` is one round on an axis, `combineAlong` all rounds on it and `combineAll` the rounds on one
axis after the other. With trees for elements this gives the tree of all combinations that were made
(`value_combineAll`), and its leaves are the coordinates of a slice, each once
(`leaves_combineAll_perm`). So the way in which the elements are paired does not matter where
combining them is commutative and associative (`toQuadratic_value`).
-/

universe u

namespace TensorLowering.Lowering

open Shape

/-! ## Trees -/

/-- A binary tree of products of elements that are named by its leaves. -/
inductive ProductTree (α : Type) where
  | leaf (a : α)
  | node (lhs rhs : ProductTree α)
deriving DecidableEq, Repr

namespace ProductTree

variable {α : Type} {β : Type u}

def leaves : ProductTree α → List α
  | leaf a => [a]
  | node lhs rhs => lhs.leaves ++ rhs.leaves

/-- The product, where two elements are multiplied by `mul`. -/
def value (mul : β → β → β) (f : α → β) : ProductTree α → β
  | leaf a => f a
  | node lhs rhs => mul (lhs.value mul f) (rhs.value mul f)

theorem value_eq_prod {M : Type u} [CommMonoid M] (f : α → M) (tree : ProductTree α) :
    tree.value (· * ·) f = (tree.leaves.map f).prod := by
  induction tree with
  | leaf a => simp [value, leaves]
  | node lhs rhs ihl ihr => simp [value, leaves, ihl, ihr]

theorem leaves_ne_nil (tree : ProductTree α) : tree.leaves ≠ [] := by
  induction tree with
  | leaf a => exact List.cons_ne_nil a []
  | node lhs rhs ihl _ => exact List.append_ne_nil_of_left_ne_nil ihl _

/-- A tree of one element leaves it unchanged. -/
theorem value_of_perm_singleton {mul : β → β → β} {f : α → β} {tree : ProductTree α} {a : α}
    (h : tree.leaves.Perm [a]) : tree.value mul f = f a := by
  cases tree with
  | leaf b =>
    obtain rfl := List.singleton_perm_singleton.mp h
    rfl
  | node lhs rhs =>
    have hlhs := List.length_pos_iff.mpr lhs.leaves_ne_nil
    have hrhs := List.length_pos_iff.mpr rhs.leaves_ne_nil
    have hlen := h.length_eq
    rw [leaves, List.length_append, List.length_singleton] at hlen
    omega

theorem map_value {γ : Type u} {mul : β → β → β} {mul' : γ → γ → γ} {φ : β → γ}
    (hφ : ∀ x y, φ (mul x y) = mul' (φ x) (φ y)) (f : α → β) (tree : ProductTree α) :
    φ (tree.value mul f) = tree.value mul' (φ ∘ f) := by
  induction tree with
  | leaf a => rfl
  | node lhs rhs ihl ihr => rw [value, hφ, ihl, ihr, value]

end ProductTree

/-! ## Complex numbers -/

/-- The product of complex numbers that are given by their parts. -/
def complexMul {α : Type u} (add sub mul : α → α → α) (x y : α × α) : α × α :=
  (sub (mul x.1 y.1) (mul x.2 y.2), add (mul x.1 y.2) (mul x.2 y.1))

section Ring

variable {R : Type u} [CommRing R]

/-- The complex number over a ring, in which the square of the imaginary unit is -1. -/
def toQuadratic (x : R × R) : QuadraticAlgebra R (-1) 0 :=
  ⟨x.1, x.2⟩

theorem toQuadratic_mul (x y : R × R) :
    toQuadratic (complexMul (· + ·) (· - ·) (· * ·) x y) = toQuadratic x * toQuadratic y := by
  rw [toQuadratic, toQuadratic, toQuadratic, QuadraticAlgebra.mk_mul_mk]
  ext <;> simp only [complexMul] <;> ring

theorem toQuadratic_value {α : Type} (f : α → R × R) (tree : ProductTree α) :
    toQuadratic (tree.value (complexMul (· + ·) (· - ·) (· * ·)) f) =
      (tree.leaves.map fun a => toQuadratic (f a)).prod := by
  rw [ProductTree.map_value toQuadratic_mul, ProductTree.value_eq_prod]
  rfl

end Ring

/-! ## Rounds -/

section Rounds

variable {β γ : Type}

/-- The elements after a round on an axis: those of the lower half are combined with those of the
upper half, and an odd last one is kept. -/
def halve (combine : β → β → β) (axis size : Nat) (f : List Nat → β) (c : List Nat) : β :=
  let i := c.getD axis 0
  if i < size / 2 then combine (f c) (f (c.set axis (size / 2 + i))) else f (c.set axis (size - 1))

/-- The elements after all rounds on an axis. -/
def combineAlong (combine : β → β → β) (axis size : Nat) (f : List Nat → β) : List Nat → β :=
  if size ≤ 1 then f
  else combineAlong combine axis (size / 2 + size % 2) (halve combine axis size f)
termination_by size
decreasing_by omega

/-- The elements after all rounds on each of the axes. -/
def combineAll (combine : β → β → β) (known : List KnownAxis) (f : List Nat → β) : List Nat → β :=
  known.foldl (fun f k => combineAlong combine k.axis k.size f) f

variable {combine : β → β → β}

theorem combineAlong_of_le {axis size : Nat} {f : List Nat → β} (h : size ≤ 1) :
    combineAlong combine axis size f = f := by
  rw [combineAlong, if_pos h]

theorem combineAlong_of_lt {axis size : Nat} {f : List Nat → β} (h : 1 < size) :
    combineAlong combine axis size f =
      combineAlong combine axis (size / 2 + size % 2) (halve combine axis size f) := by
  rw [combineAlong, if_neg (Nat.not_le.mpr h)]

theorem combineAll_cons {k : KnownAxis} {known : List KnownAxis} {f : List Nat → β} :
    combineAll combine (k :: known) f =
      combineAll combine known (combineAlong combine k.axis k.size f) := rfl

variable {combine' : γ → γ → γ} {φ : β → γ} (hφ : ∀ x y, φ (combine x y) = combine' (φ x) (φ y))
include hφ

theorem comp_halve (axis size : Nat) (f : List Nat → β) :
    φ ∘ halve combine axis size f = halve combine' axis size (φ ∘ f) := by
  funext c
  simp only [halve, Function.comp_apply]
  split
  · exact hφ ..
  · rfl

theorem comp_combineAlong (axis size : Nat) (f : List Nat → β) :
    φ ∘ combineAlong combine axis size f = combineAlong combine' axis size (φ ∘ f) := by
  induction size, f using combineAlong.induct combine axis with
  | case1 size f hsize => rw [combineAlong_of_le hsize, combineAlong_of_le hsize]
  | case2 size f hsize ih =>
    have hsize := Nat.not_le.mp hsize
    rw [combineAlong_of_lt hsize, ih, comp_halve hφ, ← combineAlong_of_lt hsize]

/-- Rounds commute with a map that takes one way to combine to another. -/
theorem comp_combineAll (known : List KnownAxis) (f : List Nat → β) :
    φ ∘ combineAll combine known f = combineAll combine' known (φ ∘ f) := by
  induction known generalizing f with
  | nil => rfl
  | cons k known ih => rw [combineAll_cons, combineAll_cons, ih, comp_combineAlong hφ]

end Rounds

/-- The tree of all elements that are combined at a coordinate. -/
def combination (known : List KnownAxis) : List Nat → ProductTree (List Nat) :=
  combineAll ProductTree.node known ProductTree.leaf

theorem combineAll_eq_value {β : Type} (mul : β → β → β) (known : List KnownAxis)
    (f : List Nat → β) (c : List Nat) :
    combineAll mul known f c = (combination known c).value mul f := by
  have hvalue (lhs rhs : ProductTree (List Nat)) :
      (ProductTree.node lhs rhs).value mul f = mul (lhs.value mul f) (rhs.value mul f) := rfl
  exact (congrFun (comp_combineAll hvalue known .leaf) c).symm

/-! ## Leaves -/

section Leaves

variable {α : Type} {axis size : Nat} {p d : List Nat} {known : List KnownAxis}

/-- A round keeps what there is along the axis. -/
theorem halve_append_perm (f : List Nat → List α) (hp : axis < p.length) :
    ((List.range (size / 2 + size % 2)).flatMap fun i =>
        halve (· ++ ·) axis size f (p.set axis i)).Perm
      ((List.range size).flatMap fun i => f (p.set axis i)) := by
  have hlower : (List.range (size / 2)).flatMap (fun i => halve (· ++ ·) axis size f (p.set axis i)) =
      (List.range (size / 2)).flatMap fun i =>
        f (p.set axis i) ++ f (p.set axis (size / 2 + i)) := by
    refine List.flatMap_congr fun i hi => ?_
    simp [halve, hp, List.mem_range.mp hi]
  have hlast (i : Nat) (hi : ¬i < size / 2) : halve (· ++ ·) axis size f (p.set axis i) =
      f (p.set axis (size - 1)) := by
    simp [halve, hp, hi]
  have hpairs := List.flatMap_append_perm (List.range (size / 2)) (fun i => f (p.set axis i))
    fun i => f (p.set axis (size / 2 + i))
  rw [List.range_add, List.flatMap_append, hlower]
  have hsplit : size = size / 2 + size / 2 + size % 2 := by omega
  have hrange : (List.range size).flatMap (fun i => f (p.set axis i)) =
      (List.range (size / 2)).flatMap (fun i => f (p.set axis i)) ++
        (List.range (size / 2)).flatMap (fun i => f (p.set axis (size / 2 + i))) ++
          (List.range (size % 2)).flatMap fun i => f (p.set axis (size / 2 + size / 2 + i)) := by
    conv => lhs; rw [hsplit]
    rw [List.range_add, List.range_add, List.flatMap_append, List.flatMap_append, List.flatMap_map,
      List.flatMap_map]
  rw [hrange, List.flatMap_map]
  refine hpairs.symm.append (.of_eq (List.flatMap_congr fun i hi => ?_))
  have hi := List.mem_range.mp hi
  rw [hlast _ (by omega)]
  congr 2
  omega

/-- All rounds on an axis lead to what there is along it. -/
theorem combineAlong_append_perm (f : List Nat → List α) (hp : p[axis]? = some 0)
    (hsize : 0 < size) : (combineAlong (· ++ ·) axis size f p).Perm
      ((List.range size).flatMap fun i => f (p.set axis i)) := by
  obtain ⟨hlt, hzero⟩ := List.getElem?_eq_some_iff.mp hp
  induction size, f using combineAlong.induct (fun xs ys : List α => xs ++ ys) axis with
  | case1 size f h =>
    obtain rfl : size = 1 := by omega
    have hself : p.set axis 0 = p := by rw [← hzero, List.set_getElem_self]
    simp [combineAlong_of_le, hself]
  | case2 size f h ih =>
    rw [combineAlong_of_lt (Nat.not_le.mp h)]
    exact (ih (by omega)).trans (halve_append_perm f hlt)

/-- The coordinates that differ from a coordinate on known axes only. -/
def spread : List KnownAxis → List Nat → List (List Nat)
  | [], p => [p]
  | k :: known, p => (spread known p).flatMap fun d => (List.range k.size).map fun i => d.set k.axis i

theorem mem_spread_cons {k : KnownAxis} {x : List Nat} : x ∈ spread (k :: known) p ↔
    ∃ d ∈ spread known p, ∃ i < k.size, d.set k.axis i = x := by
  simp [spread]

theorem length_of_mem_spread {x : List Nat} (h : x ∈ spread known p) : x.length = p.length := by
  induction known generalizing x with
  | nil => rw [List.mem_singleton.mp h]
  | cons k known ih =>
    obtain ⟨d, hd, i, -, rfl⟩ := mem_spread_cons.mp h
    rw [List.length_set, ih hd]

theorem getElem?_of_mem_spread {x : List Nat} (h : x ∈ spread known p) {a : Nat}
    (ha : a ∉ known.map (·.axis)) : x[a]? = p[a]? := by
  induction known generalizing x with
  | nil => rw [List.mem_singleton.mp h]
  | cons k known ih =>
    obtain ⟨d, hd, i, -, rfl⟩ := mem_spread_cons.mp h
    rw [List.map_cons, List.mem_cons, not_or] at ha
    rw [List.getElem?_set_ne (Ne.symm ha.1), ih hd ha.2]

/-- The rounds lead to what there is at the coordinates that differ on the axes. -/
theorem combineAll_append_perm (f : List Nat → List α) (hnodup : (known.map (·.axis)).Nodup)
    (hknown : ∀ k ∈ known, p[k.axis]? = some 0 ∧ 0 < k.size) :
    (combineAll (· ++ ·) known f p).Perm ((spread known p).flatMap f) := by
  induction known generalizing f with
  | nil => simp [combineAll, spread]
  | cons k known ih =>
    obtain ⟨hk, hnodup⟩ := List.nodup_cons.mp hnodup
    obtain ⟨⟨hzero, hsize⟩, hrest⟩ := List.forall_mem_cons.mp hknown
    have hround : ∀ d ∈ spread known p, (combineAlong (· ++ ·) k.axis k.size f d).Perm
        ((List.range k.size).flatMap fun i => f (d.set k.axis i)) := fun d hd => by
      exact combineAlong_append_perm f ((getElem?_of_mem_spread hd hk).trans hzero) hsize
    refine (ih _ hnodup hrest).trans ((List.Perm.flatMap_left _ hround).trans (.of_eq ?_))
    simp only [spread, List.flatMap_assoc, List.flatMap_map]

theorem leaves_combination_perm (hnodup : (known.map (·.axis)).Nodup)
    (hknown : ∀ k ∈ known, p[k.axis]? = some 0 ∧ 0 < k.size) :
    (combination known p).leaves.Perm (spread known p) := by
  have hleaves (lhs rhs : ProductTree (List Nat)) :
      (ProductTree.node lhs rhs).leaves = lhs.leaves ++ rhs.leaves := rfl
  have heq := congrFun (comp_combineAll hleaves known .leaf) p
  have hperm := combineAll_append_perm (fun x => [x]) hnodup hknown
  rw [List.flatMap_singleton'] at hperm
  exact (List.Perm.of_eq heq).trans hperm

theorem axis_ne {k l : KnownAxis} (hk : k.axis ∉ known.map (·.axis)) (hl : l ∈ known) :
    k.axis ≠ l.axis :=
  fun h => hk (List.mem_map.mpr ⟨l, hl, h.symm⟩)

theorem mem_spread (hnodup : (known.map (·.axis)).Nodup)
    (hzero : ∀ k ∈ known, p[k.axis]? = some 0) {x : List Nat} : x ∈ spread known p ↔
      (∀ k ∈ known, ∃ i < k.size, x[k.axis]? = some i) ∧
        ∀ a, a ∉ known.map (·.axis) → x[a]? = p[a]? := by
  constructor
  · refine fun h => ⟨?_, fun a ha => getElem?_of_mem_spread h ha⟩
    induction known generalizing x with
    | nil => nofun
    | cons k known ih =>
      obtain ⟨hk, hnodup⟩ := List.nodup_cons.mp hnodup
      obtain ⟨hp, hzero⟩ := List.forall_mem_cons.mp hzero
      obtain ⟨d, hd, i, hi, rfl⟩ := mem_spread_cons.mp h
      refine List.forall_mem_cons.mpr ⟨⟨i, hi, ?_⟩, fun l hl => ?_⟩
      · have hlt := (List.getElem?_eq_some_iff.mp ((getElem?_of_mem_spread hd hk).trans hp)).1
        exact List.getElem?_set_self hlt
      · obtain ⟨j, hj, hx⟩ := ih hnodup hzero hd l hl
        exact ⟨j, hj, (List.getElem?_set_ne (axis_ne hk hl)).trans hx⟩
  · rintro ⟨hsizes, hrest⟩
    induction known generalizing x with
    | nil => exact List.mem_singleton.mpr (List.ext_getElem? fun a => hrest a nofun)
    | cons k known ih =>
      obtain ⟨hk, hnodup⟩ := List.nodup_cons.mp hnodup
      obtain ⟨hp, hzero⟩ := List.forall_mem_cons.mp hzero
      obtain ⟨⟨i, hi, hx⟩, hsizes⟩ := List.forall_mem_cons.mp hsizes
      obtain ⟨hlt, rfl⟩ := List.getElem?_eq_some_iff.mp hx
      refine mem_spread_cons.mpr ⟨x.set k.axis 0, ih hnodup hzero ?_ ?_, _, hi, by simp⟩
      · intro l hl
        obtain ⟨j, hj, hx⟩ := hsizes l hl
        exact ⟨j, hj, (List.getElem?_set_ne (axis_ne hk hl)).trans hx⟩
      · intro a ha
        by_cases hak : k.axis = a
        · rw [← hak, hp, List.getElem?_set_self hlt]
        · rw [List.getElem?_set_ne hak]
          exact hrest a (by simp [ha, Ne.symm hak])

theorem nodup_spread (hnodup : (known.map (·.axis)).Nodup)
    (hzero : ∀ k ∈ known, p[k.axis]? = some 0) : (spread known p).Nodup := by
  induction known with
  | nil => exact List.nodup_singleton p
  | cons k known ih =>
    obtain ⟨hk, hnodup⟩ := List.nodup_cons.mp hnodup
    obtain ⟨hp, hzero⟩ := List.forall_mem_cons.mp hzero
    have hat {d : List Nat} (hd : d ∈ spread known p) : d[k.axis]? = some 0 :=
      (getElem?_of_mem_spread hd hk).trans hp
    -- A coordinate is set back to where it came from.
    have hback {d : List Nat} (hd : d ∈ spread known p) (i : Nat) :
        (d.set k.axis i).set k.axis 0 = d := by
      obtain ⟨hlt, hd⟩ := List.getElem?_eq_some_iff.mp (hat hd)
      rw [List.set_set, ← hd, List.set_getElem_self]
    refine List.nodup_flatMap.mpr ⟨fun d hd => ?_, (ih hnodup hzero).imp_of_mem ?_⟩
    · refine List.nodup_range.map fun i j hij => ?_
      have hlt := (List.getElem?_eq_some_iff.mp (hat hd)).1
      have heq := congrArg (·[k.axis]?) hij
      simpa [hlt] using heq
    · intro d d' hd hd' hne
      rw [Function.onFun, List.disjoint_left]
      intro x hx hx'
      obtain ⟨i, -, rfl⟩ := List.mem_map.mp hx
      obtain ⟨j, -, hij⟩ := List.mem_map.mp hx'
      exact hne (by rw [← hback hd i, ← hij, hback hd' j])

end Leaves

/-! ## Slices -/

/-- The coordinates of a shape that a reduction over the axes takes to a coordinate. -/
def slice (axes : List Nat) (keepDims : Bool) (shape p : List Nat) : List (List Nat) :=
  (walk shape).filter fun x => collapse 0 keepDims axes x = p

section Slices

variable {axes shape p x : List Nat} {known : List KnownAxis}

theorem mem_slice {keepDims : Bool} :
    x ∈ slice axes keepDims shape p ↔ Within x shape ∧ collapse 0 keepDims axes x = p := by
  rw [slice, List.mem_filter, mem_walk, decide_eq_true_eq]

/-- Without the axes a reduced coordinate has the same slice as with them. -/
theorem slice_collapse {keepDims : Bool} (hp : Within p (collapse 1 true axes shape)) :
    slice axes keepDims shape (collapse 0 keepDims axes p) = slice axes true shape p := by
  refine List.filter_congr fun x hx => ?_
  have hlen : x.length = p.length := by
    rw [(mem_walk.mp hx).length_eq, hp.length_eq, length_collapse_keep]
  conv => rhs; rw [← collapse_self hp]
  rw [decide_eq_decide, collapse_eq_iff hlen, collapse_eq_iff hlen]

theorem spread_perm_slice (hnodup : (known.map (·.axis)).Nodup)
    (hsizes : ∀ k ∈ known, shape[k.axis]? = some k.size)
    (hp : Within p (collapse 1 true (known.map (·.axis)) shape)) :
    (spread known p).Perm (slice (known.map (·.axis)) true shape p) := by
  have hzero : ∀ k ∈ known, p[k.axis]? = some 0 := fun k hk =>
    getElem?_of_within_collapse hp (List.mem_map_of_mem hk)
      (List.getElem?_eq_some_iff.mp (hsizes k hk)).1
  have hlen : p.length = shape.length := by rw [hp.length_eq, length_collapse_keep]
  refine (List.perm_ext_iff_of_nodup (nodup_spread hnodup hzero)
    ((nodup_walk shape).filter _)).mpr fun x => Iff.trans ?_ mem_slice.symm
  conv => rhs; rhs; rhs; rw [← collapse_self hp]
  constructor
  · intro hx
    have hxlen := length_of_mem_spread hx
    obtain ⟨hat, hrest⟩ := (mem_spread hnodup hzero).mp hx
    refine ⟨?_, (collapse_eq_iff hxlen).mpr hrest⟩
    refine List.forall₂_iff_get.mpr ⟨hxlen.trans hlen, fun a ha ha' => ?_⟩
    by_cases hmem : a ∈ known.map (·.axis)
    · obtain ⟨k, hk, rfl⟩ := List.mem_map.mp hmem
      obtain ⟨i, hi, hx⟩ := hat k hk
      obtain ⟨_, rfl⟩ := List.getElem?_eq_some_iff.mp hx
      obtain ⟨_, hsize⟩ := List.getElem?_eq_some_iff.mp (hsizes k hk)
      simpa [hsize] using hi
    · obtain ⟨size, hsize, hi⟩ := getElem?_of_forall₂ hp (hrest a hmem ▸ List.getElem?_eq_getElem ha)
      rw [getElem?_collapse_keep, List.getElem?_eq_getElem ha', Option.map_some, if_neg hmem] at hsize
      obtain rfl := Option.some.inj hsize
      exact hi
  · rintro ⟨hwithin, hcollapse⟩
    have hxlen : x.length = p.length := hwithin.length_eq.trans hlen.symm
    refine (mem_spread hnodup hzero).mpr ⟨fun k hk => ?_, (collapse_eq_iff hxlen).mp hcollapse⟩
    obtain ⟨i, hi, hlt⟩ := getElem?_of_forall₂ hwithin.flip (hsizes k hk)
    exact ⟨i, hlt, hi⟩

/-- All combinations along known axes at a coordinate come from the elements of its slice, each of
them once. -/
theorem leaves_combination_perm_slice (hnodup : (known.map (·.axis)).Nodup)
    (hsizes : ∀ k ∈ known, shape[k.axis]? = some k.size ∧ 0 < k.size)
    (hp : Within p (collapse 1 true (known.map (·.axis)) shape)) :
    (combination known p).leaves.Perm (slice (known.map (·.axis)) true shape p) := by
  have hknown : ∀ k ∈ known, p[k.axis]? = some 0 ∧ 0 < k.size := fun k hk =>
    ⟨getElem?_of_within_collapse hp (List.mem_map_of_mem hk)
      (List.getElem?_eq_some_iff.mp (hsizes k hk).1).1, (hsizes k hk).2⟩
  exact (leaves_combination_perm hnodup hknown).trans
    (spread_perm_slice hnodup (fun k hk => (hsizes k hk).1) hp)

/-- What is left by a reduction are coordinates without some of their zeros. -/
theorem exists_collapse_eq {keepDims : Bool} (hp : Within p (collapse 1 keepDims axes shape)) :
    ∃ d, Within d (collapse 1 true axes shape) ∧ collapse 0 keepDims axes d = p := by
  cases keepDims with
  | true => exact ⟨p, hp, collapse_self hp⟩
  | false =>
    have hones : ∀ i size, (collapse 1 true axes shape)[i]? = some size → 0 + i ∈ axes → size = 1 := by
      intro i size hsize hi
      rw [Nat.zero_add] at hi
      rw [getElem?_collapse_keep, Option.map_eq_some_iff] at hsize
      obtain ⟨_, -, rfl⟩ := hsize
      exact if_pos hi
    rw [← collapse_collapse_keep, ← mem_walk, collapse_eq, walk_collapseFrom hones] at hp
    obtain ⟨d, hd, rfl⟩ := List.mem_map.mp hp
    exact ⟨d, mem_walk.mp hd, rfl⟩

/-- The table holds the products of the slices: at each coordinate the value of a tree whose leaves
are the elements of its slice, each of them once. -/
def MultipliesSlices {β : Type} (mul : β → β → β) (axes : List Nat) (keepDims : Bool)
    (shape : List Nat) (f h : List Nat → β) : Prop :=
  ∀ p, Within p (collapse 1 keepDims axes shape) → ∃ tree : ProductTree (List Nat),
    tree.leaves.Perm (slice axes keepDims shape p) ∧ h p = tree.value mul f

theorem multipliesSlices_combineAll {β : Type} {mul : β → β → β} {f h : List Nat → β}
    {keepDims : Bool} (hnodup : (known.map (·.axis)).Nodup)
    (hsizes : ∀ k ∈ known, shape[k.axis]? = some k.size ∧ 0 < k.size)
    (hh : ∀ p, Within p (collapse 1 true (known.map (·.axis)) shape) →
      h (collapse 0 keepDims (known.map (·.axis)) p) = combineAll mul known f p) :
    MultipliesSlices mul (known.map (·.axis)) keepDims shape f h := by
  intro p hp
  obtain ⟨d, hd, rfl⟩ := exists_collapse_eq hp
  refine ⟨combination known d, ?_, (hh d hd).trans (combineAll_eq_value ..)⟩
  rw [slice_collapse hd]
  exact leaves_combination_perm_slice hnodup hsizes hd

end Slices

end TensorLowering.Lowering
