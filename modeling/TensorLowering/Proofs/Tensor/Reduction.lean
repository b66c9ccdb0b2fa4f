import TensorLowering.Proofs.Lowering.Halving
import TensorLowering.Proofs.Op.Acceptance
import TensorLowering.Proofs.Tensor.Tabulate

/-!
# Reducing slice by slice

Dealing puts each element at the end of the group at its coordinate (`Kernel.deal_walk`), so a group
is in the end the slice of the data that the reduction takes to one coordinate, in row-major order
(`Kernel.groups_walk`). Each element of the result is the fold of a slice, whether the reduced axes
are kept or not, and there is a result unless the best of none is asked for, or a mean whose number
of elements cannot divide in the type (`reduce_foldsSlices`).
-/

namespace TensorLowering

open Shape Lowering

namespace Kernel

variable {α : Type} {target : List Nat}

/-- An element is dealt to the group at its coordinate. -/
theorem deal_walk (h : List Nat → Array α) {o : List Nat} (ho : Within o target) (x : α) :
    deal ((walk target).map h).toArray (position o (strides target)) x =
      .ok ((walk target).map fun p => if p = o then (h p).push x else h p).toArray := by
  rw [deal, if_pos (by simpa using position_lt ho)]
  refine congrArg Except.ok (Array.ext_getElem? fun i => ?_)
  rw [Array.getElem?_modify, List.getElem?_toArray, List.getElem?_toArray, List.getElem?_map,
    List.getElem?_map]
  by_cases hi : i < volume target
  · rw [getElem?_walk hi]
    by_cases heq : position o (strides target) = i
    · subst heq
      simp [locate_position ho]
    · have hne : locate target i ≠ o := fun h => heq (h ▸ position_locate hi)
      simp [heq, hne]
  · have hnone : (walk target)[i]? = none := by simpa using hi
    simp [hnone]

/-- Dealing leaves in each group what it had, and then the elements that are dealt to it. -/
theorem foldlM_deal {k : List Nat → List Nat} (f : List Nat → α) {cs : List (List Nat)}
    (hk : ∀ c ∈ cs, Within (k c) target) (h : List Nat → Array α) :
    cs.foldlM (fun groups c => deal groups (position (k c) (strides target)) (f c))
        ((walk target).map h).toArray =
      .ok ((walk target).map fun p => h p ++ ((cs.filter (k · = p)).map f).toArray).toArray := by
  induction cs generalizing h with
  | nil => simp
  | cons c cs ih =>
    obtain ⟨hc, hk⟩ := List.forall_mem_cons.mp hk
    rw [List.foldlM_cons, deal_walk h hc, ok_bind, ih hk]
    refine congrArg (fun groups : List (Array α) => Except.ok groups.toArray)
      (List.map_congr_left fun p _ => ?_)
    by_cases hp : k c = p
    · subst hp
      simp
    · simp [hp, Ne.symm hp]

/-- The groups are the slices of the data that are reduced to one element each. -/
theorem groups_walk (keepDims : Bool) (axes shape : List Nat) (f : List Nat → α) :
    groups axes shape ((walk shape).map f).toArray =
      .ok ((walk (collapse 1 keepDims axes shape)).map fun p =>
        ((slice axes keepDims shape p).map f).toArray).toArray := by
  have hempty : Array.replicate (volume (groupShape axes shape)) (#[] : Array α) =
      ((walk (groupShape axes shape)).map fun _ => #[]).toArray := by
    rw [List.map_const', length_walk, List.toArray_replicate]
  have hdeals : List.zipWith Prod.mk (groupNumbers axes shape) ((walk shape).map f) =
      (walk shape).map fun c =>
        (position (groupCoordinate axes c) (strides (groupShape axes shape)), f c) :=
    List.zip_map' ..
  rw [groups, hdeals, hempty, List.foldlM_map]
  have hin : ∀ c ∈ walk shape, Within (groupCoordinate axes c) (groupShape axes shape) :=
    fun c hc => within_collapse axes (mem_walk.mp hc)
  rw [foldlM_deal f hin, walk_collapse_keep keepDims, List.map_map, groupShape]
  refine congrArg (fun groups : List (Array α) => Except.ok groups.toArray)
    (List.map_congr_left fun p hp => ?_)
  rw [Function.comp_apply, slice_collapse (mem_walk.mp hp)]
  exact Array.empty_append

/-- The fold that a kind of reduction names, over elements of a type in their order. What divides or
takes a root is described without the arithmetic of the type. -/
inductive Folds : (e : ElementType) → ReduceKind → List e.Carrier → e.Carrier → Prop
  | sum {e : ElementType} {a : Arithmetic e.Carrier} (ha : e.arithmetic? = some a)
    (xs : List e.Carrier) : Folds e .sum xs (xs.foldl a.add a.zero)
  | mean {e : ElementType} {a : Arithmetic e.Carrier} (ha : e.arithmetic? = some a)
    {xs : List e.Carrier} {y : e.Carrier} (hy : e.Averages (xs.foldl a.add a.zero) xs.length y) :
    Folds e .mean xs y
  | prod {e : ElementType} {a : Arithmetic e.Carrier} (ha : e.arithmetic? = some a)
    (xs : List e.Carrier) : Folds e .prod xs (xs.foldl a.mul a.one)
  | l2 {e : ElementType} {a : Arithmetic e.Carrier} (ha : e.arithmetic? = some a)
    (xs : List e.Carrier) :
    Folds e .l2 xs (e.root ((xs.map fun x => a.mul x x).foldl a.add a.zero))
  | min {e : ElementType} {a : Arithmetic e.Carrier} (ha : e.arithmetic? = some a)
    (x : e.Carrier) (xs : List e.Carrier) :
    Folds e .min (x :: xs) (xs.foldl (fun kept y => if a.less y kept then y else kept) x)
  | max {e : ElementType} {a : Arithmetic e.Carrier} (ha : e.arithmetic? = some a)
    (x : e.Carrier) (xs : List e.Carrier) :
    Folds e .max (x :: xs) (xs.foldl (fun kept y => if a.less kept y then y else kept) x)
  | logicalAnd (xs : List Bool) : Folds .bool .logicalAnd xs (xs.foldl (· && ·) true)
  | logicalOr (xs : List Bool) : Folds .bool .logicalOr xs (xs.foldl (· || ·) false)

variable {e : ElementType} {kind : ReduceKind}

theorem orError_eq_ok {cause : EvaluationError} {value : Option α} {y : α} :
    combine.orError cause value = .ok y ↔ value = some y := by
  cases value <;> simp [combine.orError]

theorem combine_eq_ok {a : Arithmetic e.Carrier} (ha : e.arithmetic? = some a)
    (hkind : kind.isLogical = false) {xs : List e.Carrier} {y : e.Carrier} :
    combine a kind xs = .ok y ↔ Folds e kind xs y := by
  have hsame {a' : Arithmetic e.Carrier} (ha' : e.arithmetic? = some a') : a' = a :=
    Option.some.inj (ha'.symm.trans ha)
  have hsquares : (xs.map fun x => a.mul x x).foldl a.add a.zero =
      xs.foldl (fun sum x => a.add sum (a.mul x x)) a.zero := List.foldl_map
  constructor
  · intro h
    cases kind with
    | sum =>
      obtain rfl := Except.ok.inj h
      exact .sum ha xs
    | mean => exact .mean ha ((ElementType.divideByCount_eq_some ha).mp (orError_eq_ok.mp h))
    | prod =>
      obtain rfl := Except.ok.inj h
      exact .prod ha xs
    | l2 =>
      obtain rfl := Except.ok.inj h
      rw [ElementType.sqrt_eq_root ha, ← hsquares]
      exact .l2 ha xs
    | min =>
      cases xs with
      | nil => cases h
      | cons x xs =>
        obtain rfl := Except.ok.inj h
        exact .min ha x xs
    | max =>
      cases xs with
      | nil => cases h
      | cons x xs =>
        obtain rfl := Except.ok.inj h
        exact .max ha x xs
    | logicalAnd | logicalOr => cases hkind
  · intro h
    cases h with
    | sum ha' | prod ha' => rw [hsame ha', combine]
    | mean ha' hy =>
      rw [hsame ha'] at hy
      exact orError_eq_ok.mpr ((ElementType.divideByCount_eq_some ha).mpr hy)
    | l2 ha' => rw [hsame ha', combine, hsquares, ElementType.sqrt_eq_root ha]
    | min ha' | max ha' => rw [hsame ha']; rfl
    | logicalAnd | logicalOr => cases hkind

theorem foldl_and (xs : List Bool) (b : Bool) : xs.foldl (· && ·) b = (b && xs.all id) := by
  induction xs generalizing b with
  | nil => simp
  | cons x xs ih => simp [ih, Bool.and_assoc]

theorem foldl_or (xs : List Bool) (b : Bool) : xs.foldl (· || ·) b = (b || xs.any id) := by
  induction xs generalizing b with
  | nil => simp
  | cons x xs ih => simp [ih, Bool.or_assoc]

theorem combineLogical_eq (hkind : kind.isLogical = true) {xs : List Bool} {y : Bool} :
    combineLogical kind xs = y ↔ Folds .bool kind xs y := by
  have hall : xs.foldl (· && ·) true = combineLogical .logicalAnd xs := foldl_and xs true
  have hany : xs.foldl (· || ·) false = combineLogical .logicalOr xs := foldl_or xs false
  constructor
  · rintro rfl
    cases kind with
    | logicalAnd => exact hall ▸ .logicalAnd xs
    | logicalOr => exact hany ▸ .logicalOr xs
    | _ => cases hkind
  · intro h
    cases h with
    | logicalAnd => exact hall.symm
    | logicalOr => exact hany.symm
    | _ => cases hkind

/-- The element types that a kind of reduction is for. -/
def Reducible (kind : ReduceKind) (e : ElementType) : Prop :=
  if kind.isLogical then e = .bool else e.isNumeric = true

/-- There is a fold of any elements but a smallest or largest of none. For a mean the number of
elements has to divide their sum in the type. -/
theorem exists_folds {xs : List e.Carrier} (h : Reducible kind e) (hmean : kind ≠ .mean)
    (hne : kind = .min ∨ kind = .max → xs ≠ []) : ∃ y, Folds e kind xs y := by
  by_cases hkind : kind.isLogical = true
  · obtain rfl : e = .bool := (if_pos hkind).mp h
    exact ⟨_, (combineLogical_eq hkind).mp rfl⟩
  · obtain ⟨a, ha⟩ := ElementType.isNumeric_iff.mp ((if_neg hkind).mp h)
    cases kind with
    | sum => exact ⟨_, .sum ha xs⟩
    | mean => exact absurd rfl hmean
    | prod => exact ⟨_, .prod ha xs⟩
    | l2 => exact ⟨_, .l2 ha xs⟩
    | min =>
      obtain ⟨x, xs, rfl⟩ := List.exists_cons_of_ne_nil (hne (.inl rfl))
      exact ⟨_, .min ha x xs⟩
    | max =>
      obtain ⟨x, xs, rfl⟩ := List.exists_cons_of_ne_nil (hne (.inr rfl))
      exact ⟨_, .max ha x xs⟩
    | logicalAnd | logicalOr => exact absurd rfl hkind

/-- There is a mean of as many elements as their type counts. -/
theorem exists_folds_mean {xs : List e.Carrier} (he : e.isNumeric = true)
    (hcount : e.Counts xs.length) : ∃ y, Folds e .mean xs y := by
  obtain ⟨a, ha⟩ := ElementType.isNumeric_iff.mp he
  obtain ⟨y, hy⟩ := ElementType.exists_averages ha hcount
  exact ⟨y, .mean ha hy⟩

theorem ne_nil_of_folds {xs : List e.Carrier} {y : e.Carrier} (hkind : kind = .min ∨ kind = .max)
    (h : Folds e kind xs y) : xs ≠ [] := by
  rintro rfl
  rcases hkind with rfl | rfl <;> cases h

/-- The mean of no integers is zero. -/
theorem eq_zero_of_folds_mean (he : e.isInteger = true) {y : e.Carrier} (h : Folds e .mean [] y) :
    y = e.zero := by
  cases h with
  | mean ha hy =>
    cases e with
    | i32 =>
      obtain rfl := Option.some.inj ha
      exact Int32.toInt_inj.mp hy
    | i64 =>
      obtain rfl := Option.some.inj ha
      exact Int64.toInt_inj.mp hy
    | _ => cases he

end Kernel

namespace Tensor

open Kernel

variable {e : ElementType} {kind : ReduceKind} {keepDims : Bool} {shape positions : List Nat}
  {values : List Int} {x axes v : Tensor}

/-- One value for each coordinate of a walk. -/
theorem mapM_walk_eq_ok {α : Type} [Nonempty α] {F : List Nat → Except Error α}
    {elements : List α} : (walk shape).mapM F = .ok elements ↔
      ∃ g, (∀ c, Within c shape → F c = .ok (g c)) ∧ elements = (walk shape).map g := by
  constructor
  · intro h
    have hvalue : ∀ c, Within c shape → ∃ y, F c = .ok y := fun c hc =>
      have ⟨y, _, hy⟩ := exists_of_forall₂_left (mapM_eq_ok.mp h) (mem_walk.mpr hc)
      ⟨y, hy⟩
    choose! g hg using hvalue
    have hmap := mapM_eq_ok_map fun c hc => hg c (mem_walk.mp hc)
    exact ⟨g, hg, Except.ok.inj (h.symm.trans hmap)⟩
  · rintro ⟨g, hg, rfl⟩
    exact mapM_eq_ok_map fun c hc => hg c (mem_walk.mp hc)

/-- A reduction folds the elements of each slice. -/
theorem reduce_tabulate_eq_ok {f : List Nat → e.Carrier} :
    reduce kind keepDims (tabulate e shape f) axes = .ok v ↔ ∃ values, axes.ints = .ok values ∧
      ∃ positions, resolveAxes values shape.length = .ok positions ∧ Reducible kind e ∧
        ∃ g, (∀ c, Within c (collapse 1 keepDims positions shape) →
          Folds e kind ((slice positions keepDims shape c).map f) (g c)) ∧
          v = tabulate e (collapse 1 keepDims positions shape) g := by
  have hrank : (tabulate e shape f).rank = shape.length := rfl
  unfold reduce Reducible
  simp only [bind_eq_ok, hrank, shape_tabulate]
  refine exists_congr fun values => and_congr_right fun _ => exists_congr fun positions =>
    and_congr_right fun _ => ?_
  by_cases hkind : kind.isLogical = true
  · rw [if_pos hkind, if_pos hkind]
    cases e with
    | bool =>
      have hdata : (tabulate .bool shape f).dataAs? .bool = some ((walk shape).map f).toArray := rfl
      simp only [hdata, bind_eq_ok, groups_walk keepDims, Except.ok.injEq, exists_eq_left',
        List.map_toArray, List.map_map, true_and]
      constructor
      · intro h
        exact ⟨_, fun c _ => (combineLogical_eq hkind).mp rfl,
          Except.ok.inj (h.symm.trans ofData_walk)⟩
      · rintro ⟨g, hg, rfl⟩
        exact ofData_walk.trans (congrArg Except.ok
          (tabulate_congr fun c hc => (combineLogical_eq hkind).mpr (hg c hc)))
    | _ =>
      constructor
      · intro h
        cases h
      · rintro ⟨h, -⟩
        cases h
  · rw [if_neg hkind, if_neg hkind, ElementType.isNumeric_iff]
    cases ha : e.arithmetic? with
    | none => simp [ha]
    | some a =>
      have : Nonempty e.Carrier := ⟨e.zero⟩
      have hdata : (tabulate e shape f).data = ((walk shape).map f).toArray := rfl
      simp only [elementType_tabulate, ha, bind_eq_ok, hdata, groups_walk keepDims,
        Except.ok.injEq, exists_eq_left', List.mapM_map, mapM_walk_eq_ok,
        Function.comp_apply, combine_eq_ok ha (eq_false_of_ne_true hkind), Option.some.injEq,
        exists_eq', true_and]
      constructor
      · rintro ⟨elements, ⟨g, hg, rfl⟩, h⟩
        exact ⟨g, hg, Except.ok.inj (h.symm.trans ofData_walk)⟩
      · rintro ⟨g, hg, rfl⟩
        exact ⟨_, ⟨g, hg, rfl⟩, ofData_walk⟩

/-- The axes may be listed in any order and more than once. -/
theorem reduce_eq_ok : reduce kind keepDims x axes = .ok v ↔ ∃ values, axes.ints = .ok values ∧
    ∃ named, values.mapM (resolveAxis · x.rank) = .ok named ∧ Reducible kind x.elementType ∧
      ∃ g, (∀ c, Within c (collapse 1 keepDims named x.shape) →
        Folds x.elementType kind ((slice named keepDims x.shape c).map x.entry) (g c)) ∧
        v = tabulate x.elementType (collapse 1 keepDims named x.shape) g := by
  have hreduce := @reduce_tabulate_eq_ok x.elementType kind keepDims x.shape axes v x.entry
  rw [tabulate_entry] at hreduce
  have hcollapse {α : Type} (one : α) (named : List Nat) {dims : List α}
      (hlen : dims.length = x.shape.length) :
      collapse one keepDims ((List.range x.shape.length).filter named.contains) dims =
        collapse one keepDims named dims :=
    collapse_congr fun i hi => by rw [Bool.eq_iff_iff]; simp [hlen ▸ hi]
  have hslice (named c : List Nat) :
      slice ((List.range x.shape.length).filter named.contains) keepDims x.shape c =
        slice named keepDims x.shape c :=
    List.filter_congr fun d hd => by rw [hcollapse 0 named (mem_walk.mp hd).length_eq]
  rw [hreduce]
  refine exists_congr fun values => and_congr_right fun _ => ?_
  constructor
  · rintro ⟨positions, hpositions, he, g, hg, rfl⟩
    obtain ⟨named, hnamed, rfl⟩ := resolveAxes_eq_ok.mp hpositions
    rw [hcollapse 1 named rfl] at hg ⊢
    exact ⟨named, hnamed, he, g, fun c hc => hslice named c ▸ hg c hc, rfl⟩
  · rintro ⟨named, hnamed, he, g, hg, rfl⟩
    refine ⟨_, resolveAxes_eq_ok.mpr ⟨named, hnamed, rfl⟩, he, g, ?_⟩
    rw [hcollapse 1 named rfl]
    exact ⟨fun c hc => (hslice named c).symm ▸ hg c hc, rfl⟩

/-- The elements of a reduction over the named axes. Each is the fold of its own slice of the data,
and each element of the data is in the slice of one of them, once and in its order. -/
structure FoldsSlices (kind : ReduceKind) (keepDims : Bool) (named : List Nat) (x : Tensor)
    (g : List Nat → x.elementType.Carrier) : Prop where
  folds : ∀ c, Within c (collapse 1 keepDims named x.shape) →
    Folds x.elementType kind ((slice named keepDims x.shape c).map x.entry) (g c)
  own : ∀ d, Within d x.shape → ∃! c,
    Within c (collapse 1 keepDims named x.shape) ∧ d ∈ slice named keepDims x.shape c
  ordered : ∀ c, (slice named keepDims x.shape c).Pairwise fun d d' =>
    position d (strides x.shape) < position d' (strides x.shape)
  meanOfNone : kind = .mean → x.elementType.isInteger = true →
    ∀ c, Within c (collapse 1 keepDims named x.shape) → slice named keepDims x.shape c = [] →
      g c = x.elementType.zero

theorem foldsSlices_of_folds {named : List Nat} {g : List Nat → x.elementType.Carrier}
    (h : ∀ c, Within c (collapse 1 keepDims named x.shape) →
      Folds x.elementType kind ((slice named keepDims x.shape c).map x.entry) (g c)) :
    FoldsSlices kind keepDims named x g where
  folds := h
  own d hd := ⟨collapse 0 keepDims named d,
    ⟨within_collapse named hd, mem_slice.mpr ⟨hd, rfl⟩⟩, fun _ hc => (mem_slice.mp hc.2).2.symm⟩
  ordered _ := (pairwise_walk x.shape).filter _
  meanOfNone hkind he c hc hnone := by
    have hfolds := h c hc
    rw [hkind, hnone] at hfolds
    exact eq_zero_of_folds_mean he hfolds

end Tensor

namespace Op

open Kernel Tensor

/-- A reduction folds the elements that agree with a coordinate of the result on the axes that are
not reduced, each of them once and in row-major order. On axes and a type that it is for, it fails
only as the smallest or largest number, exactly where there is none to choose, and as a mean, exactly
where there is no quotient of a sum by the number of its elements. -/
theorem reduce_foldsSlices {x axes : Tensor} {values : List Int} (kind : ReduceKind)
    (keepDims : Bool) (hints : axes.ints = .ok values) :
    (∀ v, (reduce kind keepDims).compute [x, axes] = .ok v → ∃ named g,
      values.mapM (resolveAxis · x.rank) = .ok named ∧
      v = tabulate x.elementType (collapse 1 keepDims named x.shape) g ∧
      FoldsSlices kind keepDims named x g) ∧
    ∀ named, values.mapM (resolveAxis · x.rank) = .ok named → Reducible kind x.elementType →
      ((∃ error, (reduce kind keepDims).compute [x, axes] = .error error) ↔
        (kind = .min ∨ kind = .max) ∧ (∃ c, Within c (collapse 1 keepDims named x.shape) ∧
          slice named keepDims x.shape c = []) ∨
        kind = .mean ∧ ∃ c, Within c (collapse 1 keepDims named x.shape) ∧
          ∀ y, ¬Folds x.elementType .mean ((slice named keepDims x.shape c).map x.entry) y) := by
  have hcompute {v : Tensor} : (reduce kind keepDims).compute [x, axes] = .ok v ↔ ∃ named,
      values.mapM (resolveAxis · x.rank) = .ok named ∧ Reducible kind x.elementType ∧
        ∃ g, (∀ c, Within c (collapse 1 keepDims named x.shape) →
          Folds x.elementType kind ((slice named keepDims x.shape c).map x.entry) (g c)) ∧
          v = tabulate x.elementType (collapse 1 keepDims named x.shape) g := by
    refine Tensor.reduce_eq_ok.trans ?_
    simp only [hints, Except.ok.injEq, exists_eq_left']
  refine ⟨fun v hv => ?_, fun named hnamed hreducible => ⟨?_, fun hfails => ?_⟩⟩
  · obtain ⟨named, hnamed, -, g, hg, rfl⟩ := hcompute.mp hv
    exact ⟨named, g, hnamed, rfl, foldsSlices_of_folds hg⟩
  · rintro ⟨error, herror⟩
    by_contra hnot
    obtain ⟨hchoice, hquotient⟩ := not_or.mp hnot
    have hfolds : ∀ c, Within c (collapse 1 keepDims named x.shape) → ∃ y,
        Folds x.elementType kind ((slice named keepDims x.shape c).map x.entry) y := by
      intro c hc
      by_cases hmean : kind = .mean
      · subst hmean
        by_contra hnone
        exact hquotient ⟨rfl, c, hc, not_exists.mp hnone⟩
      · exact exists_folds hreducible hmean fun hkind hnone =>
          hchoice ⟨hkind, c, hc, List.map_eq_nil_iff.mp hnone⟩
    have : Nonempty x.elementType.Carrier := ⟨x.elementType.zero⟩
    choose! g hg using hfolds
    cases herror.symm.trans (hcompute.mpr ⟨named, hnamed, hreducible, g, hg, rfl⟩)
  · cases hresult : (reduce kind keepDims).compute [x, axes] with
    | error error => exact ⟨error, rfl⟩
    | ok v =>
      obtain ⟨named', hnamed', -, g, hg, -⟩ := hcompute.mp hresult
      obtain rfl := Except.ok.inj (hnamed'.symm.trans hnamed)
      rcases hfails with ⟨hkind, c, hc, hnone⟩ | ⟨rfl, c, hc, hnone⟩
      · exact absurd (by rw [hnone]; rfl) (ne_nil_of_folds hkind (hg c hc))
      · exact absurd (hg c hc) (hnone _)

/-- The rows `3, 1, 2` and `5, 6, 4`. -/
def twoRows : Tensor :=
  ⟨.i32, [2, 3], #[3, 1, 2, 5, 6, 4], rfl⟩

/-- The last axis is named twice, first from the back, and each row is summed up once. Rows without
elements have no smallest one. -/
theorem twoRows_folded :
    (∃ g, (⟨.i32, [2], #[6, 15], rfl⟩ : Tensor) = tabulate .i32 [2] g ∧
      FoldsSlices .sum false [1, 1] twoRows g) ∧
    ∃ error, (reduce .min true).compute [⟨.i32, [2, 0], #[], rfl⟩, ofInts [-1]] = .error error := by
  constructor
  · have hints : (ofInts [-1, 1]).ints = .ok [-1, 1] := rfl
    have hsums : (reduce .sum false).compute [twoRows, ofInts [-1, 1]] =
        .ok ⟨.i32, [2], #[6, 15], rfl⟩ := by decide +kernel
    obtain ⟨named, g, hnamed, hv, hfolds⟩ := (reduce_foldsSlices .sum false hints).1 _ hsums
    obtain rfl : [1, 1] = named := Except.ok.inj hnamed
    exact ⟨g, hv, hfolds⟩
  · have hints : (ofInts [-1]).ints = .ok [-1] := rfl
    have hreducible : Reducible .min .i32 := by
      unfold Reducible
      decide
    exact ((reduce_foldsSlices .min true hints).2 [1] rfl hreducible).mpr
      (.inl ⟨.inl rfl, [0, 0], by decide, rfl⟩)

/-- A vector with the same element at each of its places. -/
def replicated (n : Nat) (x : Int32) : Tensor :=
  tabulate .i32 [n] fun _ => x

theorem slice_replicated (n : Nat) (x : Int32) :
    (slice [0] false [n] []).map (replicated n x).entry = List.replicate n x := by
  have hall : slice [0] false [n] [] = walk [n] := by
    refine List.filter_eq_self.mpr fun d hd => ?_
    obtain ⟨i, _, -, hnil, rfl⟩ := List.forall₂_cons_right_iff.mp (mem_walk.mp hd)
    obtain rfl := List.forall₂_nil_right_iff.mp hnil
    rfl
  have hconst : (walk [n]).map (replicated n x).entry = (walk [n]).map fun _ => x :=
    List.map_congr_left fun d hd => entry_tabulate (mem_walk.mp hd)
  have hcount : volume [n] = n := Nat.mul_one n
  rw [hall, hconst, List.map_const', length_walk, hcount]

/-- Integers are summed up exactly, and then wrapped around. -/
theorem toInt_foldl_add (xs : List Int32) (s : Int32) :
    (xs.foldl (· + ·) s).toInt = (s.toInt + (xs.map Int32.toInt).sum).bmod Int32.size := by
  induction xs generalizing s with
  | nil =>
    have hle := s.le_toInt
    have hlt := s.toInt_lt
    rw [List.foldl_nil, List.map_nil, List.sum_nil, Int.add_zero]
    refine (Int.bmod_eq_of_le ?_ ?_).symm <;> simp only [Int32.size] <;> omega
  | cons x xs ih =>
    rw [List.foldl_cons, ih, List.map_cons, List.sum_cons, ← Int.add_assoc, Int32.toInt_add]
    exact Int.bmod_add_bmod

theorem toInt_sum_replicate (n : Nat) (x : Int32) :
    ((List.replicate n x).foldl (· + ·) 0).toInt = (n * x.toInt).bmod Int32.size := by
  rw [toInt_foldl_add, Int32.toInt_zero, Int.zero_add, List.map_replicate, List.sum_replicate,
    nsmul_eq_mul]

theorem mean_replicated {n : Nat} {x y : Int32}
    (h : IsMean Int32.size ((n * x.toInt).bmod Int32.size) n y.toInt) :
    (reduce .mean false).compute [replicated n x, ofInts [0]] = .ok (tabulate .i32 [] fun _ => y) := by
  have hreducible : Reducible .mean .i32 := by
    unfold Reducible
    decide
  have hfolds : Folds .i32 .mean (List.replicate n x) y := by
    refine .mean rfl ?_
    rw [← toInt_sum_replicate] at h
    rwa [List.length_replicate]
  refine reduce_eq_ok.mpr ⟨[0], rfl, [0], rfl, hreducible, fun _ => y, fun c hc => ?_, rfl⟩
  obtain rfl : c = [] := List.forall₂_nil_right_iff.mp hc
  exact (slice_replicated n x).symm ▸ hfolds

/-- The mean of 2147483648 numbers `-1` is `1`: as one of their type, their number is -2147483648, and
so is their sum. -/
theorem minusOnes_mean : ∃ (g : List Nat → Int32) (elements : List Int32),
    elements = (slice [0] false [2147483648] []).map (replicated 2147483648 (-1)).entry ∧
    (reduce .mean false).compute [replicated 2147483648 (-1), ofInts [0]] =
      .ok (tabulate .i32 [] g) ∧
    (g []).toInt ≠ (elements.foldl (· + ·) 0).toInt.tdiv elements.length := by
  refine ⟨fun _ => 1, _, (slice_replicated 2147483648 (-1)).symm, mean_replicated ?_, ?_⟩
  · unfold IsMean IsQuotient
    decide
  · rw [toInt_sum_replicate, List.length_replicate]
    decide

end Op

end TensorLowering
