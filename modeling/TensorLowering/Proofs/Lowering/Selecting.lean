import TensorLowering.Proofs.Lowering.Extending
import TensorLowering.Proofs.Lowering.Summing
import TensorLowering.Proofs.Tensor.Broadcast

/-!
# Selection by the leading axes

A condition in the older form of selection has the leading axes of the branches, and the leading part
of a coordinate selects (`select_byLeadingAxes`). That is all the extension is for, but nothing looks
at the sizes of the condition before it is broadcast with the branches: sizes of 1 give way on either
side, and the result may have another shape than the branches (`select_joinsFront`).
-/

namespace TensorLowering.Lowering

open Dataflow (ValueId Graph Feeds)
open Dataflow.Graph (Scenario Denotes)
open Shape (InWords FitsFront JoinsFront joinFront pickFront)

variable {b : Builder} {node : Source.Node} {feeds : Feeds} {e : ElementType}
  {front shape : List Nat} {c : List Nat → Bool} {condition : ValueId} {r : Tensor}

/-! ## The choice -/

section Choice

variable (hfront : InWords front) (hrank : shape.length < 9223372036854775808)
include hfront hrank

theorem chosen?_eq_some {x y : List Nat → e.Carrier} :
    chosen? extended? (some (.tabulate .bool front c)) (some (.tabulate e shape x))
        (some (.tabulate e shape y)) = some r ↔
      JoinsFront front shape ∧
        r = .tabulate e (joinFront front shape) (pickFront front shape c x y) := by
  have hextended {t : Tensor} := extended?_eq_some (t := .tabulate .bool front c)
    (u := .tabulate e shape x) (r := t) hfront hrank
  rw [chosen?]
  by_cases hle : front.length ≤ shape.length
  · rw [hextended.mpr ⟨hle, rfl⟩, Tensor.withOnes_tabulate]
    refine Iff.trans ?_ (Tensor.select_front hle)
    rw [← toOption_eq_some]
    exact (Op.result?_map_some [_, _, _]).congr_left
  · -- A condition of a higher rank is refused before anything is compared with the branches.
    have hnone : extended? (some (.tabulate .bool front c)) (some (.tabulate e shape x)) = none :=
      Option.eq_none_iff_forall_ne_some.mpr fun t ht => hle (hextended.mp ht).1
    rw [hnone, Op.result?_of_none_mem (.head _)]
    constructor
    · intro h
      cases h
    · exact fun h => absurd h.1.length_le hle

/-- Planes are chosen as the pairs are. -/
theorem chosen?_planes {x y : List Nat → e.Carrier × e.Carrier} (h : JoinsFront front shape)
    {k : Nat} (hk : k < 2) :
    chosen? extended? (some (.tabulate .bool front c)) (plane? k (some (.ofPairs e shape x)))
        (plane? k (some (.ofPairs e shape y))) =
      plane? k (some (.ofPairs e (joinFront front shape) (pickFront front shape c x y))) := by
  obtain ⟨p, hp⟩ : ∃ p : e.Carrier × e.Carrier → e.Carrier, ∀ sizes f,
      (Tensor.ofPairs e sizes f).plane k = .tabulate e sizes (p ∘ f) := by
    obtain rfl | rfl : k = 0 ∨ k = 1 := by omega
    · exact ⟨Prod.fst, fun _ _ => Tensor.plane_ofPairs.1⟩
    · exact ⟨Prod.snd, fun _ _ => Tensor.plane_ofPairs.2⟩
  have hpick : Tensor.tabulate e (joinFront front shape) (p ∘ pickFront front shape c x y) =
      .tabulate e (joinFront front shape) (pickFront front shape c (p ∘ x) (p ∘ y)) :=
    Tensor.tabulate_congr fun i _ => Shape.apply_pickFront p c x y
  simp only [plane?, Option.map_some, hp, hpick]
  exact (chosen?_eq_some hfront hrank).mpr ⟨h, rfl⟩

theorem pack?_chosen?_eq_some {x y : List Nat → e.Carrier × e.Carrier} :
    pack? (chosen? extended? (some (.tabulate .bool front c)) (plane? 0 (some (.ofPairs e shape x)))
          (plane? 0 (some (.ofPairs e shape y))))
        (chosen? extended? (some (.tabulate .bool front c)) (plane? 1 (some (.ofPairs e shape x)))
          (plane? 1 (some (.ofPairs e shape y)))) = some r ↔
      JoinsFront front shape ∧
        r = .ofPairs e (joinFront front shape) (pickFront front shape c x y) := by
  by_cases h : JoinsFront front shape
  · have hpairs : ArePairs (some (.ofPairs e (joinFront front shape) (pickFront front shape c x y))) :=
      fun p hp => by simp [← Option.some.inj hp]
    rw [chosen?_planes hfront hrank h Nat.zero_lt_two, chosen?_planes hfront hrank h Nat.one_lt_two,
      pack?_planes hpairs, Option.some.injEq, eq_comm, and_iff_right h]
  · have hnone : chosen? extended? (some (.tabulate .bool front c))
        (plane? 0 (some (.ofPairs e shape x))) (plane? 0 (some (.ofPairs e shape y))) = none := by
      simp only [plane?, Option.map_some, Tensor.plane_ofPairs.1]
      exact Option.eq_none_iff_forall_ne_some.mpr fun t ht =>
        h ((chosen?_eq_some hfront hrank).mp ht).1
    rw [hnone, pack?_none]
    constructor
    · intro hr
      cases hr
    · exact fun hjoin => absurd hjoin.1 h

end Choice

/-! ## Runs -/

/-- The condition with as many axes as the value has. -/
def extend (condition value : ValueId) : Build (List Lowered) := do
  return [.plain (← Rule.extendCondition condition value)]

section Evaluation

variable {t x y : Tensor} {v w : ValueId} (hg : b.graph.WellFormed)
  (hc : b.graph.evaluate feeds [condition] = .ok [t])
include hg hc

theorem evaluates_extend_iff (hx : b.graph.evaluate feeds [v] = .ok [x]) :
    Evaluates feeds (extend condition v) b r ↔ extended? (some t) (some x) = some r := by
  refine Runs.evaluates_iff (A := False) ?_ hg
  unfold extend
  refine .bind (.extendCondition (denotes_of_evaluate hg hc) (denotes_of_evaluate hg hx) id) ?_
  rintro id c₁ _ ⟨c', hc', heq⟩
  exact .pure ⟨id, rfl, heq nofun ▸ hc'⟩

theorem evaluates_select_iff (hop : node.opType = "Select")
    (hx : b.graph.evaluate feeds [v] = .ok [x]) (hy : b.graph.evaluate feeds [w] = .ok [y]) :
    Evaluates feeds (translate node [.plain condition, .plain v, .plain w]) b r ↔
      chosen? extended? (some t) (some x) (some y) = some r := by
  refine Runs.evaluates_iff (A := False) (.translate (find?_select hop) ?_) hg
  exact .selection_plain preparation_extendCondition (denotes_of_evaluate hg hc)
    (denotes_of_evaluate hg hx) (denotes_of_evaluate hg hy) id

theorem evaluates_select_complex_iff (hop : node.opType = "Select") {z₁ z₂ : ComplexValue}
    (h₁ : z₁.IsOperandOf b.graph feeds e) (h₂ : z₂.IsOperandOf b.graph feeds e)
    (hx : b.graph.evaluate feeds [z₁.packed] = .ok [x])
    (hy : b.graph.evaluate feeds [z₂.packed] = .ok [y]) :
    Evaluates feeds (translate node [.plain condition, .complex z₁, .complex z₂]) b r ↔
      pack? (chosen? extended? (some t) (plane? 0 (some x)) (plane? 0 (some y)))
        (chosen? extended? (some t) (plane? 1 (some x)) (plane? 1 (some y))) = some r := by
  obtain ⟨hfloat, hlt₁, -⟩ := packed_of_marked hg h₁.marked
  obtain ⟨-, hlt₂, -⟩ := packed_of_marked hg h₂.marked
  have hz₁ := h₁.isOperand hg
  have hz₂ := h₂.isOperand hg
  rw [(outcome?_eq_some hg hlt₁).mpr hx] at hz₁
  rw [(outcome?_eq_some hg hlt₂).mpr hy] at hz₂
  refine Runs.evaluates_marker_iff (A := False) (.translate (find?_select hop) ?_) hg
  exact .imp (.selection_complex preparation_extendCondition hfloat (denotes_of_evaluate hg hc)
    hz₁ hz₂ id) (fun hnone => by rw [hnone, pack?_none]) fun _ _ _ h => h

end Evaluation

/-! ## Both forms of operands -/

/-- A condition in the older form is extended by axes of size 1 to the rank of the branches, and not at
all if it has a higher rank. So where its sizes are the leading ones of the branches, the leading part
of a coordinate selects: for all sizes that is the coordinate, for the first one its first entry, and
for none a single truth value. -/
theorem select_byLeadingAxes (feeds : Feeds) (hg : Graph.Reachable b.graph) :
    (∀ condition v t x, b.graph.evaluate feeds [condition] = .ok [t] →
      b.graph.evaluate feeds [v] = .ok [x] → t.shape.length < 9223372036854775808 →
      x.shape.length < 9223372036854775808 →
      (∀ r, Evaluates feeds (extend condition v) b r → t.shape.length ≤ x.shape.length) ∧
      (InWords t.shape → t.shape.length ≤ x.shape.length →
        Evaluates feeds (extend condition v) b
          (t.withOnes (x.shape.length - t.shape.length)))) ∧
    ∀ (node : Source.Node) condition e shape k c, node.opType = "Select" →
      b.graph.evaluate feeds [condition] = .ok [.tabulate .bool (shape.take k) c] →
      InWords (shape.take k) → shape.length < 9223372036854775808 →
      (∀ v w x y, b.graph.evaluate feeds [v] = .ok [.tabulate e shape x] →
        b.graph.evaluate feeds [w] = .ok [.tabulate e shape y] →
        Evaluates feeds (translate node [.plain condition, .plain v, .plain w]) b
          (.tabulate e shape fun i => if c (i.take k) then x i else y i)) ∧
      ∀ (z w : ComplexValue) x y, z.IsOperandOf b.graph feeds e → w.IsOperandOf b.graph feeds e →
        b.graph.evaluate feeds [z.packed] = .ok [.ofPairs e shape x] →
        b.graph.evaluate feeds [w.packed] = .ok [.ofPairs e shape y] →
        Evaluates feeds (translate node [.plain condition, .complex z, .complex w]) b
          (.ofPairs e shape fun i => if c (i.take k) then x i else y i) := by
  have hwf := hg.wellFormed
  constructor
  · intro condition v t x hc hx ht hrank
    refine ⟨fun r hr => ?_, fun hshape hle => ?_⟩
    · exact length_le_of_extended? ht hrank ((evaluates_extend_iff hwf hc hx).mp hr)
    · exact (evaluates_extend_iff hwf hc hx).mpr ((extended?_eq_some hshape hrank).mpr ⟨hle, rfl⟩)
  intro node condition e shape k c hop hc hshape hrank
  have hjoins : JoinsFront (shape.take k) shape := Shape.joinsFront_take k
  have hjoin : joinFront (shape.take k) shape = shape := Shape.joinFront_take k
  constructor
  · intro v w x y hx hy
    refine (evaluates_select_iff hwf hc hop hx hy).mpr
      ((chosen?_eq_some hshape hrank).mpr ⟨hjoins, ?_⟩)
    rw [hjoin]
    exact Tensor.tabulate_congr fun i hi => (Shape.pickFront_take k hi).symm
  · intro z w x y hz hw hx hy
    refine (evaluates_select_complex_iff hwf hc hop hz hw hx hy).mpr
      ((pack?_chosen?_eq_some hshape hrank).mpr ⟨hjoins, ?_⟩)
    rw [hjoin]
    exact Tensor.ofPairs_congr fun i hi => (Shape.pickFront_take k hi).symm

/-- A condition, two branches and two complex branches. Nothing is known of their shapes but that the
packed ones are of pairs. -/
def branches : Builder where
  graph := Graph.build {} [
    .parameter "condition" .bool .unranked,
    .parameter "x" .f32 .unranked,
    .parameter "y" .f32 .unranked,
    .parameter "z" .f32 (.ranked [none, some 2]),
    .op "z/complex" (.complexMark .f32) [3],
    .parameter "w" .f32 (.ranked [none, some 2]),
    .op "w/complex" (.complexMark .f32) [5]]
  node := "s"
  opType := "Select"

/-- The rows `1, 2` and `3, 4`. -/
def oneToFour : Tensor :=
  ⟨.f32, [2, 2], #[⟨0x3f800000⟩, ⟨0x40000000⟩, ⟨0x40400000⟩, ⟨0x40800000⟩], rfl⟩

/-- The rows `5, 6` and `7, 8`. -/
def fiveToEight : Tensor :=
  ⟨.f32, [2, 2], #[⟨0x40a00000⟩, ⟨0x40c00000⟩, ⟨0x40e00000⟩, ⟨0x41000000⟩], rfl⟩

/-- The first row of the one branch, and the second of the other. -/
def rowsFed : Feeds :=
  [("condition", ⟨.bool, [2], #[true, false], rfl⟩), ("x", oneToFour), ("y", fiveToEight),
    ("z", oneToFour), ("w", fiveToEight)]

/-- A condition of two truth values gets an axis and selects rows, or complex numbers. -/
theorem branches_byRow : Graph.Reachable branches.graph ∧
    Evaluates rowsFed (extend 0 1) branches ⟨.bool, [2, 1], #[true, false], rfl⟩ ∧
    Evaluates rowsFed (translate ⟨"s", "Select", [], []⟩ [.plain 0, .plain 1, .plain 2]) branches
      ⟨.f32, [2, 2], #[⟨0x3f800000⟩, ⟨0x40000000⟩, ⟨0x40e00000⟩, ⟨0x41000000⟩], rfl⟩ ∧
    Evaluates rowsFed (translate ⟨"s", "Select", [], []⟩
        [.plain 0, .complex ⟨4, 3, .f32⟩, .complex ⟨6, 5, .f32⟩]) branches
      ⟨.f32, [2, 2], #[⟨0x3f800000⟩, ⟨0x40000000⟩, ⟨0x40e00000⟩, ⟨0x41000000⟩], rfl⟩ := by
  have hg : Graph.Reachable branches.graph := Graph.reachable_build {} _
  have hwords : InWords [2] := ⟨by decide, by decide⟩
  have hz : branches.graph.evaluate rowsFed [3] = .ok [.ofPairs .f32 [2] fun i =>
      (oneToFour.entry (i ++ [0]), oneToFour.entry (i ++ [1]))] := by decide +kernel
  have hw : branches.graph.evaluate rowsFed [5] = .ok [.ofPairs .f32 [2] fun i =>
      (fiveToEight.entry (i ++ [0]), fiveToEight.entry (i ++ [1]))] := by decide +kernel
  obtain ⟨hextend, hselect⟩ := select_byLeadingAxes rowsFed hg
  have hrows := hselect ⟨"s", "Select", [], []⟩ 0 .f32 [2, 2] 1 (fun i => i = [0]) rfl
    (by decide +kernel) hwords (by decide)
  have hpairs := hselect ⟨"s", "Select", [], []⟩ 0 .f32 [2] 1 (fun i => i = [0]) rfl
    (by decide +kernel) hwords (by decide)
  refine ⟨hg, ?_, ?_, ?_⟩
  · exact (hextend 0 1 ⟨.bool, [2], #[true, false], rfl⟩ oneToFour (by decide +kernel)
      (by decide +kernel) (by decide) (by decide)).2 hwords (by decide)
  · exact hrows.1 1 2 oneToFour.entry fiveToEight.entry (by decide +kernel) (by decide +kernel)
  · refine hpairs.2 ⟨4, 3, .f32⟩ ⟨6, 5, .f32⟩ _ _ ?_ ?_ hz hw
    · exact .of_evaluate rfl ⟨_, rfl, rfl, rfl⟩ hz rfl
    · exact .of_evaluate rfl ⟨_, rfl, rfl, rfl⟩ hw rfl

/-- A tensor without elements, with a size that is not a signed 64-bit integer. -/
def beyondWords (e : ElementType) : Tensor :=
  ⟨e, [9223372036854775808, 0], #[], rfl⟩

/-- A condition and branches of that shape. -/
def beyondWordsFed : Feeds :=
  [("condition", beyondWords .bool), ("x", beyondWords .f32), ("y", beyondWords .f32)]

/-- In the vector of its sizes that one is negative: the condition, which needs no further axes, is not
extended, and nothing is selected. -/
theorem branches_beyondWords : Graph.Reachable branches.graph ∧
    (∃ t x y, branches.graph.evaluate beyondWordsFed [0] = .ok [t] ∧
      branches.graph.evaluate beyondWordsFed [1] = .ok [x] ∧
      branches.graph.evaluate beyondWordsFed [2] = .ok [y] ∧
      t.elementType = .bool ∧ t.shape = x.shape ∧ x.type = y.type) ∧
    (∀ r, ¬Evaluates beyondWordsFed (extend 0 1) branches r) ∧
    ∀ r, ¬Evaluates beyondWordsFed
      (translate ⟨"s", "Select", [], []⟩ [.plain 0, .plain 1, .plain 2]) branches r := by
  have hg : Graph.Reachable branches.graph := Graph.reachable_build {} _
  have hc : branches.graph.evaluate beyondWordsFed [0] = .ok [beyondWords .bool] := by
    decide +kernel
  have hx : branches.graph.evaluate beyondWordsFed [1] = .ok [beyondWords .f32] := by
    decide +kernel
  have hy : branches.graph.evaluate beyondWordsFed [2] = .ok [beyondWords .f32] := by
    decide +kernel
  have hnone : extended? (some (beyondWords .bool)) (some (beyondWords .f32)) = none := by
    decide +kernel
  refine ⟨hg, ⟨_, _, _, hc, hx, hy, rfl, rfl, rfl⟩, fun r hr => ?_, fun r hr => ?_⟩
  · cases hnone.symm.trans ((evaluates_extend_iff hg.wellFormed hc hx).mp hr)
  · have hchosen := (evaluates_select_iff hg.wellFormed hc rfl hx hy).mp hr
    rw [chosen?, hnone, Op.result?_of_none_mem (.head _)] at hchosen
    cases hchosen

/-- The older form of selection takes each condition in words (`InWords`) that, with axes of size 1 at
the end, broadcasts with branches whose rank is a signed word, in both directions. The result has the
shape of the branches exactly if each size of the condition is 1 or that of the branches on the same
axis. -/
theorem select_joinsFront (feeds : Feeds) (hg : Graph.Reachable b.graph)
    (hop : node.opType = "Select") (hfront : InWords front)
    (hrank : shape.length < 9223372036854775808)
    (hc : b.graph.evaluate feeds [condition] = .ok [.tabulate .bool front c]) :
    (∀ v w x y r, b.graph.evaluate feeds [v] = .ok [.tabulate e shape x] →
      b.graph.evaluate feeds [w] = .ok [.tabulate e shape y] →
      (Evaluates feeds (translate node [.plain condition, .plain v, .plain w]) b r ↔
        JoinsFront front shape ∧
          r = .tabulate e (joinFront front shape) (pickFront front shape c x y)) ∧
      (Evaluates feeds (translate node [.plain condition, .plain v, .plain w]) b r →
        (r.shape = shape ↔ FitsFront front shape))) ∧
    ∀ (z w : ComplexValue) x y r, z.IsOperandOf b.graph feeds e → w.IsOperandOf b.graph feeds e →
      b.graph.evaluate feeds [z.packed] = .ok [.ofPairs e shape x] →
      b.graph.evaluate feeds [w.packed] = .ok [.ofPairs e shape y] →
      (Evaluates feeds (translate node [.plain condition, .complex z, .complex w]) b r ↔
        JoinsFront front shape ∧
          r = .ofPairs e (joinFront front shape) (pickFront front shape c x y)) ∧
      (Evaluates feeds (translate node [.plain condition, .complex z, .complex w]) b r →
        (r.shape = shape ++ [2] ↔ FitsFront front shape)) := by
  have hwf := hg.wellFormed
  constructor
  · intro v w x y r hx hy
    have hresult := (evaluates_select_iff hwf hc hop hx hy).trans
      (chosen?_eq_some (r := r) hfront hrank)
    refine ⟨hresult, fun hr => ?_⟩
    obtain ⟨hjoins, rfl⟩ := hresult.mp hr
    exact Shape.joinFront_eq_self hjoins.length_le
  · intro z w x y r hz hw hx hy
    have hresult := (evaluates_select_complex_iff hwf hc hop hz hw hx hy).trans
      (pack?_chosen?_eq_some (r := r) hfront hrank)
    refine ⟨hresult, fun hr => ?_⟩
    obtain ⟨hjoins, rfl⟩ := hresult.mp hr
    exact (List.append_left_inj [2]).trans (Shape.joinFront_eq_self hjoins.length_le)

/-- A condition of three truth values, and branches of one element. -/
def threeForOne : Feeds :=
  [("condition", .tabulate .bool [3] (· ≠ [1])), ("x", .tabulate .f32 [1] fun _ => ⟨0x3f800000⟩),
    ("y", .tabulate .f32 [1] fun _ => ⟨0x40000000⟩),
    ("z", .ofPairs .f32 [1] fun _ => (⟨0x3f800000⟩, ⟨0x40000000⟩)),
    ("w", .ofPairs .f32 [1] fun _ => (⟨0x40400000⟩, ⟨0x40800000⟩))]

/-- The branches are repeated for the condition. -/
theorem branches_joined : Graph.Reachable branches.graph ∧
    Evaluates threeForOne (translate ⟨"s", "Select", [], []⟩ [.plain 0, .plain 1, .plain 2]) branches
      ⟨.f32, [3], #[⟨0x3f800000⟩, ⟨0x40000000⟩, ⟨0x3f800000⟩], rfl⟩ ∧
    Evaluates threeForOne (translate ⟨"s", "Select", [], []⟩
        [.plain 0, .complex ⟨4, 3, .f32⟩, .complex ⟨6, 5, .f32⟩]) branches
      ⟨.f32, [3, 2], #[⟨0x3f800000⟩, ⟨0x40000000⟩, ⟨0x40400000⟩, ⟨0x40800000⟩, ⟨0x3f800000⟩,
        ⟨0x40000000⟩], rfl⟩ := by
  have hg : Graph.Reachable branches.graph := Graph.reachable_build {} _
  have hop : (⟨"s", "Select", [], []⟩ : Source.Node).opType = "Select" := rfl
  have hz : branches.graph.evaluate threeForOne [3] =
      .ok [.ofPairs .f32 [1] fun _ => (⟨0x3f800000⟩, ⟨0x40000000⟩)] := by decide +kernel
  have hw : branches.graph.evaluate threeForOne [5] =
      .ok [.ofPairs .f32 [1] fun _ => (⟨0x40400000⟩, ⟨0x40800000⟩)] := by decide +kernel
  have hjoins : JoinsFront [3] [1] := .cons (.inr (.inr rfl)) .nil
  have hfront : InWords [3] := ⟨by decide, by decide⟩
  have hrank : [1].length < 9223372036854775808 := by decide
  have hc : branches.graph.evaluate threeForOne [0] = .ok [.tabulate .bool [3] (· ≠ [1])] := by
    decide +kernel
  obtain ⟨hplain, hcomplex⟩ := select_joinsFront (e := .f32) threeForOne hg hop hfront hrank hc
  refine ⟨hg, ?_, ?_⟩
  · refine (hplain 1 2 (fun _ => ⟨0x3f800000⟩) (fun _ => ⟨0x40000000⟩) _ ?_ ?_).1.mpr ⟨hjoins, ?_⟩
    all_goals decide +kernel
  · refine (hcomplex ⟨4, 3, .f32⟩ ⟨6, 5, .f32⟩ _ _ _ ?_ ?_ hz hw).1.mpr ⟨hjoins, ?_⟩
    · exact .of_evaluate rfl ⟨_, rfl, rfl, rfl⟩ hz rfl
    · exact .of_evaluate rfl ⟨_, rfl, rfl, rfl⟩ hw rfl
    · decide +kernel

/-- The condition has neither the shape of the branches nor their first size only, and it is not a
single truth value; what is selected has another shape than the branches. -/
theorem branches_outgrown : ∃ t x y r, branches.graph.evaluate threeForOne [0] = .ok [t] ∧
    branches.graph.evaluate threeForOne [1] = .ok [x] ∧
    branches.graph.evaluate threeForOne [2] = .ok [y] ∧
    t.elementType = .bool ∧ x.type = y.type ∧
    t.shape ≠ x.shape ∧ t.shape ≠ x.shape.take 1 ∧ t.shape ≠ [] ∧
    Evaluates threeForOne (translate ⟨"s", "Select", [], []⟩ [.plain 0, .plain 1, .plain 2])
      branches r ∧ r.shape ≠ x.shape := by
  refine ⟨.tabulate .bool [3] (· ≠ [1]), .tabulate .f32 [1] fun _ => ⟨0x3f800000⟩,
    .tabulate .f32 [1] fun _ => ⟨0x40000000⟩,
    ⟨.f32, [3], #[⟨0x3f800000⟩, ⟨0x40000000⟩, ⟨0x3f800000⟩], rfl⟩, ?_⟩
  decide +kernel

end TensorLowering.Lowering
