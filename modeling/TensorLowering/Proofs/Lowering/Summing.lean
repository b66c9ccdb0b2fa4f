import TensorLowering.Proofs.Lowering.Projection
import TensorLowering.Proofs.Tensor.Pairs

/-!
# Sums of many tensors

Lowering a sum of any number of operands comes to the same tensor as adding them one after the other
(`addN_iff_addInTurn`). Of complex operands the sum splits all of them before it adds anything and
packs once, while every single addition packs what the next one splits again: packing the planes of
pairs gives the pairs back (`pack?_planes`), so the planes of the running sum are the running sums of
the planes (`foldl_pairSum?`).
-/

namespace TensorLowering.Lowering

open Dataflow (ValueId Graph Feeds)
open Dataflow.Graph (Scenario Denotes)

variable {b : Builder} {F : Prop} {σ : Scenario} {e : ElementType} {x y : Option Tensor}

/-! ## Sums of pairs -/

/-- Packing is the inverse of splitting. -/
theorem pack?_planes (h : ArePairs x) : pack? (plane? 0 x) (plane? 1 x) = x := by
  cases x with
  | none => exact pack?_none
  | some p =>
    obtain ⟨q, hq, htype, hreal, himag⟩ := exists_pack? (sameType_plane? (some p) 0 1)
    obtain ⟨sizes, hsizes⟩ := List.getLast?_eq_some_iff.mp (h p rfl)
    have hshape : (p.plane 0).shape ++ [2] = p.shape := by
      rw [Tensor.shape_plane, hsizes, List.dropLast_concat]
    have htype : q.type = p.type := htype.trans (congrArg (TensorType.mk p.elementType ∘ .fixed) hshape)
    exact hq.trans (congrArg some
      (Tensor.eq_of_planes (h p rfl) htype hreal (Option.some.inj himag).symm))

/-- The sum of tensors of pairs, plane by plane. -/
def pairSum? (x y : Option Tensor) : Option Tensor :=
  pack? (Op.add.result? [plane? 0 x, plane? 0 y]) (Op.add.result? [plane? 1 x, plane? 1 y])

theorem pairSum?_none : pairSum? none y = none := by
  have hnone : Op.add.result? [none, plane? 0 y] = none := Op.result?_of_none_mem (.head _)
  exact (congrArg (pack? · _) hnone).trans pack?_none

theorem foldl_pairSum? {xs : List (Option Tensor)} (h : ArePairs x) : xs.foldl pairSum? x =
    pack? (sum? ((x :: xs).map (plane? 0))) (sum? ((x :: xs).map (plane? 1))) := by
  induction xs generalizing x with
  | nil => exact (pack?_planes h).symm
  | cons y xs ih =>
    have hadd : Op.add.IsArithmetic := trivial
    have hsame := Op.sameType_arithmetic hadd hadd (sameType_plane? x 0 1) (sameType_plane? y 0 1)
    have hplane : plane? 0 (pairSum? x y) = Op.add.result? [plane? 0 x, plane? 0 y] ∧
        plane? 1 (pairSum? x y) = Op.add.result? [plane? 1 x, plane? 1 y] := plane_pack? hsame
    have hpairs : ArePairs (pairSum? x y) := arePairs_pack? hsame
    rw [List.foldl_cons, ih hpairs]
    simp only [List.map_cons, hplane, sum?_cons_cons]

/-! ## One after the other -/

/-- Adding the operands to the first one, each on behalf of its own node. -/
def addInTurn (first : Lowered) (steps : List (Source.Node × Lowered)) : Build (List Lowered) :=
  steps.foldlM (fun sum step => translate step.1 (sum ++ [step.2])) [first]

/-- How operands stand for tensors, and what lowering makes of their sums. -/
structure Sums (σ : Scenario) (P : Graph → Lowered → Option Tensor → Prop)
    (add : Option Tensor → Option Tensor → Option Tensor) : Prop where
  along : ∀ {g g' l x}, P g l x → g.Leads False g' → P g' l x
  value : ∀ {g l x}, g.WellFormed → P g l x → Denotes σ g l.value x
  two : ∀ {b F node l l' x y}, node.opType ∈ ["Add", "AddV2"] → P b.graph l x → P b.graph l' y →
    (add x y = none → F) →
    Runs False b (translate node [l, l']) F fun g outputs => ∃ r, outputs = [r] ∧ P g r (add x y)
  all : ∀ {b F node operands x xs}, node.opType ∈ ["AddN", "ADD_N"] →
    List.Forall₂ (P b.graph) operands (x :: xs) → (xs.foldl add x = none → F) →
    Runs False b (translate node operands) F fun g outputs =>
      ∃ r, outputs = [r] ∧ P g r (xs.foldl add x)
  missing : ∀ {y}, add none y = none

section

variable {P : Graph → Lowered → Option Tensor → Prop}
  {add : Option Tensor → Option Tensor → Option Tensor} {xs : List (Option Tensor)}
  {first : Lowered} {steps : List (Source.Node × Lowered)}

theorem Sums.foldl_none (h : Sums σ P add) : xs.foldl add none = none := by
  induction xs with
  | nil => rfl
  | cons y xs ih => rw [List.foldl_cons, h.missing, ih]

theorem Runs.addInTurn (h : Sums σ P add)
    (hop : ∀ step ∈ steps, step.1.opType ∈ ["Add", "AddV2"]) (hfirst : P b.graph first x)
    (hsteps : List.Forall₂ (P b.graph) (steps.map (·.2)) xs) (hF : xs.foldl add x = none → F) :
    Runs False b (Lowering.addInTurn first steps) F fun g outputs =>
      ∃ r, outputs = [r] ∧ P g r (xs.foldl add x) := by
  unfold Lowering.addInTurn
  induction steps generalizing b first x xs with
  | nil =>
    obtain rfl := List.forall₂_nil_left_iff.mp hsteps
    exact .pure ⟨first, rfl, hfirst⟩
  | cons step steps ih =>
    obtain ⟨y, ys, hy, hys, rfl⟩ := List.forall₂_cons_left_iff.mp hsteps
    obtain ⟨hstep, hop⟩ := List.forall_mem_cons.mp hop
    rw [List.foldl_cons] at hF ⊢
    rw [List.foldlM_cons]
    have hstepF : add x y = none → F := fun hnone => hF (by rw [hnone, h.foldl_none])
    refine .bind (h.two hstep hfirst hy hstepF) fun outputs c hc hsum => ?_
    obtain ⟨r, rfl, hr⟩ := hsum
    exact ih hop hr (hys.imp fun _ _ hz => h.along hz hc) hF

/-- Summing all operands and adding them in turn come to the same tensor. -/
theorem Sums.evaluates_iff {feeds : Feeds} (h : Sums ⟨feeds, True⟩ P add) (hb : b.graph.WellFormed)
    {sum : Source.Node} (hsum : sum.opType ∈ ["AddN", "ADD_N"])
    (hop : ∀ step ∈ steps, step.1.opType ∈ ["Add", "AddV2"])
    (hin : ∀ operand ∈ first :: steps.map (·.2), ∃ x, P b.graph operand x) {t : Tensor} :
    Evaluates feeds (translate sum (first :: steps.map (·.2))) b t ↔
      Evaluates feeds (addInTurn first steps) b t := by
  obtain ⟨_, hoperands⟩ := exists_forall₂.mpr hin
  obtain ⟨x, xs, hfirst, hsteps, rfl⟩ := List.forall₂_cons_left_iff.mp hoperands
  have hvalue {program : Build (List Lowered)} (hruns : Runs False b program
      (xs.foldl add x = none) fun g outputs => ∃ r, outputs = [r] ∧ P g r (xs.foldl add x)) :
      Evaluates feeds program b t ↔ xs.foldl add x = some t := by
    refine Runs.evaluates_value_iff (hruns.imp id fun g outputs hg hr => ?_) hb
    obtain ⟨r, rfl, hr⟩ := hr
    exact ⟨r, rfl, h.value hg.after hr⟩
  rw [hvalue (h.all hsum hoperands id), hvalue (.addInTurn h hop hfirst hsteps id)]

end

/-! ## Plain and complex operands -/

/-- Operands of one kind are made from what stands for their tensors. -/
theorem exists_map_of_forall₂ {α β γ : Type} {c : α → β} {R : α → γ → Prop} {ls : List β}
    {zs : List γ} (h : List.Forall₂ (fun l z => ∃ a, l = c a ∧ R a z) ls zs) :
    ∃ as, ls = as.map c ∧ List.Forall₂ R as zs := by
  induction h with
  | nil => exact ⟨[], rfl, .nil⟩
  | cons ha _ ih =>
    obtain ⟨a, rfl, ha⟩ := ha
    obtain ⟨as, rfl, has⟩ := ih
    exact ⟨a :: as, rfl, .cons ha has⟩

theorem sums_plain : Sums σ (fun g l x => ∃ v, l = .plain v ∧ Denotes σ g v x)
    fun x y => Op.add.result? [x, y] where
  along := by
    rintro g g' _ x ⟨v, rfl, hv⟩ hg
    exact ⟨v, rfl, hv.along hg⟩
  value := by
    rintro g _ x - ⟨v, rfl, hv⟩
    exact hv
  two := by
    rintro b F node _ _ x y hnode ⟨v, rfl, hv⟩ ⟨w, rfl, hw⟩ hF
    have hadd : Op.add.IsArithmetic := trivial
    refine .imp (.translate (find?_add hnode) (.perPlane_plain hadd hnode hv hw hF)) id ?_
    rintro g outputs - ⟨r, rfl, hr⟩
    exact ⟨_, rfl, r, rfl, hr⟩
  all := by
    intro b F node operands x xs hnode hin hF
    obtain ⟨values, rfl, hvalues⟩ := exists_map_of_forall₂ hin
    have hne : values ≠ [] := by
      rintro rfl
      cases hvalues
    refine .imp (.translate (find?_addN hnode) (.addN_plain hnode hne hvalues hF)) id ?_
    rintro g outputs - ⟨r, rfl, hr⟩
    exact ⟨_, rfl, r, rfl, hr⟩
  missing := Op.result?_of_none_mem (.head _)

theorem sums_complex (hfloat : e.isFloat = true) :
    Sums σ (fun g l x => ∃ z, l = .complex z ∧ z.IsOperand σ g e x) pairSum? where
  along := by
    rintro g g' _ x ⟨z, rfl, hz⟩ hg
    exact ⟨z, rfl, hz.along hg⟩
  value := by
    rintro g _ x hg ⟨z, rfl, hz⟩
    exact hz.marker hg
  two := by
    rintro b F node _ _ x y hnode ⟨z, rfl, hz⟩ ⟨w, rfl, hw⟩ hF
    have hsumF : Op.add.result? [plane? 0 x, plane? 0 y] = none → F := fun h => hF (by
      rw [pairSum?, h, pack?_none])
    have hadd : Op.add.IsArithmetic := trivial
    refine .imp (.translate (find?_add hnode)
      (.perPlane_complex hadd hfloat hnode hz hw hsumF)) id ?_
    rintro g outputs - ⟨r, rfl, hr⟩
    exact ⟨_, rfl, r, rfl, hr⟩
  all := by
    intro b F node operands x xs hnode hin hF
    obtain ⟨zs, rfl, hzs⟩ := exists_map_of_forall₂ hin
    have hne : zs ≠ [] := by
      rintro rfl
      cases hzs
    have hpairs : ArePairs x := by
      obtain ⟨z, _, hz, -, -⟩ := List.forall₂_cons_right_iff.mp hzs
      exact hz.pairs
    have hfold : xs.foldl pairSum? x = _ := foldl_pairSum? hpairs
    rw [hfold] at hF ⊢
    have hsumF : sum? ((x :: xs).map (plane? 0)) = none → F := fun h => hF (by rw [h, pack?_none])
    refine .imp (.translate (find?_addN hnode) (.addN_complex hfloat hnode hne hzs hsumF)) id ?_
    rintro g outputs - ⟨r, rfl, hr⟩
    exact ⟨_, rfl, r, rfl, hr⟩
  missing := pairSum?_none

/-! ## The same sum -/

/-- Operands of a sum: they are all plain, or all complex with parts of the type. -/
inductive Summands (g : Graph) (feeds : Feeds) (e : ElementType) (operands : List Lowered) :
    Prop where
  | plain (h : ∀ operand ∈ operands, ∃ v, operand = .plain v ∧ v < g.nodes.size)
  | complex (h : ∀ operand ∈ operands, ∃ z, operand = .complex z ∧ z.IsOperandOf g feeds e)

/-- Lowering a sum of operands comes to the same tensor as lowering the additions of each operand to
the sum of those before it, or neither comes to a tensor. -/
theorem addN_iff_addInTurn {feeds : Feeds} {sum : Source.Node} {first : Lowered}
    {steps : List (Source.Node × Lowered)} (hg : Graph.Reachable b.graph)
    (hsum : sum.opType ∈ ["AddN", "ADD_N"]) (hop : ∀ step ∈ steps, step.1.opType ∈ ["Add", "AddV2"])
    (h : Summands b.graph feeds e (first :: steps.map (·.2))) (t : Tensor) :
    Evaluates feeds (translate sum (first :: steps.map (·.2))) b t ↔
      Evaluates feeds (addInTurn first steps) b t := by
  have hw := hg.wellFormed
  cases h with
  | plain h =>
    refine sums_plain.evaluates_iff hw hsum hop fun operand hoperand => ?_
    obtain ⟨v, rfl, hv⟩ := h operand hoperand
    exact ⟨_, v, rfl, Graph.denotes_meaning hw hv⟩
  | complex h =>
    obtain ⟨z, -, hz⟩ := h first List.mem_cons_self
    have hfloat := (packed_of_marked hw hz.marked).1
    refine (sums_complex hfloat).evaluates_iff hw hsum hop fun operand hoperand => ?_
    obtain ⟨z, rfl, hz⟩ := h operand hoperand
    exact ⟨_, z, rfl, hz.isOperand hw⟩

/-- A complex vector of unknown length, and a complex number. -/
def vectorAndNumber : Builder where
  graph := Graph.build {} [
    .parameter "z" .f32 (.ranked [none, some 2]),
    .op "z/complex" (.complexMark .f32) [0],
    .parameter "w" .f32 (.ranked [some 2]),
    .op "w/complex" (.complexMark .f32) [2]]
  node := "sum"
  opType := "AddN"

/-- The vector has one element, `1 + 2i`, and the number is `1 + i`. -/
def elementAndNumber : Feeds :=
  [("z", ⟨.f32, [1, 2], #[⟨0x3f800000⟩, ⟨0x40000000⟩], rfl⟩),
    ("w", ⟨.f32, [2], #[⟨0x3f800000⟩, ⟨0x3f800000⟩], rfl⟩)]

theorem vectorAndNumber_summands : Summands vectorAndNumber.graph elementAndNumber .f32
    [.complex ⟨1, 0, .f32⟩, .complex ⟨3, 2, .f32⟩, .complex ⟨1, 0, .f32⟩] := by
  have hz : vectorAndNumber.graph.evaluate elementAndNumber [0] =
      .ok [⟨.f32, [1, 2], #[⟨0x3f800000⟩, ⟨0x40000000⟩], rfl⟩] := by decide +kernel
  have hw : vectorAndNumber.graph.evaluate elementAndNumber [2] =
      .ok [⟨.f32, [2], #[⟨0x3f800000⟩, ⟨0x3f800000⟩], rfl⟩] := by decide +kernel
  refine .complex fun operand h => ?_
  simp only [List.mem_cons, List.not_mem_nil, or_false] at h
  rcases h with rfl | rfl | rfl
  · exact ⟨_, rfl, .of_evaluate rfl ⟨_, rfl, rfl, rfl⟩ hz rfl⟩
  · exact ⟨_, rfl, .of_evaluate rfl ⟨_, rfl, rfl, rfl⟩ hw rfl⟩
  · exact ⟨_, rfl, .of_evaluate rfl ⟨_, rfl, rfl, rfl⟩ hz rfl⟩

/-- The vector, the number and the vector again come to the vector with the element `3 + 5i`. -/
theorem vectorAndNumber_summed : Graph.Reachable vectorAndNumber.graph ∧
    Summands vectorAndNumber.graph elementAndNumber .f32
      [.complex ⟨1, 0, .f32⟩, .complex ⟨3, 2, .f32⟩, .complex ⟨1, 0, .f32⟩] ∧
    Evaluates elementAndNumber (translate ⟨"sum", "AddN", [], []⟩
      [.complex ⟨1, 0, .f32⟩, .complex ⟨3, 2, .f32⟩, .complex ⟨1, 0, .f32⟩]) vectorAndNumber
      ⟨.f32, [1, 2], #[⟨0x40400000⟩, ⟨0x40a00000⟩], rfl⟩ := by
  have hg : Graph.Reachable vectorAndNumber.graph := Graph.reachable_build {} _
  have hsum : (⟨"sum", "AddN", [], []⟩ : Source.Node).opType ∈ ["AddN", "ADD_N"] := .head _
  have hop : ∀ step ∈ [((⟨"first", "Add", [], []⟩ : Source.Node), Lowered.complex ⟨3, 2, .f32⟩),
      (⟨"second", "AddV2", [], []⟩, .complex ⟨1, 0, .f32⟩)], step.1.opType ∈ ["Add", "AddV2"] := by
    decide
  refine ⟨hg, vectorAndNumber_summands, ?_⟩
  refine (addN_iff_addInTurn hg hsum hop vectorAndNumber_summands _).mpr ?_
  decide +kernel

end TensorLowering.Lowering
