import TensorLowering.Proofs.Op.Acceptance

/-!
# What is rejected cannot be computed

Typing works with what is known about the operands before run time. Whatever they turn out to be, an
operation that it rejects does not compute anything (`compute_fails_of_infer_fails`): what computes
something of tensors is accepted on these tensors (`exists_infer_of_listsGiven`), and then also where
less is known about them.
-/

namespace TensorLowering

/-- The tensor is one of those that the operand may stand for. -/
structure Tensor.Conforms (v : Tensor) (x : Operand) : Prop where
  elementType : v.elementType = x.elementType
  admitted : x.shape.admits v.shape = true
  contents : ∀ known, x.contents = some known → v = known

theorem Tensor.Conforms.refines {v : Tensor} {x : Operand} (h : v.Conforms x) :
    v.operand.Refines x where
  type := ⟨h.elementType, PartialShape.admits_eq_true.mp h.admitted⟩
  contents known hk := congrArg some (h.contents known hk)
  settled := v.operand_settled

namespace Op

variable {op : Op} {t u v : Tensor} {vs : List Tensor} {operands : List Operand}

/-- The operations that make something of the elements of their operands, so neither sources nor a
mark nor a shape. -/
def IsProper : Op → Prop
  | parameter .. | constant _ | shapeOf _ | complexMark _ => False
  | _ => True

/-- Counts and target shapes are vectors, axes a vector or a single number, and a fill value is a
scalar. Computing reads only the elements of these tensors. -/
def ListsGiven : Op → List Tensor → Prop
  | pad _, _ :: before :: after :: fill =>
    before.shape.length = 1 ∧ after.shape.length = 1 ∧ ∀ f ∈ fill, f.shape = []
  | reduce _ _, [_, axes] => axes.shape.length ≤ 1
  | broadcast, [_, target] => target.shape.length = 1
  | reshape _, [_, target] => target.shape.length = 1
  | _, _ => True

theorem exists_inferLess (op : Op) (h : t.less u = .ok v) :
    ∃ type, op.inferLess t.operand u.operand = .ok type := by
  obtain ⟨shape, hs, -⟩ := Tensor.type_less h
  obtain ⟨_, -, h⟩ := bind_eq_ok.mp h
  split at h
  · cases h
  · rename_i ha
    obtain ⟨data, hdata, -⟩ := bind_eq_ok.mp h
    rw [inferLess_eq]
    exact inferElementwise_known (Tensor.elementType_of_dataAs hdata)
      (ElementType.isNumeric_iff.mpr ⟨_, ha⟩) hs

/-- Only in the constant mode does a padding have a fill value. -/
theorem exists_infer_pad {mode : PadMode} (hcount : vs.length = 4 → mode = .constant)
    (hlists : (pad mode).ListsGiven vs) (h : (pad mode).compute vs = .ok v) :
    ∃ type, (pad mode).infer (vs.map Tensor.operand) = .ok type := by
  obtain _ | ⟨data, _ | ⟨before, _ | ⟨after, _ | ⟨f, _ | _⟩⟩⟩⟩ := vs
  · cases h
  · cases h
  · cases h
  · obtain ⟨hbefore, hafter, -⟩ := hlists
    obtain ⟨type, ht⟩ := exists_inferPad (pad mode) h hbefore hafter nofun
    exact ⟨type, (infer_pad mode _ _ _).trans ht⟩
  · obtain rfl := hcount rfl
    obtain ⟨hbefore, hafter, hfill⟩ := hlists
    exact exists_inferPad (pad .constant) h hbefore hafter
      fun f' hf' => hfill f' (List.mem_singleton.mpr (Option.some.inj hf').symm)
  · cases h

/-- What is computed is accepted, if lists are given as such and a padding has a fill value only in
the constant mode. -/
theorem exists_infer_of_listsGiven (hop : op.IsProper) (hlists : op.ListsGiven vs)
    (hcount : ∀ mode, op = .pad mode → vs.length = 4 → mode = .constant)
    (h : op.compute vs = .ok v) : ∃ type, op.infer (vs.map Tensor.operand) = .ok type := by
  cases op with
  | less =>
    obtain ⟨t, u, rfl, h⟩ := binary_eq_ok.mp h
    exact exists_inferLess _ h
  | atan2 =>
    obtain ⟨t, u, rfl, h⟩ := binary_eq_ok.mp h
    exact exists_inferAtan2 _ h
  | pad mode => exact exists_infer_pad (hcount mode rfl) hlists h
  | reduce kind keepDims =>
    obtain ⟨t, u, rfl, h⟩ := binary_eq_ok.mp h
    exact exists_inferReduce _ h hlists
  | broadcast =>
    obtain ⟨t, u, rfl, h⟩ := binary_eq_ok.mp h
    exact exists_inferBroadcast _ h hlists
  | reshape specialZero =>
    obtain ⟨t, u, rfl, h⟩ := binary_eq_ok.mp h
    exact exists_inferReshape _ h hlists
  | parameter | constant | shapeOf | complexMark => exact hop.elim
  | _ => exact exists_infer_of_compute (by trivial) h

/-- An operation that is rejected because of what is known about its operands computes nothing of any
tensors that these may stand for. -/
theorem compute_fails_of_infer_fails (hop : op.IsProper)
    (hin : List.Forall₂ Tensor.Conforms vs operands) (hlists : op.ListsGiven vs)
    (hcount : ∀ mode, op = .pad mode → operands.length = 4 → mode = .constant) {e : Error}
    (h : op.infer operands = .error e) : ∃ e', op.compute vs = .error e' := by
  cases hv : op.compute vs with
  | error e' => exact ⟨e', rfl⟩
  | ok v =>
    obtain ⟨type, ht⟩ := exists_infer_of_listsGiven hop hlists
      (fun mode hmode hlen => hcount mode hmode (hin.length_eq ▸ hlen)) hv
    have hrefines : List.Forall₂ Operand.Refines (vs.map Tensor.operand) operands :=
      List.forall₂_map_left_iff.mpr (hin.imp fun _ _ hx => hx.refines)
    obtain ⟨type', ht', -⟩ := infer_mono hrefines ht
    rw [h] at ht'
    cases ht'

/-- The heights 2 and 3 of the outer parts are known, but neither a width nor anything of the shape
of the part between them: side by side they are rejected, and fail when they are computed. -/
theorem compute_fails_of_heights :
    (concat (-1)).infer [⟨⟨.f32, .ranked [some 2, none]⟩, none⟩, ⟨⟨.f32, .unranked⟩, none⟩,
      ⟨⟨.f32, .ranked [some 3, none]⟩, none⟩] = .error (.shape (.concatSizes 0 2 3)) ∧
    ∃ e, (concat (-1)).compute [⟨.f32, [2, 1], #[⟨0⟩, ⟨0⟩], rfl⟩, ⟨.f32, [2, 0], #[], rfl⟩,
      ⟨.f32, [3, 1], #[⟨0⟩, ⟨0⟩, ⟨0⟩], rfl⟩] = .error e := by
  have hinfer : (concat (-1)).infer [⟨⟨.f32, .ranked [some 2, none]⟩, none⟩,
      ⟨⟨.f32, .unranked⟩, none⟩, ⟨⟨.f32, .ranked [some 3, none]⟩, none⟩] =
        .error (.shape (.concatSizes 0 2 3)) := rfl
  refine ⟨hinfer, compute_fails_of_infer_fails trivial ?_ trivial nofun hinfer⟩
  exact .cons ⟨rfl, rfl, nofun⟩ (.cons ⟨rfl, rfl, nofun⟩ (.cons ⟨rfl, rfl, nofun⟩ .nil))

end Op

end TensorLowering
