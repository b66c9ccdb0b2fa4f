import TensorLowering.Proofs.Dataflow.Meaning
import TensorLowering.Proofs.Op.Errors

/-!
# Evaluation computes the denotation

The main statement about evaluation of a built graph, `evaluate_denotes`: the outputs get their
meanings, or one of them has none. It rests on `evaluate_eq_ok` and on what an evaluation can fail
with (`evaluate_fails`), which is never an error about the order of the run (`evaluate_local`).
-/

namespace TensorLowering.Dataflow

@[simp] theorem Graph.acceptFeed_fails (name : String) (elementType : ElementType)
    (shape : PartialShape) (fed : Tensor) :
    FailsOnly Error.Checked (acceptFeed name elementType shape fed) := by
  simp [acceptFeed]

/-- A node whose inputs have values fails as its operation does on them, or for want of a feed. -/
theorem Node.value_fails {feeds : Feeds} {read : ValueId → Except Error Tensor} {node : Node}
    {vs : List Tensor} (h : List.Forall₂ (fun input v => read input = .ok v) node.inputs vs) :
    FailsOnly (fun e => e.Checked ∨ e = .evaluation (.outOfRange 0 0) ∧ node.op.LacksFill vs)
      (node.value feeds read) := by
  unfold Node.value
  split
  · exact failsOnly_ok _
  · refine FailsOnly.imp (P := Error.Checked) ?_ fun e => .inl
    split <;> simp
  · rw [mapM_eq_ok.mpr h, ok_bind]
    exact Op.compute_fails node.op vs

namespace Graph

variable {g : Graph} {feeds : Feeds}

theorem Needed.trans {outputs : List ValueId} {id input : ValueId} (h : g.Needed outputs id)
    (h' : g.Needed [id] input) : g.Needed outputs input := by
  induction h' with
  | output hid => rwa [List.mem_singleton.mp hid]
  | input _ hnode hc hi ih => exact .input ih hnode hc hi

/-- The error that a value means comes from a node it needs whose inputs have meanings; by induction
along the graph. -/
theorem exists_of_meaning_eq_error (hg : g.WellFormed) {id : Nat} (hid : id < g.nodes.size)
    {e : Error} (h : g.meaning feeds id = .error e) : ∃ origin node vs,
      g.Needed [id] origin ∧ g.nodes[origin]? = some node ∧
      List.Forall₂ (fun input v => g.meaning feeds input = .ok v) node.inputs vs ∧
      node.value feeds (g.meaning feeds) = .error e := by
  induction id using Nat.strongRecOn with
  | ind id ih =>
    have hnode : g.nodes[id]? = some g.nodes[id] := Array.getElem?_eq_getElem hid
    have hvalue := h
    rw [meaning_eq hg hnode] at hvalue
    cases hvs : g.nodes[id].inputs.mapM (g.meaning feeds) with
    | ok vs => exact ⟨id, _, vs, .output List.mem_cons_self, hnode, mapM_eq_ok.mp hvs, hvalue⟩
    | error e' =>
      obtain ⟨input, hi, he'⟩ := exists_of_mapM_eq_error hvs
      have hlt := hg.input_lt hnode hi
      suffices g.nodes[id].contents = none ∧ e' = e by
        obtain ⟨origin, node, vs, hn, hrest⟩ := ih input hlt (Nat.lt_trans hlt hid) (this.2 ▸ he')
        refine ⟨origin, node, vs, .trans (.input ?_ hnode this.1 hi) hn, hrest⟩
        exact .output List.mem_cons_self
      unfold Node.value at hvalue
      split at hvalue
      · cases hvalue
      · rename_i hop
        rw [hg.parameter_inputs hnode hop] at hi
        cases hi
      · rename_i hc _
        rw [hvs, error_bind] at hvalue
        exact ⟨hc, Except.error.inj hvalue⟩

/-- An evaluation fails with an error that a check reports, or because one of the values that it
needs lacks the fill value to pad with. -/
theorem evaluate_fails (hg : g.WellFormed) {outputs : List ValueId}
    (hout : ∀ id ∈ outputs, id < g.nodes.size) :
    FailsOnly (fun e => e.Checked ∨ e = .evaluation (.outOfRange 0 0) ∧ ∃ id node vs,
      g.Needed outputs id ∧ g.nodes[id]? = some node ∧
      List.Forall₂ (fun input v => g.meaning feeds input = .ok v) node.inputs vs ∧
      node.op.LacksFill vs) (g.evaluate feeds outputs) := ⟨fun e he => by
  obtain ⟨id, hn, he⟩ := exists_of_evaluate_eq_error hg hout he
  obtain ⟨origin, node, vs, ho, hnode, hvs, he⟩ :=
    exists_of_meaning_eq_error hg (hn.lt_size hg hout) he
  exact ((Node.value_fails hvs).of_error e he).imp_right fun h =>
    ⟨h.1, origin, node, vs, hn.trans ho, hnode, hvs, h.2⟩⟩

theorem evaluate_local (hg : g.WellFormed) {outputs : List ValueId}
    (hout : ∀ id ∈ outputs, id < g.nodes.size) :
    FailsOnly Error.Local (g.evaluate feeds outputs) := (evaluate_fails hg hout).imp fun e he => by
  rcases he with he | ⟨rfl, -⟩
  · exact he.isLocal
  · simp

/-- Of outputs that do not all exist one is reported. -/
theorem evaluate_eq_error_of_not_lt (feeds : Feeds) {outputs : List ValueId}
    (hout : ¬∀ id ∈ outputs, id < g.nodes.size) :
    ∃ id, g.evaluate feeds outputs = .error (.graph (.unknownValue id)) := by
  unfold evaluate dependencies
  split
  · rename_i id _
    exact ⟨id, rfl⟩
  · rename_i hfind
    refine absurd (fun id hid => ?_) hout
    simpa using List.find?_eq_none.mp hfind id (List.mem_reverse.mpr hid)

/-- What an evaluation returns are meanings. -/
theorem meaning_of_evaluate (hg : g.WellFormed) {outputs : List ValueId} {vs : List Tensor}
    (h : g.evaluate feeds outputs = .ok vs) :
    List.Forall₂ (fun id v => g.meaning feeds id = .ok v) outputs vs := by
  refine (evaluate_eq_ok hg (of_not_not fun hout => ?_)).mp h
  obtain ⟨id, he⟩ := evaluate_eq_error_of_not_lt feeds hout
  rw [h] at he
  cases he

/-- Two requests that succeed give a value that both ask for as the same tensor. -/
theorem evaluate_agree (hg : g.WellFormed) {outputs outputs' : List ValueId} {vs vs' : List Tensor}
    (hout : ∀ id ∈ outputs, id < g.nodes.size) (hout' : ∀ id ∈ outputs', id < g.nodes.size)
    (h : g.evaluate feeds outputs = .ok vs) (h' : g.evaluate feeds outputs' = .ok vs')
    {i j : Nat} {id : ValueId} (hi : outputs[i]? = some id) (hj : outputs'[j]? = some id) :
    vs[i]? = vs'[j]? := by
  obtain ⟨v, hv, hm⟩ := getElem?_of_forall₂ ((evaluate_eq_ok hg hout).mp h) hi
  obtain ⟨v', hv', hm'⟩ := getElem?_of_forall₂ ((evaluate_eq_ok hg hout').mp h') hj
  rw [hv, hv', Except.ok.inj (hm.symm.trans hm')]

/-- Evaluation gives the denotation of a graph. The meaning of a value is its known contents, else
the checked feed of a parameter, else what the operation makes of the meanings of its inputs. An
evaluation succeeds exactly if all outputs have meanings, and then returns these in the order asked
for. It never fails for the order in which it runs, what it returns for a value does not depend on
the other outputs, and it reads no feeds but those of the parameters that the outputs need. -/
theorem evaluate_denotes (hg : Reachable g) (feeds : Feeds) {outputs : List ValueId}
    (hout : ∀ id ∈ outputs, id < g.nodes.size) :
    (∀ id node, g.nodes[id]? = some node →
      g.meaning feeds id = node.value feeds (g.meaning feeds)) ∧
    ((∃ vs, g.evaluate feeds outputs = .ok vs) ↔
      ∀ id ∈ outputs, ∃ v, g.meaning feeds id = .ok v) ∧
    (∀ vs, g.evaluate feeds outputs = .ok vs ↔
      List.Forall₂ (fun id v => g.meaning feeds id = .ok v) outputs vs) ∧
    (∀ id, g.evaluate feeds outputs ≠ .error (.evaluation (.usedTooEarly id)) ∧
      g.evaluate feeds outputs ≠ .error (.evaluation (.notComputed id))) ∧
    (∀ outputs' vs vs', (∀ id ∈ outputs', id < g.nodes.size) →
      g.evaluate feeds outputs = .ok vs → g.evaluate feeds outputs' = .ok vs' →
      ∀ (i j : Nat) id, outputs[i]? = some id → outputs'[j]? = some id → vs[i]? = vs'[j]?) ∧
    (∀ feeds', g.FeedsAgree outputs feeds feeds' →
      g.evaluate feeds outputs = g.evaluate feeds' outputs) := by
  have hw := hg.wellFormed
  refine ⟨fun id node hnode => meaning_eq hw hnode, ?_, fun vs => evaluate_eq_ok hw hout, ?_, ?_,
    fun feeds' h => evaluate_congr hw hout h⟩
  · simp only [evaluate_eq_ok hw hout]
    exact exists_forall₂
  · exact fun id => ⟨fun h => ((evaluate_local hw hout).of_error _ h id).1 rfl,
      fun h => ((evaluate_local hw hout).of_error _ h id).2 rfl⟩
  · exact fun outputs' vs vs' hout' h h' i j id hi hj => evaluate_agree hw hout hout' h h' hi hj

/-- A vector that is fed, and its sum with a constant that is folded to three times itself. -/
def tripled : Graph := build {} [
  .parameter "x" .i64 (.ranked [none]),
  .constant "c" (.ofInts [1, 2]),
  .op "c2" .add [1, 1],
  .op "c3" .add [1, 2],
  .op "s" .add [0, 3]]

/-- Both outputs of a request have meanings, and feeds that no output needs change nothing. -/
theorem tripled_denotes :
    (∀ id ∈ [4, 3, 4], ∃ v, tripled.meaning [("x", .ofInts [10, 20])] id = .ok v) ∧
    tripled.evaluate [("x", .ofInts [10, 20])] [4, 3, 4] =
      .ok [.ofInts [13, 26], .ofInts [3, 6], .ofInts [13, 26]] := by
  have hev : tripled.evaluate [("x", .ofInts [10, 20])] [4, 3, 4] =
      .ok [.ofInts [13, 26], .ofInts [3, 6], .ofInts [13, 26]] := by decide +kernel
  have hout : ∀ id ∈ [4, 3, 4], id < tripled.nodes.size := by decide +kernel
  have hd := evaluate_denotes (reachable_build {} _) [("x", .ofInts [10, 20])] hout
  exact ⟨hd.2.1.mp ⟨_, hev⟩, hev⟩

end Graph

end TensorLowering.Dataflow
