import TensorLowering.Dataflow.Evaluate
import TensorLowering.Proofs.Dataflow.Building
import TensorLowering.Proofs.Digraph.Ready

/-!
# What a value means, and that evaluation computes it

The meaning of a value is given by recursion on the graph (`Graph.meaning`, with the equation
`meaning_eq`). Evaluation goes another way: it closes the outputs under inputs, runs through the
graph in order of readiness and looks up what it stored. It comes to the same:

* `mem_dependencies`: the values it runs are those that the outputs need (`Needed`), where a value
  with known contents needs nothing;
* `run_spec`: after each part of the order, the values stored are the meanings of those that are
  needed, or the run has stopped with the error that one of them means;
* `evaluate_eq_ok`, `exists_of_evaluate_eq_error`: the same for a whole evaluation.
-/

namespace TensorLowering.Dataflow

/-- The value of a node where `read` gives those of its inputs: the contents if they are known, else
the checked feed of a parameter, else what the operation computes. -/
def Node.value (feeds : Feeds) (read : ValueId → Except Error Tensor) (node : Node) :
    Except Error Tensor :=
  match node.contents, node.op with
  | some contents, _ => .ok contents
  | none, .parameter name elementType shape =>
    match feeds.lookup name with
    | none => .error (.evaluation (.missingFeed name))
    | some fed => do
      Graph.acceptFeed name elementType shape fed
      return fed
  | none, op => do op.compute (← node.inputs.mapM read)

/-- The value of an output after the run. -/
def Values.output (values : Values) (id : ValueId) : Except Error Tensor :=
  match values.lookup id with
  | some value => .ok value
  | none => .error (.evaluation (.notComputed id))

namespace Graph

theorem evaluateNode_eq (feeds : Feeds) (values : Values) (node : Node) :
    evaluateNode feeds values node = node.value feeds (Values.read values) := rfl

/-- The meaning of a value, by recursion on the graph. The inputs of a node are earlier in every
graph that can be built; an input that is not has no meaning. -/
def meaning (g : Graph) (feeds : Feeds) (id : ValueId) : Except Error Tensor :=
  match g.nodes[id]? with
  | none => .error (.graph (.unknownValue id))
  | some node => node.value feeds fun input =>
      if input < id then g.meaning feeds input else .error (.evaluation (.usedTooEarly input))
termination_by id

end Graph

/-- A node reads its inputs only if its contents are not known. -/
theorem Node.value_congr {feeds : Feeds} {read read' : ValueId → Except Error Tensor} {node : Node}
    (h : node.contents = none → ∀ input ∈ node.inputs, read input = read' input) :
    node.value feeds read = node.value feeds read' := by
  unfold Node.value
  split
  · rfl
  · rfl
  · rename_i hc _
    rw [mapM_congr (h hc)]

/-- A node has a value where its contents are known, its feed is accepted, or its operation computes
one from its inputs. -/
theorem Node.value_eq_ok {feeds : Feeds} {read : ValueId → Except Error Tensor} {node : Node}
    {v : Tensor} : node.value feeds read = .ok v ↔ node.contents = some v ∨ node.contents = none ∧
      ((∃ name elementType shape, node.op = .parameter name elementType shape ∧
          feeds.lookup name = some v ∧ Graph.acceptFeed name elementType shape v = .ok ()) ∨
        ∃ vs, List.Forall₂ (fun input v => read input = .ok v) node.inputs vs ∧
          node.op.compute vs = .ok v) := by
  unfold Node.value
  split
  · rename_i hc
    simp [hc]
  · rename_i name elementType shape hc hop
    rw [hop]
    cases hf : feeds.lookup name with
    | none => simp [hc, hf, Op.compute]
    | some fed =>
      have hswap : (Graph.acceptFeed name elementType shape fed = .ok () ∧ fed = v) ↔
          (fed = v ∧ Graph.acceptFeed name elementType shape v = .ok ()) :=
        ⟨fun ⟨h, e⟩ => ⟨e, e ▸ h⟩, fun ⟨e, h⟩ => ⟨e ▸ h, e⟩⟩
      simpa [hc, hf, Op.compute] using hswap
  · rename_i hc hop
    have hno : ¬∃ name elementType shape, node.op = .parameter name elementType shape ∧
        feeds.lookup name = some v ∧ Graph.acceptFeed name elementType shape v = .ok () :=
      fun ⟨_, _, _, h, _⟩ => hop _ _ _ h
    simp only [bind_eq_ok, mapM_eq_ok, hc, reduceCtorEq, false_or, true_and, hno]

namespace Graph

variable {g : Graph} {feeds : Feeds}

theorem WellFormed.input_lt (hg : g.WellFormed) {id input : Nat} {node : Node}
    (h : g.nodes[id]? = some node) (hi : input ∈ node.inputs) : input < id := by
  obtain ⟨operands, _, hops, -⟩ := hg id node h
  obtain ⟨operand, -, hlt, -⟩ := exists_of_forall₂_left hops hi
  exact hlt

theorem WellFormed.parameter_inputs (hg : g.WellFormed) {id : ValueId} {node : Node}
    (h : g.nodes[id]? = some node) {name : String} {elementType : ElementType}
    {shape : PartialShape} (hop : node.op = .parameter name elementType shape) :
    node.inputs = [] := by
  obtain ⟨operands, type, hops, ht, -⟩ := hg id node h
  rw [hop, Op.infer] at ht
  cases operands with
  | nil => exact List.forall₂_nil_right_iff.mp hops
  | cons operand operands => cases ht

/-- The equation of the meaning. -/
theorem meaning_eq (hg : g.WellFormed) {id : ValueId} {node : Node} (h : g.nodes[id]? = some node) :
    g.meaning feeds id = node.value feeds (g.meaning feeds) := by
  rw [meaning, h]
  exact Node.value_congr fun _ input hi => by rw [if_pos (hg.input_lt h hi)]

/-! ## The values that are needed -/

/-- The values that `outputs` depend on. A value whose contents are known depends on nothing. -/
inductive Needed (g : Graph) (outputs : List ValueId) : ValueId → Prop where
  | output {id : ValueId} : id ∈ outputs → Needed g outputs id
  | input {id input : ValueId} {node : Node} : Needed g outputs id → g.nodes[id]? = some node →
      node.contents = none → input ∈ node.inputs → Needed g outputs input

theorem subset_closeInputs (g : Graph) (bound : Nat) (needed : List ValueId) :
    needed ⊆ g.closeInputs bound needed := by
  induction bound generalizing needed with
  | zero => exact fun _ h => h
  | succ id ih =>
    unfold closeInputs
    split
    · refine List.Subset.trans ?_ (ih _)
      split
      · exact List.subset_append_right ..
      · exact fun _ h => h
    · exact ih _

/-- Closing adds only what is needed. -/
theorem needed_of_mem_closeInputs {outputs : List ValueId} {bound : Nat} {needed : List ValueId}
    (h : ∀ id ∈ needed, g.Needed outputs id) :
    ∀ id ∈ g.closeInputs bound needed, g.Needed outputs id := by
  induction bound generalizing needed with
  | zero => exact h
  | succ id ih =>
    unfold closeInputs
    split
    · rename_i node hnode
      refine ih fun v hv => ?_
      split at hv
      · rename_i hid
        rcases List.mem_append.mp hv with hv | hv
        · exact .input (h id (List.contains_iff_mem.mp hid)) hnode rfl hv
        · exact h v hv
      · exact h v hv
    · exact ih h

/-- Below the bound, closing from a set can only add inputs, which are earlier still. -/
theorem mem_of_mem_closeInputs (hg : g.WellFormed) {bound id : Nat} {needed : List Nat}
    (h : id ∈ g.closeInputs bound needed) (hid : bound ≤ id + 1) : id ∈ needed := by
  induction bound generalizing needed with
  | zero => exact h
  | succ n ih =>
    unfold closeInputs at h
    split at h
    · rename_i node hnode
      have := ih h (by omega)
      split at this
      · rcases List.mem_append.mp this with hi | hi
        · have := hg.input_lt hnode hi; omega
        · exact hi
      · exact this
    · exact ih h (by omega)

/-- Closing leaves out no input of a member below the bound. -/
theorem closeInputs_closed (hg : g.WellFormed) {bound : Nat} {needed : List ValueId}
    {id input : Nat} {node : Node} (hid : id < bound) (h : id ∈ g.closeInputs bound needed)
    (hnode : g.nodes[id]? = some node) (hc : node.contents = none) (hi : input ∈ node.inputs) :
    input ∈ g.closeInputs bound needed := by
  induction bound generalizing needed with
  | zero => omega
  | succ n ih =>
    by_cases hn : id = n
    · subst hn
      have hmem := mem_of_mem_closeInputs hg h (Nat.le_refl _)
      unfold closeInputs
      split
      · rename_i hnode'
        obtain rfl := Option.some.inj (hnode.symm.trans hnode')
        rw [if_pos (List.contains_iff_mem.mpr hmem)]
        exact subset_closeInputs _ _ _ (List.mem_append_left _ hi)
      · rename_i hno
        obtain ⟨_, _, _, _, _⟩ := node
        subst hc
        exact absurd hnode (hno _ _ _ _)
    · unfold closeInputs at h ⊢
      split
      · rename_i hnode'
        rw [hnode'] at h
        exact ih (by omega) h
      · rename_i hno
        split at h
        · rename_i hnode'
          exact absurd hnode' (hno _ _ _ _)
        · exact ih (by omega) h

theorem Needed.lt_size (hg : g.WellFormed) {outputs : List ValueId}
    (hout : ∀ id ∈ outputs, id < g.nodes.size) {id : Nat} (h : g.Needed outputs id) :
    id < g.nodes.size := by
  induction h with
  | output h => exact hout _ h
  | @input id input node _ hnode _ hi ih => exact Nat.lt_trans (hg.input_lt hnode hi) ih

/-- Outputs that exist have dependencies, and these are the values that they need. -/
theorem mem_dependencies (hg : g.WellFormed) {outputs : List ValueId}
    (hout : ∀ id ∈ outputs, id < g.nodes.size) :
    ∃ needed, g.dependencies outputs = .ok needed ∧ ∀ id, id ∈ needed ↔ g.Needed outputs id := by
  have hfind : outputs.reverse.find? (g.nodes.size ≤ ·) = none :=
    List.find?_eq_none.mpr fun id hid => by
      simpa using hout id (List.mem_reverse.mp hid)
  refine ⟨g.closeInputs g.nodes.size outputs, by rw [dependencies, hfind],
    fun id => ⟨?_, fun h => ?_⟩⟩
  · exact needed_of_mem_closeInputs (fun _ => .output) id
  · induction h with
    | output h => exact subset_closeInputs _ _ _ h
    | input hn hnode hc hi ih => exact closeInputs_closed hg (hn.lt_size hg hout) ih hnode hc hi

/-- If the outputs have values, so has everything that they need. -/
theorem Needed.meaning_ok (hg : g.WellFormed) {outputs : List ValueId}
    (hout : ∀ id ∈ outputs, ∃ v, g.meaning feeds id = .ok v) {id : ValueId}
    (h : g.Needed outputs id) : ∃ v, g.meaning feeds id = .ok v := by
  induction h with
  | output h => exact hout _ h
  | @input id input node _ hnode hc hi ih =>
    obtain ⟨v, hv⟩ := ih
    rw [meaning_eq hg hnode, Node.value] at hv
    split at hv
    · rename_i hc'; rw [hc] at hc'; cases hc'
    · rename_i hop; rw [hg.parameter_inputs hnode hop] at hi; cases hi
    · simp only [bind_eq_ok, mapM_eq_ok] at hv
      obtain ⟨vs, hvs, -⟩ := hv
      obtain ⟨w, -, hw⟩ := exists_of_forall₂_left hvs hi
      exact ⟨w, hw⟩

/-! ## The run -/

theorem mem_predecessors_digraph {input id : ValueId} :
    input ∈ g.digraph.predecessors id ↔ ∃ node, g.nodes[id]? = some node ∧ input ∈ node.inputs := by
  rw [Digraph.mem_predecessors]
  simp only [digraph, List.mem_flatMap, List.mem_map, Prod.mk.injEq]
  constructor
  · rintro ⟨⟨node, v⟩, hn, i, hi, rfl, rfl⟩
    exact ⟨node, by simpa using List.mem_zipIdx_iff_getElem?.mp hn, hi⟩
  · rintro ⟨node, hn, hi⟩
    exact ⟨(node, id), List.mem_zipIdx_iff_getElem?.mpr (by simpa using hn), input, hi, rfl, rfl⟩

theorem WellFormed.forward (hg : g.WellFormed) : g.digraph.Forward := fun input id h => by
  obtain ⟨node, hn, hi⟩ := mem_predecessors_digraph.mp (Digraph.mem_predecessors.mpr h)
  exact ⟨hg.input_lt hn hi, (Array.getElem?_eq_some_iff.mp hn).1⟩

/-- Of the vertices run through so far, those that are needed have stored their meanings. -/
def Stores (g : Graph) (feeds : Feeds) (needed run : List ValueId) (values : Values) : Prop :=
  ∀ id ∈ run, id ∈ needed → ∃ v, values.lookup id = some v ∧ g.meaning feeds id = .ok v

/-- A node whose needed inputs are stored gets its meaning. -/
theorem evaluateNode_eq_meaning (hg : g.WellFormed) {outputs needed run : List ValueId}
    {values : Values} (hn : ∀ id, id ∈ needed ↔ g.Needed outputs id)
    (hs : g.Stores feeds needed run values) {id : ValueId} {node : Node}
    (hnode : g.nodes[id]? = some node) (hid : id ∈ needed)
    (hp : ∀ input ∈ g.digraph.predecessors id, input ∈ run) :
    evaluateNode feeds values node = g.meaning feeds id := by
  rw [evaluateNode_eq, meaning_eq hg hnode]
  refine Node.value_congr fun hc input hi => ?_
  have hneeded : input ∈ needed := (hn input).mpr (.input ((hn id).mp hid) hnode hc hi)
  obtain ⟨v, hv, hm⟩ := hs input (hp input (mem_predecessors_digraph.mpr ⟨node, hnode, hi⟩)) hneeded
  rw [Values.read, hv, hm]

/-- Storing a further value leaves the others as they are. -/
theorem Stores.cons {needed run : List ValueId} {values : Values} {id : ValueId} {v : Tensor}
    (h : g.Stores feeds needed run values) (hid : id ∉ run) (hv : g.meaning feeds id = .ok v) :
    g.Stores feeds needed (id :: run) ((id, v) :: values) := fun w hw hwn => by
  rcases List.mem_cons.mp hw with rfl | hw
  · exact ⟨v, by simp, hv⟩
  · obtain ⟨u, hu, hm⟩ := h w hw hwn
    refine ⟨u, ?_, hm⟩
    rw [List.lookup_cons, beq_eq_false_iff_ne.mpr fun e : w = id => hid (e ▸ hw)]
    exact hu

/-- A vertex that is not needed stores nothing. -/
theorem Stores.skip {needed run : List ValueId} {values : Values} {id : ValueId}
    (h : g.Stores feeds needed run values) (hid : id ∉ needed) :
    g.Stores feeds needed (id :: run) values := fun w hw hwn => by
  rcases List.mem_cons.mp hw with rfl | hw
  · exact absurd hwn hid
  · exact h w hw hwn

theorem evaluateStep_of_notMem {needed : List ValueId} {values : Values} {id : ValueId}
    (h : id ∉ needed) : g.evaluateStep feeds needed values id = .ok values := by
  rw [evaluateStep, if_neg (by rwa [List.contains_iff_mem])]
  rfl

/-- A vertex that is needed stores its meaning, if it has one. -/
theorem evaluateStep_of_mem (hg : g.WellFormed) {outputs needed run : List ValueId}
    {values : Values} (hn : ∀ id, id ∈ needed ↔ g.Needed outputs id)
    (hs : g.Stores feeds needed run values) {id : Nat} (hlt : id < g.nodes.size)
    (hid : id ∈ needed) (hp : ∀ input ∈ g.digraph.predecessors id, input ∈ run) :
    g.evaluateStep feeds needed values id =
      (g.meaning feeds id >>= fun v => .ok ((id, v) :: values)) := by
  have hnode : g.nodes[id]? = some g.nodes[id] := Array.getElem?_eq_getElem hlt
  rw [evaluateStep, if_pos (List.contains_iff_mem.mpr hid), producer_eq_ok.mpr hnode, ok_bind,
    evaluateNode_eq_meaning hg hn hs hnode hid hp]
  rfl

/-- The run through a part of the order, by induction on the part. -/
theorem run_spec (hg : g.WellFormed) (feeds : Feeds) {outputs needed : List ValueId}
    (hn : ∀ id, id ∈ needed ↔ g.Needed outputs id) {run : List Nat} (hr : g.digraph.Emitted run) :
    (∀ values, run.reverse.foldlM (g.evaluateStep feeds needed) [] = .ok values →
      g.Stores feeds needed run values) ∧
    (∀ e, run.reverse.foldlM (g.evaluateStep feeds needed) [] = .error e →
      ∃ id ∈ run, id ∈ needed ∧ g.meaning feeds id = .error e) := by
  induction run with
  | nil => exact ⟨fun _ _ _ h => absurd h List.not_mem_nil, fun e h => by cases h⟩
  | cons id run ih =>
    obtain ⟨hlt, hid, hp, hr⟩ := hr
    obtain ⟨hok, herr⟩ := ih hr
    simp only [List.reverse_cons, foldlM_concat_eq_ok, foldlM_concat_eq_error]
    constructor
    · rintro values ⟨before, hb, h⟩
      have hs := hok before hb
      by_cases hneed : id ∈ needed
      · rw [evaluateStep_of_mem hg hn hs hlt hneed hp] at h
        obtain ⟨v, hv, h⟩ := bind_eq_ok.mp h
        obtain rfl := Except.ok.inj h
        exact hs.cons hid hv
      · rw [evaluateStep_of_notMem hneed] at h
        obtain rfl := Except.ok.inj h
        exact hs.skip hneed
    · rintro e (h | ⟨before, hb, h⟩)
      · obtain ⟨w, hw, hwn⟩ := herr e h
        exact ⟨w, List.mem_cons_of_mem _ hw, hwn⟩
      · by_cases hneed : id ∈ needed
        · rw [evaluateStep_of_mem hg hn (hok before hb) hlt hneed hp] at h
          refine ⟨id, List.mem_cons_self, hneed, ?_⟩
          simpa using h
        · rw [evaluateStep_of_notMem hneed] at h
          cases h

/-! ## Whole evaluations -/

/-- An evaluation of values that exist, taken apart. -/
theorem evaluate_eq (hg : g.WellFormed) {outputs : List ValueId}
    (hout : ∀ id ∈ outputs, id < g.nodes.size) :
    ∃ needed run, (∀ id, id ∈ needed ↔ g.Needed outputs id) ∧ g.digraph.Emitted run ∧
      (∀ id, id ∈ run ↔ id < g.nodes.size) ∧ ∀ feeds, g.evaluate feeds outputs =
        (run.reverse.foldlM (g.evaluateStep feeds needed) [] >>= fun values =>
          outputs.mapM values.output) := by
  obtain ⟨needed, hd, hn⟩ := mem_dependencies hg hout
  obtain ⟨run, ho, hr, hmem⟩ := Digraph.exists_emitted hg.forward
  refine ⟨needed, run, hn, hr, hmem, fun feeds => ?_⟩
  rw [evaluate, hd, topologicalOrder, ho]
  rfl

/-- Only values that exist can be evaluated. -/
theorem lt_size_of_evaluate_eq_ok {outputs : List ValueId} {vs : List Tensor}
    (h : g.evaluate feeds outputs = .ok vs) : ∀ id ∈ outputs, id < g.nodes.size := by
  obtain ⟨needed, hd, -⟩ := bind_eq_ok.mp h
  unfold dependencies at hd
  split at hd
  · cases hd
  · rename_i hfind
    intro id hid
    simpa using List.find?_eq_none.mp hfind id (List.mem_reverse.mpr hid)

/-- Evaluation gives the meanings of the outputs, if they have all of them. -/
theorem evaluate_eq_ok (hg : g.WellFormed) {outputs : List ValueId}
    (hout : ∀ id ∈ outputs, id < g.nodes.size) {vs : List Tensor} :
    g.evaluate feeds outputs = .ok vs ↔
      List.Forall₂ (fun id v => g.meaning feeds id = .ok v) outputs vs := by
  obtain ⟨needed, run, hn, hr, hmem, heq⟩ := evaluate_eq hg hout
  have hspec := run_spec hg feeds hn hr
  have hlook : ∀ values, g.Stores feeds needed run values → ∀ id ∈ outputs, ∃ v,
      values.lookup id = some v ∧ g.meaning feeds id = .ok v := fun values hs id hid =>
    hs id ((hmem id).mpr (hout id hid)) ((hn id).mpr (.output hid))
  have hmap : ∀ values, g.Stores feeds needed run values →
      outputs.mapM values.output = outputs.mapM (g.meaning feeds) :=
    fun values hs => mapM_congr fun id hid => by
      obtain ⟨v, hv, hm⟩ := hlook values hs id hid
      rw [Values.output, hv, hm]
  rw [heq feeds, ← mapM_eq_ok]
  cases hf : run.reverse.foldlM (g.evaluateStep feeds needed) [] with
  | ok values => rw [ok_bind, hmap values (hspec.1 values hf)]
  | error e =>
    refine ⟨(by cases ·), fun h => ?_⟩
    obtain ⟨id, -, hid, he⟩ := hspec.2 e hf
    have hout : ∀ id ∈ outputs, ∃ v, g.meaning feeds id = .ok v := fun id hid => by
      obtain ⟨v, -, hv⟩ := exists_of_forall₂_left (mapM_eq_ok.mp h) hid
      exact ⟨v, hv⟩
    obtain ⟨v, hv⟩ := ((hn id).mp hid).meaning_ok hg hout
    rw [hv] at he
    cases he

/-- An evaluation that fails does so with the error of a value that it needs. -/
theorem exists_of_evaluate_eq_error (hg : g.WellFormed) {outputs : List ValueId}
    (hout : ∀ id ∈ outputs, id < g.nodes.size) {e : Error}
    (h : g.evaluate feeds outputs = .error e) :
    ∃ id, g.Needed outputs id ∧ g.meaning feeds id = .error e := by
  obtain ⟨needed, run, hn, hr, hmem, heq⟩ := evaluate_eq hg hout
  have hspec := run_spec hg feeds hn hr
  rw [heq feeds] at h
  rcases bind_eq_error.mp h with h | ⟨values, hv, h⟩
  · obtain ⟨id, -, hid, he⟩ := hspec.2 e h
    exact ⟨id, (hn id).mp hid, he⟩
  · obtain ⟨id, hid, he⟩ := exists_of_mapM_eq_error h
    obtain ⟨v, hlook, -⟩ := hspec.1 values hv id ((hmem id).mpr (hout id hid))
      ((hn id).mpr (.output hid))
    rw [Values.output, hlook] at he
    cases he

/-- Two feeds agree on the parameters that the outputs need. -/
def FeedsAgree (g : Graph) (outputs : List ValueId) (feeds feeds' : Feeds) : Prop :=
  ∀ id node name elementType shape, g.Needed outputs id → g.nodes[id]? = some node →
    node.contents = none → node.op = .parameter name elementType shape →
    feeds.lookup name = feeds'.lookup name

/-- Evaluation reads no feeds but those that it needs. -/
theorem evaluate_congr (hg : g.WellFormed) {outputs : List ValueId}
    (hout : ∀ id ∈ outputs, id < g.nodes.size) {feeds feeds' : Feeds}
    (h : g.FeedsAgree outputs feeds feeds') :
    g.evaluate feeds outputs = g.evaluate feeds' outputs := by
  obtain ⟨needed, run, hn, -, -, heq⟩ := evaluate_eq hg hout
  have hstep : g.evaluateStep feeds needed = g.evaluateStep feeds' needed := by
    funext values id
    unfold evaluateStep
    split
    · rename_i hid
      have hid := (hn id).mp (List.contains_iff_mem.mp hid)
      cases hp : g.producer id with
      | error e => rfl
      | ok node =>
        have hv : evaluateNode feeds values node = evaluateNode feeds' values node := by
          unfold evaluateNode
          split
          · rfl
          · rename_i hc hop
            rw [h id node _ _ _ hid (producer_eq_ok.mp hp) hc hop]
          · rfl
        rw [ok_bind, ok_bind, hv]
    · rfl
  rw [heq feeds, heq feeds', hstep]

end Graph

end TensorLowering.Dataflow
