import TensorLowering.Lowering.Rule.Scatter
import TensorLowering.Proofs.Lowering.Projection
import TensorLowering.Proofs.Tensor.Pairs
import TensorLowering.Proofs.Tensor.Scatter

/-!
# Scattering into zeros

Rows of indices that address slices of the target put updates there. Of several rows with the same
address the last one counts, and their updates are not added (`scatterNd_keepsLastUpdate`). Complex
updates are scattered in packed form: that is scattering each plane as long as a row has no more
indices than the target has axes; with one more it addresses single parts of complex numbers, for
which the planes have no rows (`complexScatterNd_byDepth`).
-/

namespace TensorLowering.Lowering

open Dataflow (ValueId Graph Feeds)
open Dataflow.Graph (Scenario Denotes)
open Shape (Within walk)

variable {b : Builder} {A F : Prop} {σ : Scenario} {e : ElementType} {x : Option Tensor}
  {rows target target' : Tensor} {n : Nat}

/-! ## What is scattered -/

/-- The updates, scattered by the rows into zeros of the shape that the target lists. -/
def scatterNd? (rows target : Tensor) (x : Option Tensor) : Option Tensor :=
  Op.scatterNdUpdate.result?
    [Op.broadcast.result? [x.map fun t => .zero t.elementType, some target], some rows, x]

theorem scatterNd?_none : scatterNd? rows target none = none :=
  Op.result?_of_none_mem (.tail _ (.tail _ (.head _)))

theorem scatterNd?_eq {f : Tensor} (hf : ∀ t, x = some t → f = .zero t.elementType) :
    Op.scatterNdUpdate.result? [Op.broadcast.result? [some f, some target], some rows, x] =
      scatterNd? rows target x := by
  cases x with
  | none => rw [scatterNd?_none, Op.result?_of_none_mem (.tail _ (.tail _ (.head _)))]
  | some t =>
    obtain rfl := hf t rfl
    rfl

/-- Of the target only the sizes matter that it lists. -/
theorem scatterNd?_congr (h : target.ints = target'.ints) :
    scatterNd? rows target x = scatterNd? rows target' x := by
  have hbroadcast (t : Tensor) : t.broadcast target = t.broadcast target' := by
    simp only [Tensor.broadcast, h]
  cases x with
  | none => rw [scatterNd?_none, scatterNd?_none]
  | some t => simp only [scatterNd?, Option.map_some, Op.result?_two, Op.compute, Op.binary, hbroadcast]

theorem scatterNd?_tabulate {given : List Nat} {u : List Nat → e.Carrier} {v : Tensor} :
    scatterNd? rows target (some (.tabulate e given u)) = some v ↔ ∃ sizes batch depth a,
      target.ints = .ok (sizes.map Int.ofNat) ∧ rows.Addresses sizes batch depth a ∧
        given = batch ++ sizes.drop depth ∧
        v = .tabulate e sizes (lastUpdate depth a (walk batch) u fun _ => e.zero) := by
  have hbroadcast : Op.broadcast.result? [some (.zero e), some target] =
      (Tensor.broadcast (.scalar e e.zero) target).toOption := Op.result?_two
  have hscatter {zeros : Tensor} : Op.scatterNdUpdate.result?
      [some zeros, some rows, some (.tabulate e given u)] =
        (Tensor.scatter zeros rows (.tabulate e given u)).toOption :=
    Op.result?_map_some [zeros, rows, .tabulate e given u]
  have hresult : scatterNd? rows target (some (.tabulate e given u)) = some v ↔ ∃ zeros,
      Tensor.broadcast (.scalar e e.zero) target = .ok zeros ∧
        Tensor.scatter zeros rows (.tabulate e given u) = .ok v := by
    rw [scatterNd?, Option.map_some, Tensor.elementType_tabulate, hbroadcast]
    cases Tensor.broadcast (.scalar e e.zero) target with
    | error =>
      have hnone : Op.scatterNdUpdate.result? [none, some rows, some (.tabulate e given u)] = none :=
        Op.result?_of_none_mem (.head _)
      simp [Except.toOption, hnone]
    | ok zeros => simp [Except.toOption, hscatter, ← toOption_eq_some]
  rw [hresult]
  constructor
  · rintro ⟨_, hzeros, h⟩
    obtain ⟨sizes, hsizes, rfl⟩ := Tensor.broadcast_scalar_eq_ok.mp hzeros
    obtain ⟨batch, depth, a, haddresses, rfl, rfl⟩ := Tensor.scatter_tabulate_eq_ok.mp h
    exact ⟨sizes, batch, depth, a, hsizes, haddresses, rfl, rfl⟩
  · rintro ⟨sizes, batch, depth, a, hsizes, haddresses, rfl, rfl⟩
    exact ⟨_, Tensor.broadcast_scalar_eq_ok.mpr ⟨sizes, hsizes, rfl⟩,
      Tensor.scatter_tabulate haddresses⟩

/-- A row has at most one index for each size that the target lists. -/
theorem depth_le_of_scatterNd? {values : List Int} {v : Tensor} (ht : target.ints = .ok values)
    (hv : scatterNd? rows target x = some v) : rows.shape.getLastD 0 ≤ values.length := by
  cases x with
  | none =>
    rw [scatterNd?_none] at hv
    cases hv
  | some t =>
    obtain ⟨u, hu⟩ := Tensor.exists_tabulate (t := t) rfl
    rw [hu] at hv
    obtain ⟨sizes, batch, depth, a, hsizes, haddresses, -, -⟩ := scatterNd?_tabulate.mp hv
    obtain rfl := Except.ok.inj (ht.symm.trans hsizes)
    simpa [haddresses.shape_eq] using haddresses.depth_le

theorem elementType_scatterNd? (hx : ∀ t, x = some t → t.elementType = e) {v : Tensor}
    (hv : scatterNd? rows target x = some v) : v.elementType = e := by
  cases x with
  | none =>
    rw [scatterNd?_none] at hv
    cases hv
  | some t =>
    obtain ⟨f, ht⟩ := Tensor.exists_tabulate (t := t) rfl
    rw [ht] at hv
    obtain ⟨sizes, batch, depth, a, -, -, -, rfl⟩ := scatterNd?_tabulate.mp hv
    exact hx t rfl

/-! ## Packed updates -/

section Packed

variable {values : List Int} (ht' : target'.ints = .ok (values ++ [2]))
include ht'

theorem scatterNd?_packed {given : List Nat} {u : List Nat → e.Carrier} {v : Tensor} :
    scatterNd? rows target' (some (.tabulate e given u)) = some v ↔ ∃ sizes batch depth a,
      values = sizes.map Int.ofNat ∧ rows.Addresses (sizes ++ [2]) batch depth a ∧
        given = batch ++ (sizes ++ [2]).drop depth ∧
        v = .tabulate e (sizes ++ [2]) (lastUpdate depth a (walk batch) u fun _ => e.zero) := by
  rw [scatterNd?_tabulate]
  constructor
  · rintro ⟨sizes', batch, depth, a, hsizes, haddresses, hgiven, rfl⟩
    obtain ⟨sizes, last, rfl, rfl, hlast⟩ :=
      List.append_eq_map_iff.mp (Except.ok.inj (ht'.symm.trans hsizes))
    obtain ⟨two, rfl, htwo⟩ := List.map_eq_singleton_iff.mp hlast
    obtain rfl := Int.ofNat.inj htwo
    exact ⟨sizes, batch, depth, a, rfl, haddresses, hgiven, rfl⟩
  · rintro ⟨sizes, batch, depth, a, rfl, haddresses, hgiven, rfl⟩
    exact ⟨sizes ++ [2], batch, depth, a, by rw [ht']; simp, haddresses, hgiven, rfl⟩

theorem arePairs_scatterNd? : ArePairs (scatterNd? rows target' x) := by
  intro v hv
  cases x with
  | none =>
    rw [scatterNd?_none] at hv
    cases hv
  | some t =>
    obtain ⟨u, ht⟩ := Tensor.exists_tabulate (t := t) rfl
    rw [ht] at hv
    obtain ⟨sizes, batch, depth, a, -, -, -, rfl⟩ := (scatterNd?_packed ht').mp hv
    exact List.getLast?_concat

/-- Rows with no more indices than the target has axes scatter the planes of pairs. -/
theorem plane?_scatterNd? (hpairs : ArePairs x) (ht : target.ints = .ok values)
    (hdepth : rows.shape.getLastD 0 ≤ values.length) {k : Nat} (hk : k < 2) :
    plane? k (scatterNd? rows target' x) = scatterNd? rows target (plane? k x) := by
  cases x with
  | none => rw [plane?, plane?, scatterNd?_none, Option.map_none, scatterNd?_none]
  | some p =>
    obtain ⟨e, given, u, rfl⟩ := hpairs.exists_tabulate
    have hdepth {sizes batch : List Nat} {depth : Nat} (hvalues : values = sizes.map Int.ofNat)
        (hrows : rows.shape = batch ++ [depth]) : depth ≤ sizes.length := by
      simpa [hrows, hvalues] using hdepth
    have hplane {sizes batch : List Nat} {depth : Nat} {a : List Nat → List Nat}
        (hle : depth ≤ sizes.length) :
        Tensor.plane k (.tabulate e (sizes ++ [2])
            (lastUpdate depth a (walk batch) u fun _ => e.zero)) =
          .tabulate e sizes (lastUpdate depth a (walk batch) (fun d => u (d ++ [k]))
            fun _ => e.zero) := by
      rw [Tensor.plane_tabulate hk]
      exact Tensor.tabulate_congr fun c hc => lastUpdate_concat (hc.length_eq ▸ hle)
    rw [plane?, plane?, Option.map_some, Tensor.plane_tabulate hk]
    refine Option.ext fun v => ?_
    rw [Option.map_eq_some_iff, scatterNd?_tabulate]
    constructor
    · rintro ⟨w, hw, rfl⟩
      obtain ⟨sizes, batch, depth, a, hvalues, haddresses, hgiven, rfl⟩ :=
        (scatterNd?_packed ht').mp hw
      have hle := hdepth hvalues haddresses.shape_eq
      rw [List.drop_append_of_le_length hle, ← List.append_assoc] at hgiven
      exact ⟨sizes, batch, depth, a, hvalues ▸ ht, (Tensor.addresses_append hle).mp haddresses,
        List.append_cancel_right hgiven, hplane hle⟩
    · rintro ⟨sizes, batch, depth, a, hsizes, haddresses, rfl, rfl⟩
      obtain rfl := Except.ok.inj (ht.symm.trans hsizes)
      have hle := haddresses.depth_le
      refine ⟨_, (scatterNd?_packed ht').mpr ⟨sizes, batch, depth, a, rfl,
        (Tensor.addresses_append hle).mpr haddresses, ?_, rfl⟩, hplane hle⟩
      rw [List.drop_append_of_le_length hle, List.append_assoc]

/-- Rows with more indices address single parts of complex numbers. -/
theorem plane?_scatterNd?_of_lt (he : ∀ p, x = some p → p.elementType = e)
    (hdepth : values.length < rows.shape.getLastD 0) {k : Nat} (hk : k < 2) {t : Tensor} :
    plane? k (scatterNd? rows target' x) = some t ↔ ∃ sizes batch a u,
      values = sizes.map Int.ofNat ∧ rows.Addresses (sizes ++ [2]) batch (values.length + 1) a ∧
        x = some (.tabulate e batch u) ∧ t = .tabulate e sizes fun c =>
          lastUpdate (values.length + 1) a (walk batch) u (fun _ => e.zero) (c ++ [k]) := by
  rw [plane?, Option.map_eq_some_iff]
  constructor
  · rintro ⟨v, hv, rfl⟩
    cases x with
    | none =>
      rw [scatterNd?_none] at hv
      cases hv
    | some p =>
      obtain ⟨u, hp⟩ := Tensor.exists_tabulate (congrArg₂ TensorType.mk (he p rfl) rfl)
      rw [hp] at hv ⊢
      obtain ⟨sizes, batch, depth, a, rfl, haddresses, hgiven, rfl⟩ := (scatterNd?_packed ht').mp hv
      have hle := haddresses.depth_le
      simp only [haddresses.shape_eq, List.length_append, List.length_map, List.getLastD_concat,
        List.length_singleton] at hdepth hle ⊢
      obtain rfl : depth = sizes.length + 1 := by omega
      rw [List.drop_of_length_le (by simp), List.append_nil] at hgiven
      exact ⟨sizes, batch, a, u, rfl, haddresses, by rw [hgiven], Tensor.plane_tabulate hk⟩
  · rintro ⟨sizes, batch, a, u, rfl, haddresses, rfl, rfl⟩
    refine ⟨_, (scatterNd?_packed ht').mpr ⟨sizes, batch, _, a, rfl, haddresses, ?_, rfl⟩,
      Tensor.plane_tabulate hk⟩
    rw [List.drop_of_length_le (by simp), List.append_nil]

end Packed

/-! ## The rule -/

section

variable {node : Source.Node} {indices shape fill : ValueId}

/-- A scalar can be spread over a shape that a vector lists, if it lists one. -/
theorem Runs.broadcast {f t : Tensor} (hf : Denotes σ b.graph fill (some f))
    (ht : Denotes σ b.graph shape (some t)) (hrank : t.shape.length = 1)
    (hF : Op.broadcast.result? [some f, some t] = none → F) :
    Runs A b (Build.emit .broadcast [fill, shape]) F fun g id =>
      Denotes σ g id (Op.broadcast.result? [some f, some t]) := by
  have hok : Op.broadcast.Accepts [some f, some t] ∨ F := by
    cases hv : Op.broadcast.result? [some f, some t] with
    | none => exact .inr (hF hv)
    | some v =>
      have hcompute : f.broadcast t = .ok v := toOption_eq_some.mp (Op.result?_two.symm.trans hv)
      obtain ⟨type, htype⟩ := Op.exists_inferBroadcast .broadcast hcompute hrank
      exact .inl ⟨[f, t], v, type, rfl, hcompute, htype⟩
  exact .imp (.emit nofun trivial nofun (.cons hf (.cons ht .nil)) hok) id fun _ _ _ h => h.2

/-- The shape of the stored elements of the result: complex updates add the axis of the parts. -/
theorem Runs.storedShape {updates : Lowered} {t : Tensor} (ht : Denotes σ b.graph shape (some t))
    (helement : t.elementType = .i64) (hrank : t.shape.length = 1) :
    Runs A b (Rule.storedShape updates shape) F fun g id => ∃ t', Denotes σ g id (some t') ∧
      t'.shape.length = 1 ∧ ∀ values, t.ints = .ok values →
        t'.ints = .ok (values ++ if updates.isComplex then [2] else []) := by
  unfold Rule.storedShape
  cases updates with
  | plain v =>
    exact .pure ⟨t, ht, hrank, fun values h => h.trans (congrArg _ (List.append_nil values).symm)⟩
  | complex z =>
    obtain ⟨t', ht', -, hrank', hints⟩ := exists_concat_ofInts helement hrank [2]
    refine .bind (.ints [2]) fun pair c₁ h₁ hpair => ?_
    have ht := ht.along h₁
    refine .imp (.apply_eq trivial (.cons ht (.cons (hpair σ) .nil)) ht' nofun) id ?_
    exact fun g id _ hid => ⟨t', hid, hrank', hints⟩

theorem find?_scatterNd {node : Source.Node} (h : node.opType ∈ ["ScatterNd", "SCATTER_ND"]) :
    Registry.standard.find? node.opType = some .scatterNd := by
  rcases List.mem_pair.mp h with h | h <;> exact h ▸ rfl

variable (hr : Denotes σ b.graph indices (some rows)) (ht : Denotes σ b.graph shape (some target))
  (hrank : target.shape = [n]) (hop : node.opType ∈ ["ScatterNd", "SCATTER_ND"])
include hr ht hrank hop

/-- Up to what is done with the scattered elements, plain and complex updates are treated alike. -/
theorem Runs.scatterNd {updates : Lowered} {stored : Tensor} {Q : Graph → List Lowered → Prop}
    (hx : Denotes σ b.graph updates.elements x)
    (hstored : ∀ values, (target.convert .i64).ints = .ok values →
      stored.ints = .ok (values ++ if updates.isComplex then [2] else []))
    (hF : scatterNd? rows stored x = none → F)
    (hnext : ∀ c scattered, c.graph.Unmarked scattered →
      Denotes σ c.graph scattered (scatterNd? rows stored x) →
      Runs A c (match updates with
        | .plain _ => return [.plain scattered]
        | .complex value => return [← Lowering.markComplex scattered value.partType]) F Q) :
    Runs A b (Rule.scatterNd.lower ⟨node, [.plain indices, updates, .plain shape]⟩) F Q := by
  have hconvert : (Op.convert .i64).result? [some target] = some (target.convert .i64) :=
    Op.result?_one
  unfold Rule.scatterNd
  refine .liftM_bind (check_ok hop (Nat.le_refl _)) ?_
  refine .liftM_bind rfl (.liftM_bind rfl (.liftM_bind rfl ?_))
  refine .bind (.zeroLike hx) fun fill c₁ h₁ hfill => ?_
  obtain ⟨f, hfill, -, hf⟩ := hfill
  refine .bind (.apply_eq trivial (.cons (ht.along h₁) .nil) hconvert nofun) ?_
  intro sizes c₂ h₂ hsizes
  refine .bind (.storedShape hsizes rfl (congrArg List.length hrank)) ?_
  rintro sizes c₃ h₃ ⟨t, ht, htrank, htints⟩
  obtain ⟨values, hvalues⟩ := exists_ints (t := target.convert .i64) rfl
  have heq : Op.scatterNdUpdate.result? [Op.broadcast.result? [some f, some t], some rows, x] =
      scatterNd? rows stored x := by
    rw [scatterNd?_eq hf, scatterNd?_congr ((htints values hvalues).trans (hstored values hvalues).symm)]
  rw [← heq] at hF
  have hzerosF : Op.broadcast.result? [some f, some t] = none → F := fun h => hF (by
    rw [h]
    exact Op.result?_of_none_mem (.head _))
  refine .bind (.broadcast (hfill.along (h₂.trans h₃)) ht htrank hzerosF) fun zeros c₄ h₄ hzeros => ?_
  have h₁₄ := ((h₁.trans h₂).trans h₃).trans h₄
  refine .bind (.apply trivial (.cons hzeros (.cons (hr.along h₁₄)
    (.cons (hx.along h₁₄) .nil))) hF) fun scattered c₅ h₅ hscattered => ?_
  exact hnext c₅ scattered ⟨_, _, hscattered.1, rfl⟩ (heq ▸ hscattered.2)

theorem Runs.translate_scatterNd {v : ValueId} (hx : Denotes σ b.graph v x)
    (hF : scatterNd? rows (target.convert .i64) x = none → F) :
    Runs A b (Lowering.translate node [.plain indices, .plain v, .plain shape]) F fun g outputs =>
      ∃ v, outputs = [.plain v] ∧ Denotes σ g v (scatterNd? rows (target.convert .i64) x) := by
  have hx : Denotes σ b.graph (Lowered.plain v).elements x := hx
  have hlists (values : List Int) (h : (target.convert .i64).ints = .ok values) :
      (target.convert .i64).ints = .ok (values ++ []) := by rw [List.append_nil, h]
  refine .translate (find?_scatterNd hop) ?_
  refine Runs.scatterNd (b := ⟨b.graph, node.name, node.opType, 0⟩) hr ht hrank hop hx hlists hF ?_
  exact fun c scattered _ hscattered => .pure ⟨scattered, rfl, hscattered⟩

theorem Runs.translate_complexScatterNd {z : ComplexValue} {stored : Tensor} {values : List Int}
    (hz : z.IsOperand σ b.graph e x) (hfloat : e.isFloat = true)
    (hvalues : (target.convert .i64).ints = .ok values) (hstored : stored.ints = .ok (values ++ [2]))
    (hF : scatterNd? rows stored x = none → F) :
    Runs A b (Lowering.translate node [.plain indices, .complex z, .plain shape]) F fun g outputs =>
      ∃ r, outputs = [.complex r] ∧ r.Denotes σ g (scatterNd? rows stored x) := by
  have hlists (values' : List Int) (h : (target.convert .i64).ints = .ok values') :
      stored.ints = .ok (values' ++ [2]) := by
    obtain rfl := Except.ok.inj (hvalues.symm.trans h)
    exact hstored
  have hx : Denotes σ b.graph (Lowered.complex z).elements x := hz.packed
  refine .translate (find?_scatterNd hop) ?_
  refine Runs.scatterNd (b := ⟨b.graph, node.name, node.opType, 0⟩) hr ht hrank hop hx hlists hF ?_
  intro c scattered hunmarked hscattered
  refine .bind (.markComplex hscattered hunmarked (arePairs_scatterNd? hstored)
    (hz.partType ▸ hfloat) (fun v hv => ?_) hF) ?_
  · exact (elementType_scatterNd? hz.elementType hv).trans hz.partType.symm
  · rintro lowered c' - ⟨r, rfl, -, hr⟩
    exact .pure ⟨r, rfl, hr⟩

end

theorem zero_add_of_isInteger {arithmetic : Arithmetic e.Carrier} (he : e.isInteger = true)
    (h : e.arithmetic? = some arithmetic) (x : e.Carrier) : arithmetic.add e.zero x = x := by
  cases e with
  | i32 =>
    obtain rfl := Option.some.inj h
    exact Int32.zero_add x
  | i64 =>
    obtain rfl := Option.some.inj h
    exact Int64.zero_add x
  | f32 => cases he
  | f64 => cases he
  | bool => cases he

section

variable {node projection : Source.Node} {part : Part} {feeds : Feeds} {indices shape : ValueId}

/-- The rows and the target of a scatter come to tensors, and the target is a vector. -/
structure ScatterInto (g : Graph) (feeds : Feeds) (indices shape : ValueId) (rows target : Tensor)
    (n : Nat) : Prop where
  evaluate_rows : g.evaluate feeds [indices] = .ok [rows]
  evaluate_target : g.evaluate feeds [shape] = .ok [target]
  shape_target : target.shape = [n]

/-- What a scatter of updates evaluates to, from what the updates evaluate to. -/
theorem evaluates_scatterNd_iff {updates : ValueId} (hw : b.graph.WellFormed)
    (hop : node.opType ∈ ["ScatterNd", "SCATTER_ND"]) (hupdates : updates < b.graph.nodes.size)
    (h : ScatterInto b.graph feeds indices shape rows target n) (t : Tensor) :
    Evaluates feeds (translate node [.plain indices, .plain updates, .plain shape]) b t ↔
      ∃ e sizes batch depth a u, (target.convert .i64).ints = .ok (sizes.map Int.ofNat) ∧
        rows.Addresses sizes batch depth a ∧
        b.graph.evaluate feeds [updates] = .ok [.tabulate e (batch ++ sizes.drop depth) u] ∧
        t = .tabulate e sizes (lastUpdate depth a (walk batch) u fun _ => e.zero) := by
  have hrun := Runs.translate_scatterNd (A := False) (denotes_of_evaluate hw h.evaluate_rows)
    (denotes_of_evaluate hw h.evaluate_target) h.shape_target hop
    (Graph.denotes_meaning (σ := ⟨feeds, True⟩) hw hupdates) id
  rw [hrun.evaluates_iff hw]
  simp only [← outcome?_eq_some hw hupdates]
  show scatterNd? rows _ (outcome? b.graph feeds updates) = some t ↔ _
  constructor
  · intro hresult
    cases hx : outcome? b.graph feeds updates with
    | none =>
      rw [hx, scatterNd?_none] at hresult
      cases hresult
    | some p =>
      obtain ⟨u, hu⟩ := Tensor.exists_tabulate (t := p) rfl
      rw [hx, hu] at hresult
      obtain ⟨sizes, batch, depth, a, hsizes, haddresses, hgiven, rfl⟩ :=
        scatterNd?_tabulate.mp hresult
      rw [hgiven] at hu
      exact ⟨_, sizes, batch, depth, a, u, hsizes, haddresses, congrArg some hu, rfl⟩
  · rintro ⟨e, sizes, batch, depth, a, u, hsizes, haddresses, hx, rfl⟩
    rw [hx]
    exact scatterNd?_tabulate.mpr ⟨sizes, batch, depth, a, hsizes, haddresses, rfl, rfl⟩

/-- Scattering into zeros takes, at each place, the update of the last row that addresses its slice.
Where no two rows address one slice, that is the sum of the updates of the slice. -/
theorem scatterNd_keepsLastUpdate {updates : ValueId} (hg : Graph.Reachable b.graph)
    (hop : node.opType ∈ ["ScatterNd", "SCATTER_ND"]) (hupdates : updates < b.graph.nodes.size)
    (h : ScatterInto b.graph feeds indices shape rows target n) :
    (∀ t, Evaluates feeds (translate node [.plain indices, .plain updates, .plain shape]) b t ↔
      ∃ e sizes batch depth a u, (target.convert .i64).ints = .ok (sizes.map Int.ofNat) ∧
        rows.Addresses sizes batch depth a ∧
        b.graph.evaluate feeds [updates] = .ok [.tabulate e (batch ++ sizes.drop depth) u] ∧
        t = .tabulate e sizes (lastUpdate depth a (walk batch) u fun _ => e.zero)) ∧
    ∀ e sizes batch depth a u arithmetic, e.isInteger = true → e.arithmetic? = some arithmetic →
      (target.convert .i64).ints = .ok (sizes.map Int.ofNat) → rows.Addresses sizes batch depth a →
      b.graph.evaluate feeds [updates] = .ok [.tabulate e (batch ++ sizes.drop depth) u] →
      (∀ c, Within c sizes → (rowsAt a (walk batch) (c.take depth)).length ≤ 1) →
      Evaluates feeds (translate node [.plain indices, .plain updates, .plain shape]) b
        (.tabulate e sizes (sumOfUpdates arithmetic.add depth a (walk batch) u fun _ => e.zero)) := by
  have hevaluates := evaluates_scatterNd_iff hg.wellFormed hop hupdates h
  refine ⟨hevaluates, ?_⟩
  intro e sizes batch depth a u arithmetic hinteger harithmetic hsizes haddresses hu honce
  refine (hevaluates _).mpr ⟨e, sizes, batch, depth, a, u, hsizes, haddresses, hu, ?_⟩
  refine Tensor.tabulate_congr fun c hc => (lastUpdate_eq_sumOfUpdates ?_ (honce c hc)).symm
  exact zero_add_of_isInteger hinteger harithmetic

/-- Two integers as updates, two rows that address the same place, two that do not, and a vector of
length 3. -/
def sameRows : Builder where
  graph := Graph.build {} [
    .parameter "u" .i64 (.ranked [some 2]),
    .constant "rows" ⟨.i64, [2, 1], #[1, 1], rfl⟩,
    .constant "shape" (.ofInts [3]),
    .constant "apart" ⟨.i64, [2, 1], #[0, 2], rfl⟩]
  node := "scattered"
  opType := "ScatterNd"

/-- The updates are `5` and `7`. -/
def fiveAndSeven : Feeds :=
  [("u", ⟨.i64, [2], #[5, 7], rfl⟩)]

/-- Scattering gives `0, 7, 0`, and the sums of the updates are `0, 12, 0`. -/
theorem sameRows_notAdded :
    Evaluates fiveAndSeven (translate ⟨"scattered", "ScatterNd", [], []⟩
      [.plain 1, .plain 0, .plain 2]) sameRows ⟨.i64, [3], #[0, 7, 0], rfl⟩ ∧
    Tensor.tabulate .i64 [2] (fun c => if c = [0] then 5 else 7) = ⟨.i64, [2], #[5, 7], rfl⟩ ∧
    Tensor.tabulate .i64 [3] (sumOfUpdates (· + ·) 1 (fun _ => [1]) (walk [2])
      (fun c => if c = [0] then 5 else 7) fun _ => 0) = ⟨.i64, [3], #[0, 12, 0], rfl⟩ := by
  decide +kernel

theorem sameRows_addresses :
    Tensor.Addresses ⟨.i64, [2, 1], #[1, 1], rfl⟩ [3] [2] 1 fun _ => [1] where
  shape_eq := rfl
  depth_le := by decide
  address := ⟨fun _ => 1, by decide +kernel, fun _ _ => rfl⟩

theorem apart_addresses : Tensor.Addresses ⟨.i64, [2, 1], #[0, 2], rfl⟩ [3] [2] 1
    fun r => if r = [0] then [0] else [2] where
  shape_eq := rfl
  depth_le := by decide
  address := by
    refine ⟨fun c => if c = [0, 0] then 0 else 2, by decide +kernel, fun r hr => ?_⟩
    have hall : ∀ r ∈ walk [2], Kernel.rowAddress (Kernel.rowAt
        (fun c => if c = [0, 0] then 0 else 2) 1 r) [3] = .ok (if r = [0] then [0] else [2]) := by
      decide +kernel
    exact hall r (Shape.mem_walk.mpr hr)

theorem sameRows_keepsLastUpdate : Graph.Reachable sameRows.graph ∧
    ScatterInto sameRows.graph fiveAndSeven 1 2 ⟨.i64, [2, 1], #[1, 1], rfl⟩ (.ofInts [3]) 1 ∧
    Evaluates fiveAndSeven (translate ⟨"scattered", "ScatterNd", [], []⟩
      [.plain 1, .plain 0, .plain 2]) sameRows ⟨.i64, [3], #[0, 7, 0], rfl⟩ ∧
    ScatterInto sameRows.graph fiveAndSeven 3 2 ⟨.i64, [2, 1], #[0, 2], rfl⟩ (.ofInts [3]) 1 ∧
    Evaluates fiveAndSeven (translate ⟨"scattered", "ScatterNd", [], []⟩
      [.plain 3, .plain 0, .plain 2]) sameRows (.tabulate .i64 [3]
        (sumOfUpdates (· + ·) 1 (fun r => if r = [0] then [0] else [2]) (walk [2])
          (fun c => if c = [0] then 5 else 7) fun _ => 0)) := by
  have hg : Graph.Reachable sameRows.graph := Graph.reachable_build {} _
  have hop : (⟨"scattered", "ScatterNd", [], []⟩ : Source.Node).opType ∈
      ["ScatterNd", "SCATTER_ND"] := .head _
  have hupdates : 0 < sameRows.graph.nodes.size := by decide
  have hsame : ScatterInto sameRows.graph fiveAndSeven 1 2 ⟨.i64, [2, 1], #[1, 1], rfl⟩
      (.ofInts [3]) 1 := ⟨by decide +kernel, by decide +kernel, rfl⟩
  have hapart : ScatterInto sameRows.graph fiveAndSeven 3 2 ⟨.i64, [2, 1], #[0, 2], rfl⟩
      (.ofInts [3]) 1 := ⟨by decide +kernel, by decide +kernel, rfl⟩
  have hu : sameRows.graph.evaluate fiveAndSeven [0] =
      .ok [.tabulate .i64 [2] fun c => if c = [0] then 5 else 7] := by decide +kernel
  have hsizes : ((Tensor.ofInts [3]).convert .i64).ints = .ok ([3].map Int.ofNat) := by
    decide +kernel
  have honce : ∀ c ∈ walk [3], (rowsAt (fun r => if r = [0] then [0] else [2]) (walk [2])
      (c.take 1)).length ≤ 1 := by decide +kernel
  refine ⟨hg, hsame, ((scatterNd_keepsLastUpdate hg hop hupdates hsame).1 _).mpr ?_, hapart, ?_⟩
  · exact ⟨.i64, [3], [2], 1, fun _ => [1], fun c => if c = [0] then 5 else 7, hsizes,
      sameRows_addresses, hu, by decide +kernel⟩
  · exact (scatterNd_keepsLastUpdate hg hop hupdates hapart).2 .i64 [3] [2] 1 _ _ _ rfl rfl hsizes
      apart_addresses hu fun c hc => honce c (Shape.mem_walk.mpr hc)

/-- What a scatter of one plane of the updates evaluates to. -/
theorem evaluates_project_scatterNd_iff {x : ComplexValue} (hw : b.graph.WellFormed)
    (hop : node.opType ∈ ["ScatterNd", "SCATTER_ND"]) (hp : projection.opType = part.opType)
    (hx : x.IsOperandOf b.graph feeds e)
    (h : ScatterInto b.graph feeds indices shape rows target n) (t : Tensor) :
    Evaluates feeds (project projection [.plain indices, .complex x, .plain shape] >>=
        translate node) b t ↔
      scatterNd? rows (target.convert .i64)
        (plane? part.place (outcome? b.graph feeds x.packed)) = some t := by
  have hrows := denotes_of_evaluate hw h.evaluate_rows
  have htarget := denotes_of_evaluate hw h.evaluate_target
  have hz := hx.isOperand hw
  have hinputs : List.Forall₂ (Projects ⟨feeds, True⟩ b.graph e part)
      [.plain indices, .complex x, .plain shape]
      [some rows, plane? part.place (outcome? b.graph feeds x.packed), some target] :=
    .cons (.plain hrows) (.cons (.complex hz) (.cons (.plain htarget) .nil))
  refine Runs.evaluates_iff (A := False) (.bind (.project hp hinputs fun hnone => ?_) ?_) hw
  · have hnone : plane? part.place (outcome? b.graph feeds x.packed) = none := by
      simpa [eq_comm] using hnone
    rw [hnone, scatterNd?_none]
  · rintro outputs c _ ⟨ids, rfl, hids⟩
    obtain _ | ⟨hr, _ | ⟨hv, _ | ⟨ht, _ | _⟩⟩⟩ := hids
    exact .translate_scatterNd hr ht h.shape_target hop hv id

/-- Complex updates are scattered plane by plane, unless the rows have more indices than the target
has axes. With one index more, a row addresses one part of one complex number, and both planes of the
result are cut from what is scattered so; the planes of the updates cannot be scattered. -/
theorem complexScatterNd_byDepth {x : ComplexValue} (hg : Graph.Reachable b.graph)
    (hop : node.opType ∈ ["ScatterNd", "SCATTER_ND"]) (hp : projection.opType = part.opType)
    (hx : x.IsOperandOf b.graph feeds e)
    (h : ScatterInto b.graph feeds indices shape rows target n) :
    (rows.shape.getLastD 0 ≤ n → ∀ t,
      Evaluates feeds (translate node [.plain indices, .complex x, .plain shape] >>=
          translate projection) b t ↔
        Evaluates feeds (project projection [.plain indices, .complex x, .plain shape] >>=
          translate node) b t) ∧
    (n < rows.shape.getLastD 0 → ∀ t,
      ¬Evaluates feeds (project projection [.plain indices, .complex x, .plain shape] >>=
          translate node) b t ∧
      (Evaluates feeds (translate node [.plain indices, .complex x, .plain shape] >>=
          translate projection) b t ↔
        ∃ sizes batch a u, (target.convert .i64).ints = .ok (sizes.map Int.ofNat) ∧
          rows.Addresses (sizes ++ [2]) batch (n + 1) a ∧
          b.graph.evaluate feeds [x.packed] = .ok [.tabulate e batch u] ∧
          t = .tabulate e sizes fun c =>
            lastUpdate (n + 1) a (walk batch) u (fun _ => e.zero) (c ++ [part.place]))) := by
  have hw := hg.wellFormed
  obtain ⟨hfloat, hlt, -⟩ := packed_of_marked hw hx.marked
  have hz := hx.isOperand hw
  have hrows := denotes_of_evaluate hw h.evaluate_rows
  have htarget := denotes_of_evaluate hw h.evaluate_target
  obtain ⟨values, hvalues⟩ := exists_ints (t := target.convert .i64) rfl
  obtain ⟨stored, -, -, -, hstored⟩ := exists_concat_ofInts (t := target.convert .i64) rfl
    (congrArg List.length h.shape_target) [2]
  have hstored : stored.ints = .ok (values ++ [2]) := hstored values hvalues
  obtain rfl : values.length = n := by
    rw [Tensor.length_ints hvalues]
    exact (congrArg Shape.volume h.shape_target).trans (Nat.mul_one n)
  have hgives : GivesPlanes ⟨feeds, True⟩ b node [.plain indices, .complex x, .plain shape]
      fun part => plane? part.place (scatterNd? rows stored (outcome? b.graph feeds x.packed)) := by
    refine ⟨.imp (.translate_complexScatterNd hrows htarget h.shape_target hop hz hfloat hvalues
      hstored plane?_eq_none.mpr) id ?_, fun hnone part => ?_⟩
    · rintro g outputs - ⟨r, rfl, hr⟩
      exact ⟨r, _, rfl, hr, arePairs_scatterNd? hstored, fun part => rfl⟩
    · exact plane?_eq_none.mpr (plane?_eq_none.mp hnone)
  have hplanes := evaluates_project_scatterNd_iff hw hop hp hx h
  refine ⟨fun hdepth t => ?_, fun hdepth t => ⟨fun ht => ?_, ?_⟩⟩
  · rw [hgives.evaluates_iff hw hp, hplanes,
      plane?_scatterNd? hstored hz.pairs hvalues hdepth part.place_lt]
  · exact Nat.not_le.mpr hdepth (depth_le_of_scatterNd? hvalues ((hplanes t).mp ht))
  · rw [hgives.evaluates_iff hw hp,
      plane?_scatterNd?_of_lt hstored hz.elementType hdepth part.place_lt]
    simp only [hvalues, Except.ok.injEq, outcome?_eq_some hw hlt]

/-- A complex number as update, rows of two indices, a row of one index, and a vector of length 3. -/
def longRows : Builder where
  graph := Graph.build {} [
    .parameter "u" .f32 (.ranked [some 2]),
    .op "u/complex" (.complexMark .f32) [0],
    .constant "rows" ⟨.i64, [2, 2], #[1, 0, 2, 1], rfl⟩,
    .constant "shape" (.ofInts [3]),
    .constant "row" (.ofInts [1])]
  node := "scattered"
  opType := "ScatterNd"

/-- The update is `5 + 7i`. -/
def fivePlusSevenI : Feeds :=
  [("u", ⟨.f32, [2], #[⟨0x40a00000⟩, ⟨0x40e00000⟩], rfl⟩)]

/-- The real part of the update goes to the place 1 and the imaginary part to the place 2, and the
real plane of the update cannot be scattered. -/
theorem longRows_reachParts :
    Evaluates fivePlusSevenI (translate ⟨"scattered", "ScatterNd", [], []⟩
        [.plain 2, .complex ⟨1, 0, .f32⟩, .plain 3] >>= translate ⟨"re", "Real", [], []⟩)
      longRows ⟨.f32, [3], #[⟨0⟩, ⟨0x40a00000⟩, ⟨0⟩], rfl⟩ ∧
    Evaluates fivePlusSevenI (translate ⟨"scattered", "ScatterNd", [], []⟩
        [.plain 2, .complex ⟨1, 0, .f32⟩, .plain 3] >>= translate ⟨"im", "Imag", [], []⟩)
      longRows ⟨.f32, [3], #[⟨0⟩, ⟨0⟩, ⟨0x40e00000⟩], rfl⟩ ∧
    ((project ⟨"re", "Real", [], []⟩ [.plain 2, .complex ⟨1, 0, .f32⟩, .plain 3] >>=
      translate ⟨"scattered", "ScatterNd", [], []⟩).exec longRows).1.toOption = none := by
  decide +kernel

theorem longRows_byDepth : Graph.Reachable longRows.graph ∧
    ComplexValue.IsOperandOf longRows.graph fivePlusSevenI .f32 ⟨1, 0, .f32⟩ ∧
    ScatterInto longRows.graph fivePlusSevenI 2 3 ⟨.i64, [2, 2], #[1, 0, 2, 1], rfl⟩ (.ofInts [3]) 1 ∧
    (∀ t, ¬Evaluates fivePlusSevenI (project ⟨"re", "Real", [], []⟩
      [.plain 2, .complex ⟨1, 0, .f32⟩, .plain 3] >>=
        translate ⟨"scattered", "ScatterNd", [], []⟩) longRows t) ∧
    ScatterInto longRows.graph fivePlusSevenI 4 3 (.ofInts [1]) (.ofInts [3]) 1 ∧
    Evaluates fivePlusSevenI (project ⟨"re", "Real", [], []⟩
        [.plain 4, .complex ⟨1, 0, .f32⟩, .plain 3] >>= translate ⟨"scattered", "ScatterNd", [], []⟩)
      longRows ⟨.f32, [3], #[⟨0⟩, ⟨0x40a00000⟩, ⟨0⟩], rfl⟩ := by
  have hg : Graph.Reachable longRows.graph := Graph.reachable_build {} _
  have hop : (⟨"scattered", "ScatterNd", [], []⟩ : Source.Node).opType ∈
      ["ScatterNd", "SCATTER_ND"] := .head _
  have hp : (⟨"re", "Real", [], []⟩ : Source.Node).opType = Part.real.opType := rfl
  have heval : longRows.graph.evaluate fivePlusSevenI [0] =
      .ok [⟨.f32, [2], #[⟨0x40a00000⟩, ⟨0x40e00000⟩], rfl⟩] := by decide +kernel
  have hz : ComplexValue.IsOperandOf longRows.graph fivePlusSevenI .f32 ⟨1, 0, .f32⟩ :=
    .of_evaluate rfl ⟨_, rfl, rfl, rfl⟩ heval rfl
  have hlong : ScatterInto longRows.graph fivePlusSevenI 2 3 ⟨.i64, [2, 2], #[1, 0, 2, 1], rfl⟩
      (.ofInts [3]) 1 := ⟨by decide +kernel, by decide +kernel, rfl⟩
  have hshort : ScatterInto longRows.graph fivePlusSevenI 4 3 (.ofInts [1]) (.ofInts [3]) 1 :=
    ⟨by decide +kernel, by decide +kernel, rfl⟩
  obtain ⟨-, hdeep⟩ := complexScatterNd_byDepth hg hop hp hz hlong
  obtain ⟨hplane, -⟩ := complexScatterNd_byDepth hg hop hp hz hshort
  refine ⟨hg, hz, hlong, fun t => (hdeep (by decide) t).1, hshort, ?_⟩
  refine (hplane (by decide) _).mp ?_
  decide +kernel

end

end TensorLowering.Lowering
