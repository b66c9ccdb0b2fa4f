import Mathlib.Data.List.Perm.Subperm
import Mathlib.Logic.Relation
import TensorLowering.Proofs.Digraph.DepthFirst
import TensorLowering.Proofs.Digraph.Ready

/-!
# Depth-first order or a cycle

On a graph without cycles, `depthFirstOrder` lists all vertices with every producer before its
consumers; on any other graph it returns a vertex on a cycle.

* `visit_finds`: what a visit keeps, by induction on its fuel. A vertex is placed when its
  successors were reached. A successor that is not placed yet is still under way, so it reaches
  the vertex (`Settled`).
* `misplaced?_eq_none_iff`, `exists_of_misplaced?_eq_some`: the check afterwards. An edge that points
  backwards leads to a vertex that was under way when its producer was placed, which closes a cycle.
* `sorted_of_depthFirstOrder`, `cyclic_of_depthFirstOrder`: the two outcomes.
-/

namespace TensorLowering.Digraph

open Relation (TransGen)

variable {g : Digraph}

def Edge (g : Digraph) (v w : Nat) : Prop :=
  (v, w) ∈ g.edges

/-- Edges join vertices of the graph. -/
def Bounded (g : Digraph) : Prop :=
  ∀ v w, g.Edge v w → v < g.size ∧ w < g.size

/-- The vertex lies on a cycle; an edge from a vertex to itself is one. -/
def Cyclic (g : Digraph) (v : Nat) : Prop :=
  TransGen g.Edge v v

/-- All vertices, each of them once and after its predecessors. -/
def Sorted (g : Digraph) (order : List Nat) : Prop :=
  order.Perm (List.range g.size) ∧ ∀ v w, g.Edge v w → order.idxOf v < order.idxOf w

/-- A sorted graph has no cycle: along every path the vertices come later and later. -/
theorem Sorted.not_cyclic {order : List Nat} (h : g.Sorted order) (v : Nat) : ¬g.Cyclic v := by
  have hpath : ∀ w, TransGen g.Edge v w → order.idxOf v < order.idxOf w := by
    intro w hw
    induction hw with
    | single hvw => exact h.2 v _ hvw
    | tail _ hw ih => exact Nat.lt_trans ih (h.2 _ _ hw)
  exact fun hc => Nat.lt_irrefl _ (hpath v hc)

/-! ## Visits -/

/-- Placed vertices, the latest first. A successor of each was placed before it, or reaches it. -/
def Settled (g : Digraph) : List Nat → Prop
  | [] => True
  | v :: before => (∀ w ∈ g.successors v, w ∈ before ∨ TransGen g.Edge w v) ∧ g.Settled before

/-- What visits keep of a search. -/
structure Search.Good (g : Digraph) (s : Search) : Prop where
  nodup : s.reached.Nodup
  lt_size : ∀ v ∈ s.reached, v < g.size
  loopless : ∀ v ∈ s.reached, ¬g.Edge v v
  reached_of_placed : s.placed ⊆ s.reached
  settled : g.Settled s.placed

/-- A vertex under way: it was reached and is not placed yet. -/
def Search.Open (s : Search) (v : Nat) : Prop :=
  v ∈ s.reached ∧ v ∉ s.placed

/-- What a visit does to a search: it reaches more vertices, and places all that it reaches. -/
structure Search.Advances (s s' : Search) : Prop where
  reached : s.reached <:+ s'.reached
  of_open : ∀ v, s'.Open v → s.Open v

theorem Search.Advances.refl (s : Search) : s.Advances s :=
  ⟨List.suffix_refl _, fun _ h => h⟩

theorem Search.Advances.trans {s t u : Search} (h : s.Advances t) (h' : t.Advances u) :
    s.Advances u :=
  ⟨h.reached.trans h'.reached, fun v hv => h.of_open v (h'.of_open v hv)⟩

/-- The outcome of visiting some vertices: they are reached, or an edge from a vertex to itself was
found. -/
def Finds (g : Digraph) (s : Search) (vertices : List Nat) : Except Nat Search → Prop
  | .ok s' => s'.Good g ∧ s.Advances s' ∧ ∀ v ∈ vertices, v ∈ s'.reached
  | .error v => g.Edge v v

/-- Visits in turn. The visit of one vertex may use that the search advanced so far. -/
theorem foldlM_finds (visit : Search → Nat → Except Nat Search) {s : Search} (hs : s.Good g)
    (vertices : List Nat) (hv : ∀ v ∈ vertices, ∀ s', s'.Good g → s.Advances s' →
      g.Finds s' [v] (visit s' v)) : g.Finds s vertices (vertices.foldlM visit s) := by
  induction vertices generalizing s with
  | nil => exact ⟨hs, .refl s, by simp⟩
  | cons v vertices ih =>
    have hfirst := hv v List.mem_cons_self s hs (.refl s)
    rw [List.foldlM_cons]
    cases hvisit : visit s v with
    | error u => rw [hvisit] at hfirst; exact hfirst
    | ok t =>
      rw [hvisit] at hfirst
      obtain ⟨ht, hst, hvt⟩ := hfirst
      have hrest := ih ht fun w hw s' hs' htu =>
        hv w (List.mem_cons_of_mem _ hw) s' hs' (hst.trans htu)
      rw [ok_bind]
      cases hfold : vertices.foldlM visit t with
      | error u => rw [hfold] at hrest; exact hrest
      | ok u =>
        rw [hfold] at hrest
        obtain ⟨hu, htu, hall⟩ := hrest
        refine ⟨hu, hst.trans htu, fun w hw => ?_⟩
        rcases List.mem_cons.mp hw with rfl | hw
        · exact htu.reached.subset (hvt w List.mem_cons_self)
        · exact hall w hw

/-- Reach a vertex. -/
theorem Search.Good.reach {s : Search} (hs : s.Good g) {v : Nat} (hv : v < g.size)
    (hnew : v ∉ s.reached) (hloop : ¬g.Edge v v) :
    Search.Good g { s with reached := v :: s.reached } where
  nodup := List.nodup_cons.mpr ⟨hnew, hs.nodup⟩
  lt_size := List.forall_mem_cons.mpr ⟨hv, hs.lt_size⟩
  loopless := List.forall_mem_cons.mpr ⟨hloop, hs.loopless⟩
  reached_of_placed := List.subset_cons_of_subset _ hs.reached_of_placed
  settled := hs.settled

/-- Place a vertex whose successors are placed or reach it. -/
theorem Search.Good.place {s : Search} (hs : s.Good g) {v : Nat} (hv : v ∈ s.reached)
    (hsucc : ∀ w ∈ g.successors v, w ∈ s.placed ∨ TransGen g.Edge w v) :
    Search.Good g { s with placed := v :: s.placed } where
  nodup := hs.nodup
  lt_size := hs.lt_size
  loopless := hs.loopless
  reached_of_placed := List.cons_subset.mpr ⟨hv, hs.reached_of_placed⟩
  settled := ⟨hsucc, hs.settled⟩

theorem Search.Good.length_reached_le {s : Search} (hs : s.Good g) :
    s.reached.length ≤ g.size := by
  have hsub : s.reached ⊆ List.range g.size := fun v hv => List.mem_range.mpr (hs.lt_size v hv)
  simpa using (hs.nodup.subperm hsub).length_le

/-- A visit of a vertex that all vertices under way reach. The fuel exceeds the number of vertices
that are not reached yet, and each call inside reaches one more. -/
theorem visit_finds (hb : g.Bounded) {fuel : Nat} {s : Search} {v : Nat} (hs : s.Good g)
    (hv : v < g.size) (hf : g.size < fuel + s.reached.length)
    (ho : ∀ w, s.Open w → TransGen g.Edge w v) : g.Finds s [v] (g.visit fuel s v) := by
  induction fuel generalizing s v with
  | zero =>
    have := hs.length_reached_le
    omega
  | succ fuel ih =>
    unfold visit
    by_cases hreached : v ∈ s.reached
    · rw [if_pos (List.contains_iff_mem.mpr hreached)]
      exact ⟨hs, .refl s, by simpa using hreached⟩
    rw [if_neg (mt List.contains_iff_mem.mp hreached)]
    by_cases hloop : g.Edge v v
    · rw [if_pos (List.contains_iff_mem.mpr (mem_successors.mpr hloop))]
      exact hloop
    rw [if_neg (mt (fun h => mem_successors.mp (List.contains_iff_mem.mp h)) hloop)]
    dsimp only
    have hstart := hs.reach hv hreached hloop
    have hopen : ∀ w, Search.Open { s with reached := v :: s.reached } w → w = v ∨ s.Open w :=
      fun w hw => (List.mem_cons.mp hw.1).imp id fun h => ⟨h, hw.2⟩
    -- Whatever is under way reaches `v`, hence every successor of `v`.
    have hfold := foldlM_finds (g.visit fuel) hstart (g.successors v)
      fun w hw t ht hadv => by
        have hvw : g.Edge v w := mem_successors.mp hw
        refine ih ht (hb v w hvw).2 ?_ fun u hu => ?_
        · have := hadv.reached.length_le
          rw [List.length_cons] at this
          omega
        · rcases hopen u (hadv.of_open u hu) with rfl | hu
          · exact .single hvw
          · exact (ho u hu).tail hvw
    cases hsearch : (g.successors v).foldlM (g.visit fuel) { s with reached := v :: s.reached } with
    | error u => rw [hsearch] at hfold; exact hfold
    | ok t =>
      rw [hsearch] at hfold
      obtain ⟨ht, hadv, hall⟩ := hfold
      have hvt : v ∈ t.reached := hadv.reached.subset List.mem_cons_self
      refine ⟨ht.place hvt fun w hw => ?_, ⟨?_, fun w hw => ?_⟩, by simpa using hvt⟩
      · by_cases hplaced : w ∈ t.placed
        · exact .inl hplaced
        · rcases hopen w (hadv.of_open w ⟨hall w hw, hplaced⟩) with rfl | hw'
          · exact absurd (mem_successors.mp hw) hloop
          · exact .inr (ho w hw')
      · exact (List.suffix_cons v s.reached).trans hadv.reached
      · have hwv : w ≠ v ∧ w ∉ t.placed := by simpa using hw.2
        exact (hopen w (hadv.of_open w ⟨hw.1, hwv.2⟩)).resolve_left hwv.1

/-- The whole search places every vertex, once, or finds an edge from a vertex to itself. -/
theorem search_finds (hb : g.Bounded) :
    match (List.range g.size).foldlM (g.visit (g.size + 1)) {} with
    | .ok s => s.Good g ∧ s.placed.Perm (List.range g.size)
    | .error v => g.Edge v v := by
  have hempty : Search.Good g {} := ⟨List.nodup_nil, by simp, by simp, by simp, trivial⟩
  have hopen : ∀ s, Search.Advances {} s → ∀ v, ¬s.Open v := fun s hs v hv =>
    List.not_mem_nil (hs.of_open v hv).1
  have hfold := foldlM_finds (g.visit (g.size + 1)) hempty (List.range g.size)
    fun v hv s hs hadv => visit_finds hb hs (List.mem_range.mp hv) (by omega)
      fun w hw => absurd hw (hopen s hadv w)
  cases hsearch : (List.range g.size).foldlM (g.visit (g.size + 1)) {} with
  | error v => rw [hsearch] at hfold; exact hfold
  | ok s =>
    rw [hsearch] at hfold
    obtain ⟨hs, hadv, hall⟩ := hfold
    obtain ⟨-, added, hp, hn, -⟩ := foldlM_adds visit_adds hsearch
    have hnodup : s.placed.Nodup := by simpa [hp] using hn
    refine ⟨hs, (List.perm_ext_iff_of_nodup hnodup List.nodup_range).mpr fun v => ?_⟩
    refine ⟨fun hv => List.mem_range.mpr (hs.lt_size v (hs.reached_of_placed hv)), fun hv => ?_⟩
    by_contra hplaced
    exact hopen s hadv v ⟨hall v hv, hplaced⟩

/-! ## The check -/

/-- No edge points backwards: the predecessors of every vertex are the vertex itself or earlier. -/
theorem misplaced?_eq_none_iff {earlier order : List Nat} : g.misplaced? earlier order = none ↔
    ∀ before v after, order = before ++ v :: after →
      ∀ p ∈ g.predecessors v, p ∈ earlier ∨ p ∈ before ∨ p = v := by
  induction order generalizing earlier with
  | nil => simp [misplaced?]
  | cons w order ih =>
    unfold misplaced?
    have hhead : ((g.predecessors w).find? fun p => !(w :: earlier).contains p) = none ↔
        ∀ p ∈ g.predecessors w, p ∈ earlier ∨ p = w := by
      simp [List.find?_eq_none, or_comm, or_iff_not_imp_left]
    cases hfind : (g.predecessors w).find? fun p => !(w :: earlier).contains p with
    | some p =>
      refine iff_of_false (by simp) fun h => ?_
      have : ∀ p ∈ g.predecessors w, p ∈ earlier ∨ p = w := fun p hp => by
        simpa using h [] w order rfl p hp
      rw [hhead.mpr this] at hfind
      cases hfind
    | none =>
      dsimp only
      rw [ih]
      constructor
      · intro h before v after hsplit p hp
        cases before with
        | nil =>
          obtain ⟨rfl, -⟩ := List.cons.inj hsplit
          rcases hhead.mp hfind p hp with he | rfl
          · exact .inl he
          · exact .inr (.inr rfl)
        | cons u before =>
          obtain ⟨rfl, htail⟩ := List.cons.inj hsplit
          have := h before v after htail p hp
          simp only [List.mem_cons] at this ⊢
          tauto
      · intro h before v after hsplit p hp
        have := h (w :: before) v after (by rw [hsplit]; rfl) p hp
        simp only [List.mem_cons] at this ⊢
        tauto

/-- The check names the producer of an edge that points backwards. -/
theorem exists_of_misplaced?_eq_some {earlier order : List Nat} {p : Nat}
    (h : g.misplaced? earlier order = some p) : ∃ before v after, order = before ++ v :: after ∧
      g.Edge p v ∧ p ∉ earlier ∧ p ∉ before ∧ p ≠ v := by
  induction order generalizing earlier with
  | nil => cases h
  | cons w order ih =>
    unfold misplaced? at h
    split at h
    · rename_i q hfind
      obtain rfl := Option.some.inj h
      have hq : ¬(q = w ∨ q ∈ earlier) := by simpa using List.find?_some hfind
      rw [not_or] at hq
      exact ⟨[], w, order, rfl, mem_predecessors.mp (List.mem_of_find?_eq_some hfind), hq.2,
        List.not_mem_nil, hq.1⟩
    · obtain ⟨before, v, after, rfl, hpv, hearlier, hbefore, hne⟩ := ih h
      rw [List.mem_cons, not_or] at hearlier
      refine ⟨w :: before, v, after, rfl, hpv, hearlier.2, ?_, hne⟩
      rw [List.mem_cons, not_or]
      exact ⟨hearlier.1, hbefore⟩

theorem Settled.of_append {before after : List Nat} (h : g.Settled (before ++ after)) :
    g.Settled after := by
  induction before with
  | nil => exact h
  | cons v before ih => exact ih h.2

/-- An edge that points backwards lies on a cycle: its consumer was under way when its producer was
placed. -/
theorem Settled.cyclic {before after : List Nat} {p v : Nat}
    (h : g.Settled (before ++ v :: after)) (hn : (before ++ v :: after).Nodup) (hpv : g.Edge p v)
    (hp : p ∈ after) : g.Cyclic p := by
  obtain ⟨middle, last, rfl⟩ := List.append_of_mem hp
  have hsplit : before ++ v :: (middle ++ p :: last) = (before ++ v :: middle) ++ p :: last := by
    simp
  rw [hsplit] at h
  rcases h.of_append.1 v (mem_successors.mpr hpv) with hlast | hreach
  · have hvn := (List.nodup_cons.mp (List.nodup_append.mp hn).2.1).1
    exact absurd (List.mem_append_right _ (List.mem_cons_of_mem _ hlast)) hvn
  · exact .head hpv hreach

/-! ## The order -/

theorem sorted_of_depthFirstOrder (hb : g.Bounded) {order : List Nat}
    (h : g.depthFirstOrder = .ok order) : g.Sorted order := by
  obtain ⟨s, hsearch, h⟩ := bind_eq_ok.mp h
  have hfinds := search_finds hb
  rw [hsearch] at hfinds
  obtain ⟨hs, hperm⟩ := hfinds
  split at h
  · cases h
  rename_i hmisplaced
  obtain rfl := Except.ok.inj h
  refine ⟨hperm, fun v w hvw => ?_⟩
  have hw : w ∈ s.placed := hperm.mem_iff.mpr (List.mem_range.mpr (hb v w hvw).2)
  obtain ⟨before, after, hsplit, hnot⟩ := List.eq_append_cons_of_mem hw
  have hbefore : v ∈ before := by
    rcases misplaced?_eq_none_iff.mp hmisplaced before w after hsplit v
      (mem_predecessors.mpr hvw) with hnil | hbefore | rfl
    · exact absurd hnil List.not_mem_nil
    · exact hbefore
    · exact absurd hvw (hs.loopless v (hs.reached_of_placed hw))
  rw [hsplit, List.idxOf_append_of_mem hbefore, List.idxOf_append_of_notMem hnot,
    List.idxOf_cons_self, Nat.add_zero]
  exact List.idxOf_lt_length_of_mem hbefore

theorem cyclic_of_depthFirstOrder (hb : g.Bounded) {v : Nat}
    (h : g.depthFirstOrder = .error v) : v < g.size ∧ g.Cyclic v := by
  have hfinds := search_finds hb
  rcases bind_eq_error.mp h with hsearch | ⟨s, hsearch, h⟩
  · rw [hsearch] at hfinds
    exact ⟨(hb v v hfinds).1, .single hfinds⟩
  rw [hsearch] at hfinds
  obtain ⟨hs, hperm⟩ := hfinds
  split at h
  · rename_i p hmisplaced
    obtain rfl := Except.error.inj h
    obtain ⟨before, w, after, hsplit, hpw, -, hbefore, hne⟩ :=
      exists_of_misplaced?_eq_some hmisplaced
    have hlt := (hb p w hpw).1
    have hp : p ∈ before ++ w :: after := hsplit ▸ hperm.mem_iff.mpr (List.mem_range.mpr hlt)
    have hafter : p ∈ after := by
      rcases List.mem_append.mp hp with hp | hp
      · exact absurd hp hbefore
      · exact (List.mem_cons.mp hp).resolve_left hne
    exact ⟨hlt, (hsplit ▸ hs.settled).cyclic (hsplit ▸ hperm.nodup_iff.mpr List.nodup_range) hpw
      hafter⟩
  · cases h

end TensorLowering.Digraph
