import TensorLowering.Digraph.Ready
import Mathlib.Data.List.Basic

/-!
# What the order by readiness lists

On a graph whose edges all lead forward (`Forward`), `readyOrder` lists every vertex once and after
its predecessors:

* `emitReady_spec`: one run of `emitReady`, by induction on its fuel. `Emission` is what each step
  keeps, and the fuel covers the stack together with the edges that have not yet put anything there
  (`pending`);
* `exists_emitted`: the same for `readyOrder`, whose list is read from its end.
-/

namespace TensorLowering.Digraph

variable {g : Digraph}

theorem mem_successors {v w : Nat} : w ∈ g.successors v ↔ (v, w) ∈ g.edges := by
  simp only [successors, List.mem_filterMap, Option.ite_none_right_eq_some, Option.some.injEq]
  constructor
  · rintro ⟨⟨p, c⟩, he, rfl, rfl⟩; exact he
  · intro h; exact ⟨(v, w), h, rfl, rfl⟩

theorem mem_predecessors {v w : Nat} : v ∈ g.predecessors w ↔ (v, w) ∈ g.edges := by
  simp only [predecessors, List.mem_filterMap, Option.ite_none_right_eq_some, Option.some.injEq]
  constructor
  · rintro ⟨⟨p, c⟩, he, rfl, rfl⟩; exact he
  · intro h; exact ⟨(v, w), h, rfl, rfl⟩

/-- Every edge leads from a vertex to a later one. -/
def Forward (g : Digraph) : Prop :=
  ∀ producer consumer, (producer, consumer) ∈ g.edges → producer < consumer ∧ consumer < g.size

/-- Vertices, the latest first, each of them once and after its predecessors. -/
def Emitted (g : Digraph) : List Nat → Prop
  | [] => True
  | v :: earlier =>
    v < g.size ∧ v ∉ earlier ∧ (∀ p ∈ g.predecessors v, p ∈ earlier) ∧ g.Emitted earlier

/-- What every step of `emitReady` keeps: the stack holds ready vertices only, and all of those that
are not emitted. -/
structure Emission (g : Digraph) (stack emitted : List Nat) : Prop where
  listed : g.Emitted emitted
  ready : ∀ v ∈ stack, v < g.size ∧ ∀ p ∈ g.predecessors v, p ∈ emitted
  waiting : ∀ v < g.size, (∀ p ∈ g.predecessors v, p ∈ emitted) → v ∈ emitted ∨ v ∈ stack

/-- The number of edges from vertices that are not emitted. -/
def pending (g : Digraph) (emitted : List Nat) : Nat :=
  g.edges.countP fun e => !emitted.contains e.1

theorem length_successors (g : Digraph) (v : Nat) :
    (g.successors v).length = g.edges.countP (·.1 == v) := by
  unfold successors
  induction g.edges with
  | nil => rfl
  | cons e edges ih =>
    rw [List.filterMap_cons, List.countP_cons]
    by_cases h : e.1 = v <;> simp [h, ih]

/-- Emitting a vertex settles the edges from it. -/
theorem pending_cons {emitted : List Nat} {v : Nat} (hv : v ∉ emitted) :
    g.pending emitted = g.pending (v :: emitted) + (g.successors v).length := by
  rw [length_successors]
  unfold pending
  induction g.edges with
  | nil => rfl
  | cons e edges ih =>
    simp only [List.countP_cons, ih]
    by_cases h : e.1 = v
    · subst h; simp [hv]; omega
    · simp [h]; omega

/-- A vertex that was emitted before is dropped from the stack. -/
theorem Emission.skip {v : Nat} {stack emitted : List Nat} (h : g.Emission (v :: stack) emitted)
    (hv : v ∈ emitted) : g.Emission stack emitted where
  listed := h.listed
  ready := fun w hw => h.ready w (List.mem_cons_of_mem _ hw)
  waiting := fun w hw hp => by
    rcases h.waiting w hw hp with he | hs
    · exact .inl he
    · rcases List.mem_cons.mp hs with rfl | hs
      · exact .inl hv
      · exact .inr hs

/-- The top of the stack is emitted, and its successors that are ready now go onto the stack. -/
theorem Emission.emit (hg : g.Forward) {v : Nat} {stack emitted : List Nat}
    (h : g.Emission (v :: stack) emitted) (hv : v ∉ emitted) :
    g.Emission ((g.successors v).filter (fun w =>
      (g.predecessors w).all (v :: emitted).contains) ++ stack) (v :: emitted) where
  listed := by
    obtain ⟨hlt, hp⟩ := h.ready v List.mem_cons_self
    exact ⟨hlt, hv, hp, h.listed⟩
  ready := fun w hw => by
    rcases List.mem_append.mp hw with hw | hw
    · obtain ⟨hs, hall⟩ := List.mem_filter.mp hw
      refine ⟨(hg v w (mem_successors.mp hs)).2, fun p hp => ?_⟩
      simpa using List.all_eq_true.mp hall p hp
    · obtain ⟨hlt, hp⟩ := h.ready w (List.mem_cons_of_mem _ hw)
      exact ⟨hlt, fun p hp' => List.mem_cons_of_mem _ (hp p hp')⟩
  waiting := fun w hw hp => by
    by_cases he : w ∈ v :: emitted
    · exact .inl he
    · refine .inr (List.mem_append.mpr ?_)
      -- `w` became ready just now exactly if `v` is one of its predecessors.
      by_cases hvw : v ∈ g.predecessors w
      · refine .inl (List.mem_filter.mpr ⟨mem_successors.mpr (mem_predecessors.mp hvw), ?_⟩)
        exact List.all_eq_true.mpr fun p hp' => List.contains_iff_mem.mpr (hp p hp')
      · have hp' : ∀ p ∈ g.predecessors w, p ∈ emitted := fun p hpw =>
          (List.mem_cons.mp (hp p hpw)).resolve_left fun e => hvw (e ▸ hpw)
        rcases h.waiting w hw hp' with h' | h'
        · exact absurd (List.mem_cons_of_mem _ h') he
        · exact .inr ((List.mem_cons.mp h').resolve_left fun e => he (e ▸ List.mem_cons_self))

/-- With enough fuel the stack runs empty. -/
theorem emitReady_spec (hg : g.Forward) {fuel : Nat} {stack emitted : List Nat}
    (h : g.Emission stack emitted) (hf : stack.length + g.pending emitted ≤ fuel) :
    g.Emission [] (g.emitReady fuel stack emitted) := by
  induction fuel generalizing stack emitted with
  | zero =>
    obtain rfl : stack = [] := List.length_eq_zero_iff.mp (by omega)
    exact h
  | succ fuel ih =>
    cases stack with
    | nil => exact h
    | cons v stack =>
      rw [emitReady.eq_def]
      rw [List.length_cons] at hf
      dsimp only
      split
      · rename_i hv
        exact ih (h.skip (List.contains_iff_mem.mp hv)) (by omega)
      · rename_i hv
        have hv : v ∉ emitted := fun hm => hv (List.contains_iff_mem.mpr hm)
        refine ih (h.emit hg hv) ?_
        have hl := List.length_filter_le (fun w => (g.predecessors w).all (v :: emitted).contains)
          (g.successors v)
        rw [pending_cons hv] at hf
        rw [List.length_append]
        omega

/-- When nothing waits, everything is emitted: otherwise the first vertex that is missing would be
ready. -/
theorem Emission.all (hg : g.Forward) {emitted : List Nat} (h : g.Emission [] emitted) {v : Nat}
    (hv : v < g.size) : v ∈ emitted := by
  induction v using Nat.strongRecOn with
  | _ v ih =>
    have hp : ∀ p ∈ g.predecessors v, p ∈ emitted := fun p hp => by
      obtain ⟨hlt, -⟩ := hg p v (mem_predecessors.mp hp)
      exact ih p hlt (by omega)
    exact (h.waiting v hv hp).resolve_right List.not_mem_nil

theorem Emitted.lt_size : ∀ {emitted : List Nat}, g.Emitted emitted → ∀ v ∈ emitted, v < g.size
  | _ :: _, h, v, hv => by
    rcases List.mem_cons.mp hv with rfl | hv
    · exact h.1
    · exact h.2.2.2.lt_size v hv

/-- At the start the stack holds the vertices without predecessors. -/
theorem emission_sources (g : Digraph) :
    g.Emission ((List.range g.size).filter fun v => (g.predecessors v).isEmpty).reverse [] where
  listed := trivial
  ready := fun v hv => by simp_all
  waiting := fun v hv hp => by
    have : g.predecessors v = [] :=
      List.eq_nil_iff_forall_not_mem.mpr fun p hp' => List.not_mem_nil (hp p hp')
    simp [hv, this]

/-- On a graph whose edges lead forward, `readyOrder` lists every vertex once, after its
predecessors. -/
theorem exists_emitted (hg : g.Forward) :
    ∃ emitted, g.readyOrder = emitted.reverse ∧ g.Emitted emitted ∧
      ∀ v, v ∈ emitted ↔ v < g.size := by
  have hf : ((List.range g.size).filter fun v => (g.predecessors v).isEmpty).reverse.length +
      g.pending [] ≤ g.size + g.edges.length := by
    have hl := List.length_filter_le (fun v => (g.predecessors v).isEmpty) (List.range g.size)
    have he : g.pending [] ≤ g.edges.length := List.countP_le_length
    rw [List.length_range] at hl
    rw [List.length_reverse]
    omega
  have h := emitReady_spec hg (emission_sources g) hf
  exact ⟨_, rfl, h.listed, fun v => ⟨h.listed.lt_size v, h.all hg⟩⟩

end TensorLowering.Digraph
