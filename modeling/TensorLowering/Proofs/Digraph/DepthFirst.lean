import TensorLowering.Digraph.DepthFirst
import TensorLowering.Proofs.Outcome

/-!
# What the depth-first order lists

A search places vertices that it had not reached before, each of them once (`Search.Adds`). That
holds of one visit, by induction on its fuel (`visit_adds`), and of the visits of several vertices
in turn, so the whole order lists no vertex twice (`nodup_depthFirstOrder`).
-/

namespace TensorLowering.Digraph

variable {g : Digraph}

/-- From one search to a later one: the vertices placed in between are different, were not reached
before and are reached now. -/
def Search.Adds (before after : Search) : Prop :=
  before.reached ⊆ after.reached ∧
    ∃ added, after.placed = added ++ before.placed ∧ added.Nodup ∧
      ∀ v ∈ added, v ∉ before.reached ∧ v ∈ after.reached

theorem Search.Adds.refl (search : Search) : search.Adds search :=
  ⟨List.Subset.refl _, [], rfl, List.nodup_nil, by simp⟩

theorem Search.Adds.trans {s t u : Search} (h : s.Adds t) (h' : t.Adds u) : s.Adds u := by
  obtain ⟨hst, first, ht, hn, hf⟩ := h
  obtain ⟨htu, second, hu, hn', hs⟩ := h'
  refine ⟨List.Subset.trans hst htu, second ++ first, by rw [hu, ht, List.append_assoc], ?_, ?_⟩
  · refine List.nodup_append.mpr ⟨hn', hn, fun v hv w hw e => ?_⟩
    exact (hs v hv).1 (hf v (e ▸ hw)).2
  · intro v hv
    rcases List.mem_append.mp hv with hv | hv
    · exact ⟨fun hr => (hs v hv).1 (hst hr), (hs v hv).2⟩
    · exact ⟨(hf v hv).1, htu (hf v hv).2⟩

/-- Visits in turn add up. -/
theorem foldlM_adds {visit : Search → Nat → Except Nat Search}
    (hv : ∀ {s s' : Search} {v : Nat}, visit s v = .ok s' → s.Adds s') {vertices : List Nat}
    {s s' : Search} (h : vertices.foldlM visit s = .ok s') : s.Adds s' := by
  induction vertices generalizing s with
  | nil => rw [← Except.ok.inj h]; exact .refl s
  | cons v vertices ih =>
    rw [List.foldlM_cons] at h
    obtain ⟨t, ht, h⟩ := bind_eq_ok.mp h
    exact (hv ht).trans (ih h)

theorem visit_adds {fuel : Nat} {s s' : Search} {v : Nat} (h : g.visit fuel s v = .ok s') :
    s.Adds s' := by
  induction fuel generalizing s s' v with
  | zero => rw [← Except.ok.inj h]; exact .refl s
  | succ fuel ih =>
    unfold visit at h
    split at h
    · rw [← Except.ok.inj h]; exact .refl s
    rename_i hv
    split at h
    · cases h
    obtain ⟨t, ht, h⟩ := bind_eq_ok.mp h
    obtain ⟨hsub, added, hp, hn, ha⟩ := foldlM_adds ih ht
    rw [← Except.ok.inj h]
    have hvs : v ∉ s.reached := by rwa [List.contains_iff_mem] at hv
    have hreached : v ∈ t.reached := hsub List.mem_cons_self
    refine ⟨fun w hw => hsub (List.mem_cons_of_mem _ hw), v :: added, by rw [hp]; rfl, ?_, ?_⟩
    · exact List.nodup_cons.mpr ⟨fun hva => (ha v hva).1 List.mem_cons_self, hn⟩
    · intro w hw
      rcases List.mem_cons.mp hw with rfl | hw
      · exact ⟨hvs, hreached⟩
      · exact ⟨fun hr => (ha w hw).1 (List.mem_cons_of_mem _ hr), (ha w hw).2⟩

theorem nodup_depthFirstOrder {order : List Nat} (h : g.depthFirstOrder = .ok order) :
    order.Nodup := by
  obtain ⟨s, hs, h⟩ := bind_eq_ok.mp h
  obtain ⟨-, added, hp, hn, -⟩ := foldlM_adds visit_adds hs
  split at h
  · cases h
  · rw [← Except.ok.inj h, hp]
    simpa using hn

end TensorLowering.Digraph
