import TensorLowering.Lowering.Builder
import TensorLowering.Proofs.Dataflow.Extension

/-!
# What programs keep

`Keeps` is what a `Build` program does from some builder on: it extends the graph and keeps an
invariant of it, also where it fails, and what it returns has a property. The rules follow the ways
in which programs are put together; in the rule for two programs in a row, what was known before is
known of an extension.
-/

namespace TensorLowering.Lowering

open Dataflow (ValueId Graph)

namespace Build

/-! ## Running programs -/

section Exec

variable {α β : Type} (builder : Builder)

theorem exec_liftM (x : Except Error α) :
    (MonadLiftT.monadLift x : Build α).exec builder = (x, builder) := rfl

theorem exec_bind (program : Build α) (next : α → Build β) :
    (program >>= next).exec builder =
      match program.exec builder with
      | (.ok a, after) => (next a).exec after
      | (.error e, after) => (.error e, after) := by
  simp only [exec, ExceptT.run_bind, StateT.run_bind]
  rcases program.run.run builder with ⟨_ | a, after⟩ <;> rfl

theorem exec_emit (op : Op) (inputs : List ValueId) : (emit op inputs).exec builder =
    match builder.graph.add (builder.nextName op) op inputs with
    | .ok (id, graph) => (.ok id, { builder with counter := builder.counter + 1, graph := graph })
    | .error cause =>
      (.error (builder.error cause), { builder with counter := builder.counter + 1 }) := by
  rfl

theorem exec_query (read : Graph → Except TensorLowering.Error α) : (query read).exec builder =
    (match read builder.graph with
      | .ok x => .ok x
      | .error cause => .error (builder.error cause), builder) := by
  show (match read builder.graph with
    | .ok x => (Except.ok x, builder)
    | .error cause => (Except.error (builder.error cause), builder)) = _
  cases read builder.graph <;> rfl

end Exec

end Build

open Build (emit query)

variable {α β : Type} {I : Graph → Prop} {b : Builder} {Q : Graph → α → Prop}
  {R : Graph → β → Prop}

/-! ## Invariants with results -/

/-- An outcome of a run from the builder: the graph is extended and the invariant kept, and what was
returned, if anything was, has the property. -/
structure Kept (I : Graph → Prop) (b : Builder) (Q : Graph → α → Prop)
    (outcome : Except Error α × Builder) : Prop where
  grows : b.graph.Extends outcome.2.graph
  inv : I outcome.2.graph
  post : ∀ a, outcome.1 = .ok a → Q outcome.2.graph a

/-- Run from the builder, the program extends the graph and keeps the invariant, and what it returns
has the property. -/
def Keeps (I : Graph → Prop) (b : Builder) (program : Build α) (Q : Graph → α → Prop) : Prop :=
  Kept I b Q (program.exec b)

theorem Kept.ok {a : α} {c : Builder} (hg : b.graph.Extends c.graph) (hI : I c.graph)
    (hQ : Q c.graph a) : Kept I b Q (.ok a, c) :=
  ⟨hg, hI, fun a' ha => by obtain rfl := Except.ok.inj ha; exact hQ⟩

theorem Kept.error {e : Error} {c : Builder} (hg : b.graph.Extends c.graph) (hI : I c.graph) :
    Kept I b Q (.error e, c) :=
  ⟨hg, hI, fun a ha => by cases ha⟩

namespace Keeps

theorem imp {program : Build α} {Q' : Graph → α → Prop} (h : Keeps I b program Q)
    (hq : ∀ g a, b.graph.Extends g → I g → Q g a → Q' g a) : Keeps I b program Q' :=
  ⟨h.grows, h.inv, fun a ha => hq _ a h.grows h.inv (h.post a ha)⟩

theorem pure {a : α} (hI : I b.graph) (hQ : Q b.graph a) : Keeps I b (pure a) Q :=
  Kept.ok (.refl _) hI hQ

theorem throw {e : Error} (hI : I b.graph) : Keeps I b (throw e) Q :=
  Kept.error (.refl _) hI

/-- Emitting keeps what adding the operation keeps. -/
theorem emit {op : Op} {inputs : List ValueId} {Q : Graph → ValueId → Prop} (hI : I b.graph)
    (h : ∀ name id g, b.graph.add name op inputs = .ok (id, g) → I g ∧ Q g id) :
    Keeps I b (emit op inputs) Q := by
  rw [Keeps, Build.exec_emit]
  cases hadd : b.graph.add (b.nextName op) op inputs with
  | ok added =>
    obtain ⟨hI', hQ⟩ := h _ _ _ hadd
    exact .ok (.add hadd) hI' hQ
  | error cause => exact .error (.refl _) hI

/-- Where the first of two programs is a check, the second runs from the same builder. -/
theorem liftM_bind {x : Except Error α} {next : α → Build β} (hI : I b.graph)
    (h : ∀ a, x = .ok a → Keeps I b (next a) R) :
    Keeps I b ((MonadLiftT.monadLift x : Build α) >>= next) R := by
  rw [Keeps, Build.exec_bind, Build.exec_liftM]
  cases x with
  | ok a => exact h a rfl
  | error e => exact .error (.refl _) hI

/-- So it does where the first one reads the graph. -/
theorem query_bind {read : Graph → Except TensorLowering.Error α} {next : α → Build β}
    (hI : I b.graph) (h : ∀ a, read b.graph = .ok a → Keeps I b (next a) R) :
    Keeps I b (Build.query read >>= next) R := by
  rw [Keeps, Build.exec_bind, Build.exec_query]
  cases hr : read b.graph with
  | ok a => exact h a hr
  | error cause => exact .error (.refl _) hI

/-- Two programs in a row. -/
theorem bind {program : Build α} {next : α → Build β} (h : Keeps I b program Q)
    (hnext : ∀ a c, b.graph.Extends c.graph → I c.graph → Q c.graph a → Keeps I c (next a) R) :
    Keeps I b (program >>= next) R := by
  rw [Keeps] at h
  rw [Keeps, Build.exec_bind]
  generalize program.exec b = outcome at h
  obtain ⟨_ | a, c⟩ := outcome
  · exact .error h.grows h.inv
  · obtain ⟨hg, hI, hR⟩ := hnext a c h.grows h.inv (h.post a rfl)
    exact ⟨h.grows.trans hg, hI, hR⟩

end Keeps

end TensorLowering.Lowering
