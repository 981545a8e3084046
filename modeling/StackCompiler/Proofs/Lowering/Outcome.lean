import StackCompiler.Proofs.Lowering.Statement

/-!
# Success and failure of lowering

A sequence of steps succeeds if the first does and the second does from where the first ends. It
fails as the first does or, when that succeeds, as the second does.
-/
namespace StackCompiler.Lowering

variable {α β : Type} {s : Scopes} {P : Scopes → Prop}

/-- From the scopes `s` the step succeeds and leaves scopes with the property `P`. -/
def Finishes (x : Lowering α) (s : Scopes) (P : Scopes → Prop) : Prop :=
  ∃ a s', Runs x s a s' ∧ P s'

abbrev Succeeds (x : Lowering α) (s : Scopes) : Prop :=
  Finishes x s fun _ => True

def Fails (x : Lowering α) (s : Scopes) (e : CompileError) : Prop :=
  (x s).result = .error e

@[simp] theorem finishes_pure {a : α} : Finishes (pure a) s P ↔ P s := by
  simp [Finishes]

@[simp] theorem not_finishes_throw {e : CompileError} : ¬ Finishes (throw e : Lowering α) s P := by
  simp [Finishes]

@[simp] theorem not_finishes_throw_bind {e : CompileError} {f : α → Lowering β} :
    ¬ Finishes (throw e >>= f) s P := by
  simp [Finishes]

theorem finishes_bind {x : Lowering α} {f : α → Lowering β} :
    Finishes (x >>= f) s P ↔ ∃ a s', Runs x s a s' ∧ Finishes (f a) s' P := by
  unfold Finishes
  constructor
  · intro h
    obtain ⟨b, s₂, hrun, hP⟩ := h
    obtain ⟨a, s₁, hx, hf⟩ := runs_bind.mp hrun
    exact ⟨a, s₁, hx, b, s₂, hf, hP⟩
  · intro h
    obtain ⟨a, s₁, hx, b, s₂, hf, hP⟩ := h
    exact ⟨b, s₂, runs_bind.mpr ⟨a, s₁, hx, hf⟩, hP⟩

/-- A step after which the rest depends only on the scopes. -/
theorem finishes_bind_congr {x : Lowering α} {f : α → Lowering β} {Q : Scopes → Prop}
    (hf : ∀ a s', Finishes (f a) s' P ↔ Q s') : Finishes (x >>= f) s P ↔ Finishes x s Q := by
  simp only [finishes_bind, hf]
  rfl

@[simp] theorem finishes_bind_pure {x : Lowering α} {g : α → β} :
    Finishes (x >>= fun a => pure (g a)) s P ↔ Finishes x s P :=
  finishes_bind_congr fun _ _ => finishes_pure

@[simp] theorem finishes_lift_bind {r : Except CompileError α} {f : α → Lowering β} :
    Finishes (liftM r >>= f) s P ↔ ∃ a, r = .ok a ∧ Finishes (f a) s P := by
  simp [finishes_bind, runs_lift]

@[simp] theorem finishes_emit_bind {e : Event} {f : Unit → Lowering β} :
    Finishes (emit e >>= f) s P ↔ Finishes (f ()) s P := by
  simp [finishes_bind, Unique.exists_iff]

@[simp] theorem finishes_scopes_bind {f : Scopes → Lowering β} :
    Finishes (scopes >>= f) s P ↔ Finishes (f s) s P := by
  simp [finishes_bind]

@[simp] theorem finishes_current_bind {f : Frame → Lowering β} :
    Finishes (current >>= f) s P ↔ Finishes (f s.current) s P := by
  simp [finishes_bind]

@[simp] theorem finishes_setCurrent_bind {frame : Frame} {f : Unit → Lowering β} :
    Finishes (setCurrent frame >>= f) s P ↔ Finishes (f ()) (s.setCurrent frame) P := by
  simp [finishes_bind, Unique.exists_iff]

@[simp] theorem finishes_ite {c : Prop} [Decidable c] {x y : Lowering α} :
    Finishes (if c then x else y) s P ↔ if c then Finishes x s P else Finishes y s P := by
  split <;> rfl

theorem finishes_withLocals {x : Lowering α} :
    Finishes (withLocals x) s P ↔
      Finishes x { s with locals := some (.empty .bx) } fun t => P { t with locals := none } := by
  constructor
  · rintro ⟨⟨a, frame⟩, s', hrun, hP⟩
    obtain ⟨t, hx, -, rfl⟩ := runs_withLocals.mp hrun
    exact ⟨a, t, hx, hP⟩
  · rintro ⟨a, t, hx, hP⟩
    exact ⟨(a, _), _, runs_withLocals.mpr ⟨t, hx, rfl, rfl⟩, hP⟩

/-- From the scopes `s` the step comes back to them if it succeeds. -/
def Keeps (x : Lowering α) (s : Scopes) : Prop :=
  ∀ a s', Runs x s a s' → s' = s

theorem Keeps.finishes {x : Lowering α} (h : Keeps x s) : Finishes x s P ↔ Succeeds x s ∧ P s := by
  constructor
  · rintro ⟨a, s', hrun, hP⟩
    obtain rfl := h a s' hrun
    exact ⟨⟨a, s', hrun, trivial⟩, hP⟩
  · rintro ⟨⟨a, s', hrun, -⟩, hP⟩
    obtain rfl := h a s' hrun
    exact ⟨a, s', hrun, hP⟩

theorem Keeps.finishes_bind {x : Lowering α} (h : Keeps x s) {f : α → Lowering β} {Q : Prop}
    (hf : ∀ a, Finishes (f a) s P ↔ Q) : Finishes (x >>= f) s P ↔ Succeeds x s ∧ Q := by
  rw [Lowering.finishes_bind]
  constructor
  · rintro ⟨a, s', hrun, hrest⟩
    obtain rfl := h a s' hrun
    exact ⟨⟨a, s', hrun, trivial⟩, (hf a).mp hrest⟩
  · rintro ⟨⟨a, s', hrun, -⟩, hQ⟩
    obtain rfl := h a s' hrun
    exact ⟨a, s', hrun, (hf a).mpr hQ⟩

theorem keeps_expression {table : FunctionTable} {t : Term} (ht : t.isAbsent = false) :
    Keeps (expression table t) s :=
  fun _ _ hrun => (lowers_of_runs_expression hrun ht).1

theorem keeps_resolved {table : FunctionTable} {id : NodeId} {name : String} {index : Term} :
    Keeps (resolved id name index (expression table index)) s :=
  fun _ _ hrun => (lowers_of_runs_resolved hrun).1

theorem keeps_call {table : FunctionTable} {id : NodeId} {callee args : Term} :
    Keeps (callWith table id callee args (arguments table args)) s :=
  fun _ _ hrun => (lowers_of_runs_call hrun).1

theorem fails_bind {x : Lowering α} {f : α → Lowering β} {e : CompileError} :
    Fails (x >>= f) s e ↔ Fails x s e ∨ ∃ a s', Runs x s a s' ∧ Fails (f a) s' e := by
  show (andThen x f s).result = .error e ↔ _
  unfold Fails andThen Runs
  cases h : (x s).result with
  | error e' => simp [h]
  | ok a =>
    constructor
    · intro hf
      exact .inr ⟨a, _, ⟨rfl, rfl⟩, by simpa [h] using hf⟩
    · rintro (hx | ⟨_, _, ⟨ha, rfl⟩, hf⟩)
      · cases hx
      · cases ha
        simpa [h] using hf

end StackCompiler.Lowering
