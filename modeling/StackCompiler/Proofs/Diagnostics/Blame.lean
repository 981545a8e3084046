import StackCompiler.Proofs.Diagnostics.Place
import StackCompiler.Proofs.Lowering.Outcome
import StackCompiler.Proofs.Lowering.Program

/-!
# Errors and the places of their nodes

`Blames` says of a step with which errors it can fail, and the lemmas about it take a sequence of
steps apart. The accessors of terms fail with errors that the place of their node explains.
-/
namespace StackCompiler

namespace Lowering

variable {α β : Type} {J : CompileError → Prop} {s : Scopes}

/-- From the scopes `s` the step fails only with errors that satisfy `J`. -/
def Blames (J : CompileError → Prop) (x : Lowering α) (s : Scopes) : Prop :=
  ∀ e, Fails x s e → J e

@[simp] theorem blames_pure {a : α} : Blames J (pure a) s :=
  nofun

@[simp] theorem blames_throw {e : CompileError} : Blames J (throw e : Lowering α) s ↔ J e := by
  constructor
  · intro h
    exact h e rfl
  · rintro h _ ⟨⟩
    exact h

theorem blames_bind {x : Lowering α} {f : α → Lowering β} :
    Blames J (x >>= f) s ↔ Blames J x s ∧ ∀ a s', Runs x s a s' → Blames J (f a) s' := by
  unfold Blames
  simp only [fails_bind]
  constructor
  · intro h
    exact ⟨fun e he => h e (.inl he), fun a s' hrun e he => h e (.inr ⟨a, s', hrun, he⟩)⟩
  · rintro ⟨hx, hf⟩ e (he | ⟨a, s', hrun, he⟩)
    · exact hx e he
    · exact hf a s' hrun e he

@[simp] theorem blames_bind_pure {x : Lowering α} {g : α → β} :
    Blames J (x >>= fun a => pure (g a)) s ↔ Blames J x s := by
  simp [blames_bind]

@[simp] theorem blames_throw_bind {e : CompileError} {f : α → Lowering β} :
    Blames J (throw e >>= f) s ↔ J e := by
  simp [blames_bind]

theorem blames_lift {r : Except CompileError α} :
    Blames J (liftM r) s ↔ ∀ e, r = .error e → J e :=
  Iff.rfl

@[simp] theorem blames_lift_bind {r : Except CompileError α} {f : α → Lowering β} :
    Blames J (liftM r >>= f) s ↔ (∀ e, r = .error e → J e) ∧ ∀ a, r = .ok a → Blames J (f a) s := by
  simp [blames_bind, blames_lift]

@[simp] theorem blames_emit {e : Event} : Blames J (emit e) s :=
  nofun

@[simp] theorem blames_scopes : Blames J scopes s :=
  nofun

@[simp] theorem blames_current : Blames J current s :=
  nofun

@[simp] theorem blames_setCurrent {frame : Frame} : Blames J (setCurrent frame) s :=
  nofun

@[simp] theorem blames_emit_bind {e : Event} {f : Unit → Lowering β} :
    Blames J (emit e >>= f) s ↔ Blames J (f ()) s := by
  simp [blames_bind, Unique.forall_iff]

@[simp] theorem blames_scopes_bind {f : Scopes → Lowering β} :
    Blames J (scopes >>= f) s ↔ Blames J (f s) s := by
  simp [blames_bind]

@[simp] theorem blames_current_bind {f : Frame → Lowering β} :
    Blames J (current >>= f) s ↔ Blames J (f s.current) s := by
  simp [blames_bind]

@[simp] theorem blames_setCurrent_bind {frame : Frame} {f : Unit → Lowering β} :
    Blames J (setCurrent frame >>= f) s ↔ Blames J (f ()) (s.setCurrent frame) := by
  simp [blames_bind, Unique.forall_iff]

@[simp] theorem blames_ite {c : Prop} [Decidable c] {x y : Lowering α} :
    Blames J (if c then x else y) s ↔ if c then Blames J x s else Blames J y s := by
  split <;> rfl

theorem blames_withLocals {x : Lowering α} :
    Blames J (withLocals x) s ↔ Blames J x { s with locals := some (.empty .bx) } := by
  unfold Blames Fails withLocals
  cases h : (x { s with locals := some (.empty .bx) }).result <;> simp [h, Except.map]

end Lowering

namespace Arena

/-- The error names a node of the program that justifies it. -/
structure Explains (a : Arena) (e : CompileError) : Prop where
  justified : a.Justifies e
  reaches : ∀ id, e.node? = some id → a.Reaches id

/-- The term is part of the arena and stands at a place. -/
structure At (a : Arena) (place : Place) (t : Term) : Prop where
  holds : a.Holds t
  stands : ∀ id, t.id? = some id → a.Stands place id

variable {a : Arena} {place below : Place} {id : NodeId} {kind : Kind} {l r t : Term}

theorem At.left (h : a.At place (.node id kind l r))
    (hbelow : (place.children kind).1.place? = some below) : a.At below l :=
  ⟨h.holds.2.1, fun _ hid => .left (h.stands id rfl) h.holds.1 hbelow hid⟩

theorem At.right (h : a.At place (.node id kind l r))
    (hbelow : (place.children kind).2.place? = some below) : a.At below r :=
  ⟨h.holds.2.2, fun _ hid => .right (h.stands id rfl) h.holds.1 hbelow hid⟩

theorem At.node (h : a.At place (.node id kind l r)) : a.Stands place id :=
  h.stands id rfl

theorem At.isIdent {name : String} (h : a.At place (.node id (.ident name) l r)) :
    a.IsIdent id name :=
  ⟨_, h.holds.1, rfl⟩

theorem Stands.explains {e : CompileError} (h : a.Stands place id) (hnode : e.node? = some id)
    (hjustified : a.Justifies e) : a.Explains e := by
  refine ⟨hjustified, fun other hother => ?_⟩
  obtain rfl : id = other := Option.some.inj (hnode.symm.trans hother)
  exact h.reaches

/-- A sequence of checks fails as the first does, or else as the second does. -/
theorem error_of_bind {α β : Type} {x : Except CompileError α} {f : α → Except CompileError β}
    {e : CompileError} (h : (x >>= f) = .error e) :
    x = .error e ∨ ∃ v, x = .ok v ∧ f v = .error e := by
  cases x with
  | error e' =>
    cases h
    exact .inl rfl
  | ok v => exact .inr ⟨v, rfl, h⟩

theorem id?_eq_none (h : t.isAbsent = true) : t.id? = none := by
  rwa [Term.isAbsent_eq_isNone, Option.isNone_iff_eq_none] at h

theorem require_eq_error {what : String} {e : CompileError} (h : t.require id what = .error e) :
    t.isAbsent = true ∧ e = .missingChild id what := by
  unfold Term.require at h
  split_ifs at h with habsent
  cases h
  exact ⟨habsent, rfl⟩

theorem At.explains_left {what : String} (h : a.At place (.node id kind l r))
    (hneeded : (place.children kind).1.needed? = some what) {e : CompileError}
    (he : l.require id what = .error e) : a.Explains e := by
  obtain ⟨habsent, rfl⟩ := require_eq_error he
  exact h.node.explains rfl ⟨place, _, h.node, h.holds.1, .inl ⟨id?_eq_none habsent, hneeded⟩⟩

theorem At.explains_right {what : String} (h : a.At place (.node id kind l r))
    (hneeded : (place.children kind).2.needed? = some what) {e : CompileError}
    (he : r.require id what = .error e) : a.Explains e := by
  obtain ⟨habsent, rfl⟩ := require_eq_error he
  exact h.node.explains rfl ⟨place, _, h.node, h.holds.1, .inr ⟨id?_eq_none habsent, hneeded⟩⟩

theorem At.explains_unexpected {expected : String} (h : a.At place (.node id kind l r))
    (hadmits : place.admits kind = false) (hexpected : place.expected? = some expected) :
    a.Explains (.unexpectedNode id expected) :=
  h.node.explains rfl ⟨place, _, h.node, h.holds.1, hadmits, hexpected⟩

theorem At.explains_expectIdent (h : a.At place t) (hpresent : t.isAbsent = false)
    (hplace : place.isName = true) {e : CompileError} (he : t.expectIdent = .error e) :
    a.Explains e := by
  cases t with
  | absent => cases hpresent
  | dangling id => exact h.holds.elim
  | node id kind l r =>
    have hkind : e = .expectedIdent id ∧ ∀ name, kind ≠ .ident name := by
      cases kind with
      | number n =>
        cases he
        exact ⟨rfl, nofun⟩
      | ident name => cases he
      | keyword tag =>
        cases he
        exact ⟨rfl, nofun⟩
    obtain ⟨rfl, hkind⟩ := hkind
    exact h.node.explains rfl ⟨place, _, h.node, h.holds.1, hplace, hkind⟩

/-- A chain that is none is refused at a link. -/
theorem At.explains_elements {tag : Keyword} {element : Place} (h : a.At place t)
    (hplace : place.chain? = some (tag, element)) {e : CompileError}
    (he : t.elements tag = .error e) : a.Explains e := by
  have hexpected : place.expected? = some (Term.quotedKeyword tag) := by
    simp [Place.expected?, hplace]
  induction t with
  | absent => cases he
  | dangling id => exact h.holds.elim
  | node id kind before item ih _ =>
    by_cases hkind : kind = .keyword tag
    swap
    · simp only [Term.elements, ne_eq, hkind, not_false_eq_true, if_true] at he
      cases he
      exact h.explains_unexpected (by simp [Place.admits, hplace, hkind]) hexpected
    subst hkind
    have hchildren := Place.children_link hplace
    simp only [Term.elements, ne_eq, not_true_eq_false, if_false] at he
    rcases error_of_bind he with hitem | ⟨_, -, he⟩
    · exact h.explains_right (by rw [hchildren]; rfl) hitem
    rcases error_of_bind he with hbefore | ⟨ts, -, he⟩
    · exact ih (h.left (by rw [hchildren]; rfl)) hbefore
    · cases he

/-- The elements of a chain stand where its place says. -/
theorem At.links {tag : Keyword} {element : Place} (h : a.At place t)
    (hplace : place.chain? = some (tag, element)) (hchain : t.IsChain tag) {u : Term}
    (hu : u ∈ t.links) : a.At element u ∧ u.isAbsent = false := by
  induction hchain with
  | absent => cases hu
  | @link id before last _ hlast ih =>
    have hchildren := Place.children_link hplace
    rcases List.mem_append.mp hu with hu | hu
    · exact ih (h.left (by rw [hchildren]; rfl)) hu
    · rw [List.mem_singleton.mp hu]
      exact ⟨h.right (by rw [hchildren]; rfl), hlast⟩

end Arena

end StackCompiler
