import StackCompiler.Program
import StackCompiler.Proofs.Term.Unfolding

/-!
# Terms and runs that differ in positions only

Two terms are alike if they have the same tree; what a tree leaves out, the children of a number and
the left child of an identifier, is free. Positions of corresponding nodes are related by `R`. Two
runs of lowering are alike if they start and end in scopes that are equal but for the positions of
declarations, and either both give a result or both fail with the same error at related positions.
-/
namespace StackCompiler

namespace Variable

def anonymous (v : Variable) : Variable :=
  { v with node := 0 }

@[simp] theorem name_anonymous (v : Variable) : v.anonymous.name = v.name := rfl

/-- Variables that are equal up to positions are used in the same way. -/
theorem fields_eq {v w : Variable} (h : v.anonymous = w.anonymous) :
    v.name = w.name ∧ v.shift = w.shift ∧ v.isArray = w.isArray := by
  have hfields : v.anonymous.name = w.anonymous.name ∧ v.anonymous.shift = w.anonymous.shift ∧
      v.anonymous.isArray = w.anonymous.isArray := by
    simp only [h, and_self]
  exact hfields

end Variable

namespace Frame

/-- The frame without the positions of its declarations. -/
def anonymous (f : Frame) : Frame :=
  { f with declared := f.declared.map Variable.anonymous }

theorem find?_anonymous (f : Frame) (name : String) :
    f.anonymous.find? name = (f.find? name).map Variable.anonymous := by
  simp [find?, anonymous, List.find?_map, Function.comp_def]

/-- Frames that are equal up to positions have the same layout. -/
theorem layout_eq {f g : Frame} (h : f.anonymous = g.anonymous) :
    f.base = g.base ∧ f.size = g.size ∧ f.staged = g.staged := by
  have hlayout : f.anonymous.base = g.anonymous.base ∧ f.anonymous.size = g.anonymous.size ∧
      f.anonymous.staged = g.anonymous.staged := by
    simp only [h, and_self]
  exact hlayout

theorem declared_eq {f g : Frame} (h : f.anonymous = g.anonymous) :
    f.declared.map Variable.anonymous = g.declared.map Variable.anonymous := by
  have hdeclared : f.anonymous.declared = g.anonymous.declared := by rw [h]
  exact hdeclared

theorem isSome_find?_eq {f g : Frame} (h : f.anonymous = g.anonymous) (name : String) :
    (f.find? name).isSome = (g.find? name).isSome := by
  have hfind := congrArg (fun frame : Frame => (frame.find? name).isSome) h
  simpa [find?_anonymous] using hfind

end Frame

namespace Scopes

def anonymous (s : Scopes) : Scopes :=
  ⟨s.globals.anonymous, s.locals.map Frame.anonymous⟩

theorem current_anonymous (s : Scopes) : s.anonymous.current = s.current.anonymous := by
  obtain ⟨globals, locals⟩ := s
  cases locals <;> rfl

theorem getD_locals_anonymous (s : Scopes) (base : Register) :
    s.anonymous.locals.getD (.empty base) = (s.locals.getD (.empty base)).anonymous := by
  obtain ⟨globals, locals⟩ := s
  cases locals <;> rfl

theorem setCurrent_anonymous (s : Scopes) (f : Frame) :
    (s.setCurrent f).anonymous = s.anonymous.setCurrent f.anonymous := by
  obtain ⟨globals, locals⟩ := s
  cases locals <;> rfl

theorem find?_anonymous (s : Scopes) (name : String) :
    s.anonymous.find? name = (s.find? name).map (Prod.map Frame.anonymous Variable.anonymous) := by
  obtain ⟨globals, locals⟩ := s
  simp only [find?, anonymous, Frame.find?_anonymous]
  cases globals.find? name with
  | some v => rfl
  | none =>
    cases locals with
    | none => rfl
    | some f => simp [Frame.find?_anonymous, Function.comp_def]

theorem isSome_find?_eq {s s' : Scopes} (h : s.anonymous = s'.anonymous) (name : String) :
    (s.find? name).isSome = (s'.find? name).isSome := by
  have hfind := congrArg (fun scopes : Scopes => (scopes.find? name).isSome) h
  simpa [find?_anonymous] using hfind

/-- Scopes that are equal up to positions find the same variables. -/
theorem find?_rel {s s' : Scopes} (h : s.anonymous = s'.anonymous) (name : String) :
    Option.Rel (fun p q => p.1.anonymous = q.1.anonymous ∧ p.2.anonymous = q.2.anonymous)
      (s.find? name) (s'.find? name) := by
  have hfind := congrArg (fun scopes : Scopes => scopes.find? name) h
  simp only [find?_anonymous] at hfind
  cases hs : s.find? name with
  | none =>
    cases hs' : s'.find? name with
    | none => exact .none
    | some q => simp [hs, hs'] at hfind
  | some p =>
    cases hs' : s'.find? name with
    | none => simp [hs, hs'] at hfind
    | some q =>
      simp only [hs, hs', Option.map_some, Option.some.injEq, Prod.ext_iff, Prod.map_fst,
        Prod.map_snd] at hfind
      exact .some hfind

end Scopes

namespace CompileError

/-- The error without its position. -/
def anonymous : CompileError → CompileError
  | .emptyProgram => .emptyProgram
  | .unexpectedNode _ expected => .unexpectedNode 0 expected
  | .missingChild _ what => .missingChild 0 what
  | .expectedIdent _ => .expectedIdent 0
  | .duplicateFunction _ name => .duplicateFunction 0 name
  | .unknownFunction _ name => .unknownFunction 0 name
  | .arityMismatch _ name expected found => .arityMismatch 0 name expected found
  | .unresolvedVariable _ name => .unresolvedVariable 0 name
  | .shapeMismatch _ name => .shapeMismatch 0 name
  | .invalidDeclaration _ name => .invalidDeclaration 0 name
  | .duplicateVariable _ name => .duplicateVariable 0 name
  | .nestedDefine _ => .nestedDefine 0
  | .io error => .io error
  | .yaml => .yaml

/-- A message does not tell the position. -/
theorem message_anonymous (e : CompileError) : e.anonymous.message = e.message := by
  cases e <;> rfl

end CompileError

section

variable (R : NodeId → NodeId → Prop)

inductive Term.Alike : Term → Term → Prop
  | absent : Alike .absent .absent
  | number {m n : NodeId} {value : Number} {l l' r r' : Term} : R m n →
      Alike (.node m (.number value) l r) (.node n (.number value) l' r')
  | ident {m n : NodeId} {name : String} {l l' index index' : Term} : R m n → Alike index index' →
      Alike (.node m (.ident name) l index) (.node n (.ident name) l' index')
  | keyword {m n : NodeId} {tag : Keyword} {l l' r r' : Term} : R m n → Alike l l' → Alike r r' →
      Alike (.node m (.keyword tag) l r) (.node n (.keyword tag) l' r')

/-- Both terms are there, and alike. -/
structure Term.AlikeNodes (t u : Term) : Prop where
  alike : t.Alike R u
  present : t.isAbsent = false

structure CompileError.Alike (e e' : CompileError) : Prop where
  anonymous : e.anonymous = e'.anonymous
  node : Option.Rel R e.node? e'.node?

variable {α β γ δ : Type}

/-- Both computations give results that are related by `V`, or fail alike. -/
def ResultsAlike (V : α → β → Prop) : Except CompileError α → Except CompileError β → Prop
  | .ok a, .ok b => V a b
  | .error e, .error e' => e.Alike R e'
  | _, _ => False

structure Lowered.Alike (V : α → β → Prop) (x : Lowered α) (y : Lowered β) : Prop where
  scopes : x.scopes.anonymous = y.scopes.anonymous
  result : ResultsAlike R V x.result y.result

/-- From scopes that are equal up to positions the steps run alike. -/
def Lowering.Alike (V : α → β → Prop) (x : Lowering α) (y : Lowering β) : Prop :=
  ∀ s s', s.anonymous = s'.anonymous → (x s).Alike R V (y s')

end

variable {R : NodeId → NodeId → Prop} {α β γ δ : Type} {V : α → β → Prop} {W : γ → δ → Prop}

theorem Term.Alike.isAbsent_eq {t u : Term} (h : t.Alike R u) : t.isAbsent = u.isAbsent := by
  cases h <;> rfl

theorem Term.Alike.keyword?_eq {t u : Term} (h : t.Alike R u) : t.keyword? = u.keyword? := by
  cases h <;> rfl

namespace Term.AlikeNodes

variable {t u : Term}

theorem id (h : t.AlikeNodes R u) : R t.id u.id := by
  obtain ⟨halike, hpresent⟩ := h
  cases halike with
  | absent => cases hpresent
  | number hR => exact hR
  | ident hR _ => exact hR
  | keyword hR _ _ => exact hR

end Term.AlikeNodes

namespace ResultsAlike

theorem cases {x : Except CompileError α} {y : Except CompileError β} (h : ResultsAlike R V x y) :
    (∃ a b, x = .ok a ∧ y = .ok b ∧ V a b) ∨
      ∃ e e', x = .error e ∧ y = .error e' ∧ e.Alike R e' := by
  cases x with
  | error e =>
    cases y with
    | error e' => exact .inr ⟨e, e', rfl, rfl, h⟩
    | ok b => exact h.elim
  | ok a =>
    cases y with
    | error e' => exact h.elim
    | ok b => exact .inl ⟨a, b, rfl, rfl, h⟩

/-- What relates the results may refer to the computations. -/
theorem and_eq {x : Except CompileError α} {y : Except CompileError β} (h : ResultsAlike R V x y) :
    ResultsAlike R (fun a b => V a b ∧ x = .ok a ∧ y = .ok b) x y := by
  rcases h.cases with ⟨a, b, rfl, rfl, hV⟩ | ⟨e, e', rfl, rfl, herror⟩
  · exact ⟨hV, rfl, rfl⟩
  · exact herror

theorem bind {x : Except CompileError α} {y : Except CompileError β}
    {f : α → Except CompileError γ} {g : β → Except CompileError δ} (h : ResultsAlike R V x y)
    (hfg : ∀ a b, V a b → ResultsAlike R W (f a) (g b)) : ResultsAlike R W (x >>= f) (y >>= g) := by
  rcases h.cases with ⟨a, b, rfl, rfl, hV⟩ | ⟨e, e', rfl, rfl, herror⟩
  · exact hfg a b hV
  · exact herror

theorem ite {c c' : Prop} [Decidable c] [Decidable c'] {x x' : Except CompileError α}
    {y y' : Except CompileError β} (hc : c ↔ c') (hx : c → ResultsAlike R V x y)
    (hy : ¬ c → ResultsAlike R V x' y') :
    ResultsAlike R V (if c then x else x') (if c' then y else y') := by
  by_cases h : c
  · rw [if_pos h, if_pos (hc.mp h)]
    exact hx h
  · rw [if_neg h, if_neg (mt hc.mpr h)]
    exact hy h

end ResultsAlike

namespace Lowering

theorem Alike.bind {x : Lowering α} {y : Lowering β} {f : α → Lowering γ} {g : β → Lowering δ}
    (h : x.Alike R V y) (hfg : ∀ a b, V a b → (f a).Alike R W (g b)) :
    (x >>= f).Alike R W (y >>= g) := by
  intro s s' hs
  obtain ⟨hscopes, hresult⟩ := h s s' hs
  show (andThen x f s).Alike R W (andThen y g s')
  rcases hresult.cases with ⟨a, b, hx, hy, hV⟩ | ⟨e, e', hx, hy, herror⟩
  · obtain ⟨hscopes', hresult'⟩ := hfg a b hV _ _ hscopes
    simp only [andThen, hx, hy]
    exact ⟨hscopes', hresult'⟩
  · simp only [andThen, hx, hy]
    exact ⟨hscopes, herror⟩

theorem alike_pure {a : α} {b : β} (h : V a b) : (pure a : Lowering α).Alike R V (pure b) :=
  fun _ _ hs => ⟨hs, h⟩

theorem alike_throw {e e' : CompileError} (h : e.Alike R e') :
    (throw e : Lowering α).Alike R V (throw e' : Lowering β) :=
  fun _ _ hs => ⟨hs, h⟩

theorem alike_throw_bind {e e' : CompileError} {f : α → Lowering γ} {g : β → Lowering δ}
    (h : e.Alike R e') : (throw e >>= f).Alike R W (throw e' >>= g) :=
  (alike_throw (V := fun _ _ => False) h).bind fun _ _ hfalse => hfalse.elim

theorem alike_lift {r : Except CompileError α} {r' : Except CompileError β}
    (h : ResultsAlike R V r r') : (liftM r : Lowering α).Alike R V (liftM r') :=
  fun _ _ hs => ⟨hs, h⟩

theorem alike_emit (e e' : Event) : (emit e).Alike R Eq (emit e') :=
  fun _ _ hs => ⟨hs, rfl⟩

theorem alike_scopes : scopes.Alike R (fun s s' => s.anonymous = s'.anonymous) scopes :=
  fun _ _ hs => ⟨hs, hs⟩

theorem alike_current : current.Alike R (fun f f' => f.anonymous = f'.anonymous) current := by
  intro s s' hs
  refine ⟨hs, ?_⟩
  show s.current.anonymous = s'.current.anonymous
  rw [← Scopes.current_anonymous, hs, Scopes.current_anonymous]

theorem alike_setCurrent {f f' : Frame} (h : f.anonymous = f'.anonymous) :
    (setCurrent f).Alike R Eq (setCurrent f') := by
  intro s s' hs
  refine ⟨?_, rfl⟩
  show (s.setCurrent f).anonymous = (s'.setCurrent f').anonymous
  rw [Scopes.setCurrent_anonymous, Scopes.setCurrent_anonymous, hs, h]

theorem alike_ite {c c' : Prop} [Decidable c] [Decidable c'] {x x' : Lowering α} {y y' : Lowering β}
    (hc : c ↔ c') (hx : c → x.Alike R V y) (hy : ¬ c → x'.Alike R V y') :
    (if c then x else x').Alike R V (if c' then y else y') := by
  by_cases h : c
  · rw [if_pos h, if_pos (hc.mp h)]
    exact hx h
  · rw [if_neg h, if_neg (mt hc.mpr h)]
    exact hy h

theorem alike_withLocals {x : Lowering α} {y : Lowering β} (h : x.Alike R V y) :
    (withLocals x).Alike R (fun p q => V p.1 q.1 ∧ p.2.anonymous = q.2.anonymous)
    (withLocals y) := by
  intro s s' hs
  have hglobals : s.globals.anonymous = s'.globals.anonymous := congrArg Scopes.globals hs
  have hstart : Scopes.anonymous ⟨s.globals, some (.empty .bx)⟩ =
      Scopes.anonymous ⟨s'.globals, some (.empty .bx)⟩ := by
    simp only [Scopes.anonymous, hglobals]
  obtain ⟨hscopes, hresult⟩ := h _ _ hstart
  have hend : Scopes.anonymous { (x _).scopes with locals := none } =
      Scopes.anonymous { (y _).scopes with locals := none } :=
    congrArg (fun t : Scopes => { t with locals := none }) hscopes
  have hframe := congrArg (fun t : Scopes => t.locals.getD (.empty .bx)) hscopes
  simp only [Scopes.getD_locals_anonymous] at hframe
  rcases hresult.cases with ⟨a, b, hx, hy, hV⟩ | ⟨e, e', hx, hy, herror⟩
  · refine ⟨hend, ?_⟩
    simp only [withLocals, hx, hy]
    exact ⟨hV, hframe⟩
  · refine ⟨hend, ?_⟩
    simp only [withLocals, hx, hy]
    exact herror

end Lowering

end StackCompiler
