import StackCompiler.Lowering.Statement
import StackCompiler.Proofs.Lowering.Expression

/-!
# Functions are lowered apart from each other

Lowering a piece of code changes nothing but the current frame: inside a function the globals are
only read. This holds also of a step that fails on the way, say with some arguments of a call staged
and not released. At the end of a function the frame of its locals is taken away in any case, so
that nothing of a function is left for the next one.
-/
namespace StackCompiler.Lowering

open Instruction

variable {α β : Type}

/-- The step changes nothing but the current frame, whether it succeeds or fails. -/
def Confined (x : Lowering α) : Prop :=
  ∀ s, ∃ frame, (x s).scopes = s.setCurrent frame

theorem confined_of_scopes_eq {x : Lowering α} (h : ∀ s, (x s).scopes = s) : Confined x :=
  fun s => ⟨s.current, by rw [h, Scopes.setCurrent_current]⟩

theorem confined_pure (a : α) : Confined (pure a) :=
  confined_of_scopes_eq fun _ => rfl

theorem confined_throw (e : CompileError) : Confined (throw e : Lowering α) :=
  confined_of_scopes_eq fun _ => rfl

theorem confined_lift (r : Except CompileError α) : Confined (liftM r : Lowering α) :=
  confined_of_scopes_eq fun _ => rfl

theorem confined_emit (e : Event) : Confined (emit e) :=
  confined_of_scopes_eq fun _ => rfl

theorem confined_scopes : Confined scopes :=
  confined_of_scopes_eq fun _ => rfl

theorem confined_current : Confined current :=
  confined_of_scopes_eq fun _ => rfl

theorem confined_setCurrent (f : Frame) : Confined (setCurrent f) :=
  fun _ => ⟨f, rfl⟩

/-- A sequence leaves the scopes of its first part if that fails, and else those of its second. -/
theorem scopes_bind (x : Lowering α) (f : α → Lowering β) (s : Scopes) :
    ((x >>= f) s).scopes = (x s).scopes ∨
      ∃ a, ((x >>= f) s).scopes = (f a (x s).scopes).scopes := by
  show (andThen x f s).scopes = _ ∨ ∃ a, (andThen x f s).scopes = _
  unfold andThen
  cases h : (x s).result with
  | error e => exact .inl (by simp [h])
  | ok a => exact .inr ⟨a, by simp [h]⟩

theorem scopes_bind_eq {x : Lowering α} {f : α → Lowering β} {s : Scopes} (hx : (x s).scopes = s)
    (hf : ∀ a, (f a s).scopes = s) : ((x >>= f) s).scopes = s := by
  rcases scopes_bind x f s with hfails | ⟨a, hsecond⟩
  · exact hfails.trans hx
  · rw [hsecond, hx, hf]

theorem Confined.bind {x : Lowering α} {f : α → Lowering β} (hx : Confined x)
    (hf : ∀ a, Confined (f a)) : Confined (x >>= f) := by
  intro s
  obtain ⟨frame, hfirst⟩ := hx s
  rcases scopes_bind x f s with hfails | ⟨a, hsecond⟩
  · exact ⟨frame, hfails.trans hfirst⟩
  · obtain ⟨frame', hrest⟩ := hf a (s.setCurrent frame)
    refine ⟨frame', ?_⟩
    rw [hsecond, hfirst, hrest, Scopes.setCurrent_setCurrent]

theorem Confined.ite {c : Prop} [Decidable c] {x y : Lowering α} (hx : Confined x)
    (hy : Confined y) : Confined (if c then x else y) := by
  split
  · exact hx
  · exact hy

/-- A check, and what follows it. -/
theorem Confined.check {c : Prop} [Decidable c] {e : CompileError} {f : Unit → Lowering β}
    (hf : ∀ u, Confined (f u)) : Confined (if c then throw e >>= f else f ()) :=
  Confined.ite ((confined_throw e).bind hf) (hf ())

section Expressions

variable {table : FunctionTable}

theorem confined_loadShift {index : Term} {code : Lowering (List Instruction)} (h : Confined code) :
    Confined (loadShift index code) := by
  have hload : ∀ value : List Instruction,
      Confined (pure (value ++ [.pop (some (.register .hx))])) :=
    fun _ => confined_pure _
  exact Confined.ite ((confined_pure _).bind hload) (h.bind hload)

theorem confined_resolved {id : NodeId} {name : String} {index : Term}
    {code : Lowering (List Instruction)} (h : Confined code) :
    Confined (resolved id name index code) := by
  apply confined_scopes.bind
  intro s
  split
  · exact confined_throw _
  · apply (confined_lift _).bind
    intro address
    exact (confined_loadShift h).bind fun _ => confined_pure _

theorem confined_stage : Confined stage := by
  apply confined_current.bind
  intro frame
  exact (confined_setCurrent _).bind fun _ => confined_pure _

theorem confined_release (count : Nat) : Confined (release count) := by
  induction count with
  | zero => exact confined_pure _
  | succ count ih =>
    rw [release]
    apply confined_current.bind
    intro frame
    dsimp only
    split
    · exact (confined_setCurrent _).bind fun _ => ih
    · exact ih

/-- Where an argument fails, the slots of those before it stay reserved, but in the function's
frame. -/
theorem confined_callWith {id : NodeId} {callee args : Term} {staging : Lowering (List Instruction)}
    (h : Confined staging) : Confined (callWith table id callee args staging) := by
  unfold callWith
  apply (confined_lift _).bind
  intro f
  apply (confined_lift _).bind
  intro elements
  refine Confined.check fun _ => ?_
  apply h.bind
  intro staged
  apply (confined_release _).bind
  intro _
  apply confined_current.bind
  intro frame
  exact (confined_emit _).bind fun _ => confined_pure _

theorem confined_operator {id : NodeId} {tag : Keyword} {left right : Term}
    (hleft : Confined (expression table left)) (hright : Confined (expression table right))
    (hargs : Confined (arguments table right)) :
    Confined (expression table (.node id (.keyword tag) left right)) := by
  rw [expression]
  apply Confined.ite (confined_callWith hargs)
  split
  · apply (confined_lift _).bind
    intro _
    apply hleft.bind
    intro a
    apply (confined_lift _).bind
    intro _
    exact hright.bind fun _ => confined_pure _
  · apply (confined_lift _).bind
    intro _
    exact hright.bind fun _ => confined_pure _
  · exact hright.bind fun _ => confined_pure _
  · exact confined_throw _

theorem confined_expression_arguments (table : FunctionTable) (t : Term) :
    Confined (expression table t) ∧ Confined (arguments table t) := by
  induction t with
  | absent => exact ⟨confined_pure _, confined_pure _⟩
  | dangling id => exact ⟨confined_throw _, confined_pure _⟩
  | node id kind left right ihl ihr =>
    constructor
    · cases kind with
      | number n => exact confined_pure _
      | ident name =>
        rw [expression]
        exact (confined_resolved ihr.1).bind fun _ => confined_pure _
      | keyword tag => exact confined_operator ihl.1 ihr.1 ihr.2
    · rw [arguments]
      apply ihl.2.bind
      intro staged
      apply ihr.1.bind
      intro value
      exact confined_stage.bind fun _ => confined_pure _

theorem confined_expression (table : FunctionTable) (t : Term) : Confined (expression table t) :=
  (confined_expression_arguments table t).1

end Expressions

section Statements

variable {table : FunctionTable}

theorem confined_target (t : Term) : Confined (target table t) := by
  apply (confined_lift _).bind
  intro name
  apply confined_scopes.bind
  intro s
  apply Confined.ite (confined_resolved (confined_expression table t.right))
  apply confined_current.bind
  intro frame
  apply (confined_lift _).bind
  intro declared
  exact (confined_setCurrent _).bind fun _ => confined_pure _

theorem confined_assignment (id : NodeId) (left right : Term) :
    Confined (assignment table id left right) := by
  apply (confined_lift _).bind
  intro _
  apply (confined_lift _).bind
  intro _
  apply (confined_expression table right).bind
  intro value
  exact (confined_target left).bind fun _ => confined_pure _

theorem confined_display (id : NodeId) (left right : Term) :
    Confined (display table id left right) := by
  apply (confined_lift _).bind
  intro _
  apply (confined_lift _).bind
  intro name
  apply (confined_resolved (confined_expression table left.right)).bind
  intro shown
  apply (confined_lift _).bind
  intro _
  exact (confined_expression table right).bind fun _ => confined_pure _

theorem confined_evaluated (id : NodeId) (right : Term) (what : String) (rest : List Instruction) :
    Confined (evaluated table id right what rest) := by
  apply (confined_lift _).bind
  intro _
  exact (confined_expression table right).bind fun _ => confined_pure _

theorem confined_conditional {id d : NodeId} {condition thenPart elsePart : Term}
    (hthen : Confined (statements table thenPart)) (helse : Confined (statements table elsePart)) :
    Confined (statement table
      (.node id (.keyword .ifThen) condition
        (.node d (.keyword .decision) thenPart elsePart))) := by
  rw [statement]
  apply (confined_lift _).bind
  intro _
  apply (confined_lift _).bind
  intro _
  apply (confined_lift _).bind
  intro _
  apply (confined_expression table condition).bind
  intro test
  apply (confined_lift _).bind
  intro _
  apply hthen.bind
  intro thenCode
  apply Confined.ite (confined_pure _)
  apply (confined_lift _).bind
  intro _
  exact helse.bind fun _ => confined_pure _

theorem confined_loop {id : NodeId} {condition body : Term}
    (hbody : Confined (statements table body)) :
    Confined (statement table (.node id (.keyword .whileLoop) condition body)) := by
  apply (confined_lift _).bind
  intro _
  apply (confined_lift _).bind
  intro _
  apply (confined_expression table condition).bind
  intro test
  apply (confined_lift _).bind
  intro _
  exact hbody.bind fun _ => confined_pure _

theorem confined_statement_statements (table : FunctionTable) (t : Term) :
    Confined (statement table t) ∧ Confined (statements table t) := by
  apply Term.statement_induction (t := t)
  case absent => exact ⟨confined_pure _, confined_pure _⟩
  case dangling => exact fun id => ⟨confined_throw _, confined_pure _⟩
  case conditional =>
    intro id condition d thenPart elsePart hthen helse
    exact confined_conditional hthen helse
  case undecided =>
    intro id condition right hright
    rw [statement_conditional_other hright]
    apply (confined_lift _).bind
    intro _
    exact (confined_lift _).bind fun _ => confined_throw _
  case loop =>
    intro id condition body hbody
    exact confined_loop hbody
  case simple =>
    intro id kind left right hif hwhile
    cases kind with
    | number n => exact confined_throw _
    | ident name => exact confined_throw _
    | keyword tag =>
      cases tag with
      | assign => exact confined_assignment id left right
      | ifThen => exact absurd rfl hif
      | whileLoop => exact absurd rfl hwhile
      | ret => exact confined_evaluated id right _ _
      | display => exact confined_display id left right
      | out => exact confined_evaluated id right _ _
      | call =>
        have hargs := (confined_expression_arguments table right).2
        exact (confined_callWith hargs).bind fun _ => confined_pure _
      | _ => exact confined_throw _
  case chain =>
    intro id kind before last hbefore hlast
    apply hbefore.bind
    intro code
    exact hlast.bind fun _ => confined_pure _

theorem confined_block (t : Term) : Confined (block table t) := by
  apply (confined_lift _).bind
  intro _
  exact (confined_statement_statements table t).2

theorem confined_parameters (ts : List Term) : Confined (parameters ts) := by
  induction ts with
  | nil => exact confined_pure _
  | cons t rest ih =>
    rw [parameters]
    apply (confined_lift _).bind
    intro name
    refine Confined.check fun _ => ?_
    apply confined_scopes.bind
    intro s
    refine Confined.check fun _ => ?_
    apply confined_current.bind
    intro frame
    apply (confined_lift _).bind
    intro declared
    exact (confined_setCurrent _).bind fun _ => ih

end Statements

theorem confined_body (table : FunctionTable) (f : Function) :
    Confined (parameters f.params >>= fun _ => block table f.body) :=
  (confined_parameters f.params).bind fun _ => confined_block f.body

/-- Lowering a function outside of all others ends outside of it, with the globals as they were. -/
theorem scopes_definition (table : FunctionTable) (f : Function) (globals : Frame) :
    (definition table f ⟨globals, none⟩).scopes = ⟨globals, none⟩ := by
  have hlocals : (withLocals (parameters f.params >>= fun _ => block table f.body)
      ⟨globals, none⟩).scopes = ⟨globals, none⟩ := by
    obtain ⟨frame, hbody⟩ := confined_body table f ⟨globals, some (.empty .bx)⟩
    simp only [withLocals, hbody]
    rfl
  apply scopes_bind_eq rfl
  intro _
  apply scopes_bind_eq hlocals
  intro lowered
  exact scopes_bind_eq rfl fun _ => rfl

/-- Lowers functions one after the other, each from the scopes that the one before it leaves. -/
def inTurn (table : FunctionTable) : Scopes → List Function → List (Lowered (Code × Frame))
  | _, [] => []
  | s, f :: rest =>
    let lowered := definition table f s
    lowered :: inTurn table lowered.scopes rest

/-- What lowering a function gives does not depend on what was lowered before it, be it well formed
or not: each of a sequence of functions comes out as it does alone, and leaves the globals as they
were and no locals. -/
theorem functions_lowered_apart (table : FunctionTable) (globals : Frame) (fs : List Function) :
    inTurn table ⟨globals, none⟩ fs = fs.map (function table globals) ∧
      (inTurn table ⟨globals, none⟩ fs).map Lowered.scopes =
        List.replicate fs.length ⟨globals, none⟩ := by
  induction fs with
  | nil => exact ⟨rfl, rfl⟩
  | cons f rest ih =>
    obtain ⟨hrest, hscopes⟩ := ih
    simp only [inTurn, scopes_definition, List.map_cons, List.length_cons, List.replicate_succ]
    exact ⟨congrArg (definition table f ⟨globals, none⟩ :: ·) hrest, congrArg (_ :: ·) hscopes⟩

end StackCompiler.Lowering
