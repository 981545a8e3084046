import StackCompiler.Code
import StackCompiler.Frame
import StackCompiler.FunctionTable

/-!
# Lowering

Code is lowered within scopes: the frame of the globals and, inside a function, that of its locals.
A step of lowering works on the scopes. It either gives a result or fails, and in both cases leaves
the scopes as they then are and a log of what it met. The log is only ever extended and never read.

`Runs` says what a step gives when it does not fail, and the lemmas about it take a sequence of
steps apart.
-/
namespace StackCompiler

inductive Event where
  | functions (table : FunctionTable)
  /-- No function has the name that a program starts with. -/
  | noEntry (name : String)
  /-- A statement outside of all functions that has no effect. -/
  | ignored (statement : Term)
  | globals (frame : Frame)
  /-- A call, the size of the caller's frame, and its base. -/
  | call (name : String) (size : Nat) (base : Register)
  /-- The final frame of a function. -/
  | locals (name : String) (frame : Frame)
  deriving DecidableEq, Repr

namespace Event

def level : Event → String
  | .functions _ | .globals _ | .locals _ _ => "DEBUG"
  | .noEntry _ | .ignored _ => "WARN"
  | .call _ _ _ => "TRACE"

def message : Event → String
  | .functions table => table.text
  | .noEntry name => "no `" ++ name ++ "` function, the preamble call will not resolve"
  | .ignored statement => "ignoring top-level statement " ++ statement.render
  | .globals frame => "globals: " ++ frame.text
  | .call name size base =>
    "call " ++ name ++ " with frame shift " ++ toString size ++ " from " ++ base.name
  | .locals name frame => "local table of " ++ name ++ ":\n" ++ frame.text

end Event

/-- The frames that names are looked up in. -/
structure Scopes where
  globals : Frame
  locals : Option Frame
  deriving DecidableEq, Repr

namespace Scopes

/-- The frame that new variables and staged arguments go to. -/
def current (s : Scopes) : Frame :=
  s.locals.getD s.globals

def setCurrent (s : Scopes) (f : Frame) : Scopes :=
  match s.locals with
  | some _ => { s with locals := some f }
  | none => { s with globals := f }

/-- A variable and its frame; a global hides a local of its name. -/
def find? (s : Scopes) (name : String) : Option (Frame × Variable) :=
  match s.globals.find? name with
  | some v => some (s.globals, v)
  | none =>
    match s.locals with
    | some f => (f.find? name).map (f, ·)
    | none => none

/-- The address of a variable that is declared, used with or without an index. -/
def addressOf (frame : Frame) (v : Variable) (id : NodeId) (indexed : Bool) :
    Except CompileError Address :=
  if v.isArray = indexed then .ok (frame.address v) else .error (.shapeMismatch id v.name)

end Scopes

structure Lowered (α : Type) where
  log : List Event
  scopes : Scopes
  result : Except CompileError α

def Lowering (α : Type) := Scopes → Lowered α

namespace Lowering

variable {α β : Type}

def andThen (x : Lowering α) (f : α → Lowering β) : Lowering β := fun s =>
  let y := x s
  match y.result with
  | .ok a =>
    let z := f a y.scopes
    ⟨y.log ++ z.log, z.scopes, z.result⟩
  | .error e => ⟨y.log, y.scopes, .error e⟩

instance : Monad Lowering where
  pure a s := ⟨[], s, .ok a⟩
  bind := andThen

instance : MonadLift (Except CompileError) Lowering where
  monadLift r s := ⟨[], s, r⟩

instance : MonadExceptOf CompileError Lowering where
  throw e s := ⟨[], s, .error e⟩
  tryCatch x handler s :=
    let y := x s
    match y.result with
    | .ok _ => y
    | .error e =>
      let z := handler e y.scopes
      ⟨y.log ++ z.log, z.scopes, z.result⟩

def emit (e : Event) : Lowering Unit := fun s => ⟨[e], s, .ok ()⟩

def scopes : Lowering Scopes := fun s => ⟨[], s, .ok s⟩

def current : Lowering Frame := fun s => ⟨[], s, .ok s.current⟩

def setCurrent (f : Frame) : Lowering Unit := fun s => ⟨[], s.setCurrent f, .ok ()⟩

/-- Runs a step with an empty frame of locals, which is taken away again and given back also when
the step fails. -/
def withLocals (x : Lowering α) : Lowering (α × Frame) := fun s =>
  let y := x { s with locals := some (.empty .bx) }
  let frame := y.scopes.locals.getD (.empty .bx)
  ⟨y.log, { y.scopes with locals := none }, y.result.map (·, frame)⟩

/-- From the scopes `s` the step gives `a` and leaves the scopes `s'`. -/
def Runs (x : Lowering α) (s : Scopes) (a : α) (s' : Scopes) : Prop :=
  (x s).result = .ok a ∧ (x s).scopes = s'

@[simp] theorem runs_pure {a b : α} {s s' : Scopes} :
    Runs (pure a) s b s' ↔ b = a ∧ s' = s := by
  simp only [Runs, pure, Except.ok.injEq, eq_comm]

@[simp] theorem runs_lift {r : Except CompileError α} {a : α} {s s' : Scopes} :
    Runs (liftM r) s a s' ↔ r = .ok a ∧ s' = s :=
  and_congr_right fun _ => eq_comm

@[simp] theorem not_runs_throw {e : CompileError} {a : α} {s s' : Scopes} :
    ¬ Runs (throw e) s a s' := by
  rintro ⟨h, -⟩
  cases h

@[simp] theorem runs_emit {e : Event} {u : Unit} {s s' : Scopes} :
    Runs (emit e) s u s' ↔ s' = s := by
  simp only [Runs, emit, true_and, eq_comm]

@[simp] theorem runs_scopes {r s s' : Scopes} : Runs scopes s r s' ↔ r = s ∧ s' = s := by
  simp only [Runs, scopes, Except.ok.injEq, eq_comm]

@[simp] theorem runs_current {f : Frame} {s s' : Scopes} :
    Runs current s f s' ↔ f = s.current ∧ s' = s := by
  simp only [Runs, current, Except.ok.injEq, eq_comm]

@[simp] theorem runs_setCurrent {f : Frame} {u : Unit} {s s' : Scopes} :
    Runs (setCurrent f) s u s' ↔ s' = s.setCurrent f := by
  simp only [Runs, setCurrent, true_and, eq_comm]

@[simp] theorem runs_ite {c : Prop} [Decidable c] {x y : Lowering α} {a : α} {s s' : Scopes} :
    Runs (if c then x else y) s a s' ↔ if c then Runs x s a s' else Runs y s a s' := by
  split <;> rfl

/-- A sequence succeeds if both parts do, the second from where the first ends. -/
@[simp] theorem runs_bind {x : Lowering α} {f : α → Lowering β} {b : β} {s s'' : Scopes} :
    Runs (x >>= f) s b s'' ↔ ∃ a s', Runs x s a s' ∧ Runs (f a) s' b s'' := by
  show Runs (andThen x f) s b s'' ↔ _
  unfold Runs andThen
  cases h : (x s).result with
  | error e => simp [h]
  | ok a =>
    constructor
    · intro hr
      exact ⟨a, _, ⟨rfl, rfl⟩, by simpa [h] using hr⟩
    · rintro ⟨_, _, ⟨ha, rfl⟩, hr⟩
      cases ha
      simpa [h] using hr

theorem runs_withLocals {x : Lowering α} {a : α} {frame : Frame} {s s' : Scopes} :
    Runs (withLocals x) s (a, frame) s' ↔
      ∃ t, Runs x { s with locals := some (.empty .bx) } a t ∧ frame = t.locals.getD (.empty .bx) ∧
        s' = { t with locals := none } := by
  unfold Runs withLocals
  cases h : (x { s with locals := some (.empty .bx) }).result <;>
    simp [h, Except.map, eq_comm, and_assoc]

end Lowering

end StackCompiler
