import StackCompiler.Lowering.Statement

/-!
# Programs

A program is a chain of statements. Assignments at its top level initialize the globals, in order;
definitions give the functions; other statements have no effect. The code starts with the
initializers, then places the first frame behind the globals, calls the entry function and halts.
The functions follow, each under its label.
-/
namespace StackCompiler

structure Program where
  code : Code
  functions : FunctionTable
  globals : Frame
  /-- The final frame of each function, in the order of the table. -/
  frames : List (String × Frame)
  deriving DecidableEq, Repr

namespace Program

def entry : String := "main"

def frame? (p : Program) (name : String) : Option Frame :=
  (p.frames.find? (·.1 == name)).map Prod.snd

def render (p : Program) (layout : Layout) : String :=
  p.code.render layout

end Program

namespace Lowering

def initializers (table : FunctionTable) : List Term → Lowering Code
  | [] => pure []
  | t :: rest =>
    match t with
    | .node id (.keyword .assign) left right => do
      let code ← assignment table id left right
      let more ← initializers table rest
      return code ++ more
    | .node _ (.keyword .define) _ _ => initializers table rest
    | _ => do
      emit (.ignored t)
      initializers table rest

/-- Places the first frame behind `size` globals and runs the entry function. -/
def preamble (size : Nat) : Code :=
  .ofInstructions
    [.push (.register .cx), .push (.number (.ofNat size)), .plain .add,
      .pop (some (.register .bx)), .transfer .call Program.entry, .plain .halt]

def definitions (table : FunctionTable) : List Function → Lowering (Code × List (String × Frame))
  | [] => pure ([], [])
  | f :: rest => do
    let (code, frame) ← definition table f
    let (more, frames) ← definitions table rest
    return (code ++ more, (f.name, frame) :: frames)

/-- The program of some statements whose functions are known. -/
def programOf (table : FunctionTable) (statements : List Term) : Lowering Program := do
  let start ← initializers table statements
  let size := (← scopes).globals.size
  emit (.globals (← scopes).globals)
  let (bodies, frames) ← definitions table table
  return ⟨start ++ preamble size ++ bodies, table, (← scopes).globals, frames⟩

def program (t : Term) : Lowering Program := do
  if t.isAbsent then throw .emptyProgram
  let table ← FunctionTable.build t
  emit (.functions table)
  if (table.get? Program.entry).isNone then emit (.noEntry Program.entry)
  programOf table (← t.elements .stmt)

end Lowering

/-- Compiles the program of an arena, with the log of the compilation. -/
def Arena.lower (a : Arena) : Lowered Program :=
  Lowering.program a.rootTerm ⟨.empty .cx, none⟩

def Arena.compile (a : Arena) : Except CompileError Program :=
  a.lower.result

end StackCompiler
