import StackCompiler.CommandLine.Arguments
import StackCompiler.CommandLine.Host
import StackCompiler.Report.Diagnostic
import StackCompiler.Report.Listing
import StackCompiler.SymbolMap
import StackCompiler.Tree.Document

/-!
# The command

Reads a program, compiles it, and writes the assembly and, if asked for, the symbol map. It stops at
the first thing that fails; what was written before stays.
-/
namespace StackCompiler.CommandLine

def versionText : String := "stkc 0.1.0"

/-- An error, and the arena of the program that it is about. -/
structure Failure where
  arena : Arena
  error : CompileError

inductive Outcome where
  | success
  | failed (failure : Failure)
  /-- The arguments are not understood. -/
  | usage

def Outcome.exitCode : Outcome → UInt32
  | .success => 0
  | .failed _ => 1
  | .usage => 2

def compileText (text : String) : Except Failure Program :=
  match Arena.parseYaml? text.toList with
  | none => .error ⟨.empty, .yaml⟩
  | some a =>
    match a.compile with
    | .ok p => .ok p
    | .error e => .error ⟨a, e⟩

variable {m : Type → Type} [Monad m]

/-- A step of a run that may fail on files. -/
def onFile {α : Type} (action : m (Except FileError α)) : ExceptT Failure m α := do
  match ← (action : m _) with
  | .ok a => return a
  | .error e => throw ⟨.empty, .io e⟩

def compile (host : Host m) (o : Options) : ExceptT Failure m Unit := do
  let text ← onFile (host.read o.input)
  let p ← match compileText text with
    | .ok p => pure p
    | .error f => throw f
  if o.verbose then host.print (p.listing host.terminal)
  onFile (host.write o.output (p.render o.layout))
  if let some path := o.symbols then onFile (host.write path (SymbolMap.ofProgram p).yaml)
  host.print ("Successfully compiled " ++ o.input ++ " to " ++ o.output ++ "\n")

def run (host : Host m) (args : List String) : m Outcome := do
  match parse? args with
  | none => return .usage
  | some .version =>
    host.print (versionText ++ "\n")
    return .success
  | some (.compile o) =>
    match ← (compile host o).run with
    | .ok () => return .success
    | .error f =>
      host.report (Report.diagnostic host.terminal f.arena f.error)
      return .failed f

end StackCompiler.CommandLine
