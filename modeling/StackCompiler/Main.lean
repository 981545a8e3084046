import StackCompiler.CommandLine.Run
import StackCompiler.CommandLine.Terminal

/-!
# The program

The command on the files and the terminal of the system.
-/
namespace StackCompiler.CommandLine

/-- The system's words for an error with this number, if they are known here. -/
def systemWords (code : Nat) (otherwise : String) : String :=
  match code with
  | 2 => "No such file or directory"
  | 13 => "Permission denied"
  | 20 => "Not a directory"
  | 21 => "Is a directory"
  | 36 => "File name too long"
  | _ => otherwise

def fileError : IO.Error → FileError
  | .noFileOrDirectory _ code details
  | .inappropriateType (some _) code details
  | .invalidArgument (some _) code details
  | .permissionDenied (some _) code details =>
    .system (systemWords code.toNat details) code.toNat
  | e => .system (toString e) 5

def systemHost : Host IO where
  read path := do
    try
      match String.fromUTF8? (← IO.FS.readBinFile path) with
      | some s => return .ok s
      | none => return .error .notText
    catch e => return .error (fileError e)
  write path content := do
    try
      IO.FS.writeFile path content
      return .ok ()
    catch e => return .error (fileError e)
  print := IO.print
  report := IO.eprint
  terminal := terminal

end StackCompiler.CommandLine

def main (args : List String) : IO UInt32 := do
  let outcome ← StackCompiler.CommandLine.run StackCompiler.CommandLine.systemHost args
  if let .usage := outcome then
    IO.eprintln "error: the arguments are not understood"
  return outcome.exitCode
