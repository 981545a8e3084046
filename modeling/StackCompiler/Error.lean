import StackCompiler.Arena.Basic

/-!
# Errors

Why a file cannot be used, and why a program is refused. An error about a program names the node at
fault, unless there is no program.
-/
namespace StackCompiler

inductive FileError where
  /-- The system's words and its number for the error. -/
  | system (text : String) (code : Nat)
  /-- The bytes of the file are no text. -/
  | notText
  deriving DecidableEq, Repr

namespace FileError

def notFound : FileError := .system "No such file or directory" 2

def notDirectory : FileError := .system "Not a directory" 20

def isDirectory : FileError := .system "Is a directory" 21

def nameTooLong : FileError := .system "File name too long" 36

def message : FileError → String
  | .system text code => text ++ " (os error " ++ toString code ++ ")"
  | .notText => "stream did not contain valid UTF-8"

end FileError

inductive CompileError where
  | emptyProgram
  | unexpectedNode (node : NodeId) (expected : String)
  | missingChild (node : NodeId) (what : String)
  | expectedIdent (node : NodeId)
  | duplicateFunction (node : NodeId) (name : String)
  | unknownFunction (node : NodeId) (name : String)
  | arityMismatch (node : NodeId) (name : String) (expected found : Nat)
  | unresolvedVariable (node : NodeId) (name : String)
  /-- An array without an index, or a plain variable with one. -/
  | shapeMismatch (node : NodeId) (name : String)
  | invalidDeclaration (node : NodeId) (name : String)
  | duplicateVariable (node : NodeId) (name : String)
  | nestedDefine (node : NodeId)
  | io (error : FileError)
  /-- The input is no document of a program. -/
  | yaml
  deriving DecidableEq, Repr

namespace CompileError

def message : CompileError → String
  | .emptyProgram => "Program has no statements"
  | .unexpectedNode _ expected => "Unexpected node: expected " ++ expected
  | .missingChild _ what => "Missing " ++ what
  | .expectedIdent _ => "Expected an identifier"
  | .duplicateFunction _ name => "Duplicate function: `" ++ name ++ "`"
  | .unknownFunction _ name => "Unknown function: `" ++ name ++ "`"
  | .arityMismatch _ name expected found =>
    "Function `" ++ name ++ "` takes " ++ toString expected ++ " argument(s), got " ++
      toString found
  | .unresolvedVariable _ name => "Unresolved variable: `" ++ name ++ "`"
  | .shapeMismatch _ name => "Index of `" ++ name ++ "` does not match its declaration"
  | .invalidDeclaration _ name => "Invalid declaration of `" ++ name ++ "`"
  | .duplicateVariable _ name => "Duplicate variable: `" ++ name ++ "`"
  | .nestedDefine _ => "Function definitions cannot be nested"
  | .io error => "IO error: " ++ error.message
  | .yaml => "Cannot decode AST"

def node? : CompileError → Option NodeId
  | .emptyProgram | .io _ | .yaml => none
  | .unexpectedNode node _
  | .missingChild node _
  | .expectedIdent node
  | .duplicateFunction node _
  | .unknownFunction node _
  | .arityMismatch node _ _ _
  | .unresolvedVariable node _
  | .shapeMismatch node _
  | .invalidDeclaration node _
  | .duplicateVariable node _
  | .nestedDefine node => some node

end CompileError

end StackCompiler
