import StackCompiler.Arena.Term

/-!
# Function tables

The functions of a program, in the order of their definitions. Names are distinct and can serve as
labels: they are words without a point, which generated labels have, and without a colon.
-/
namespace StackCompiler

structure Function where
  name : String
  /-- The definition. -/
  node : NodeId
  params : List Term
  body : Term
  deriving DecidableEq, Repr

namespace Function

def arity (f : Function) : Nat :=
  f.params.length

def signature (f : Function) : String :=
  f.name ++ "(" ++ String.intercalate ", " (f.params.map fun p => p.ident?.getD "?") ++ ")"

def isName (name : String) : Bool :=
  !name.isEmpty && !name.toList.any fun c => c == '.' || c == ':' || Text.isBlank c

end Function

abbrev FunctionTable := List Function

namespace FunctionTable

def get? (table : FunctionTable) (name : String) : Option Function :=
  table.find? (·.name == name)

/-- The function that a definition gives, if its name is not in the table. -/
def functionOf (table : FunctionTable) (definition : Term) : Except CompileError Function := do
  definition.expectKeyword .define
  let header ← definition.requireLeft "function header"
  header.expectKeyword .func
  let nameTerm ← header.requireLeft "function name"
  let name ← nameTerm.expectIdent
  if !Function.isName name then throw (.invalidDeclaration nameTerm.id name)
  if (table.get? name).isSome then throw (.duplicateFunction nameTerm.id name)
  let params ← header.right.elements .param
  return ⟨name, definition.id, params, definition.right⟩

def declare (table : FunctionTable) (definition : Term) :
    Except CompileError (Function × FunctionTable) := do
  let f ← table.functionOf definition
  return (f, table ++ [f])

def declareAll : FunctionTable → List Term → Except CompileError FunctionTable
  | table, [] => .ok table
  | table, t :: rest => do
    if t.keyword? = some .define then
      let (_, table) ← table.declare t
      declareAll table rest
    else declareAll table rest

/-- All functions that are defined at the top level of a program. -/
def build (program : Term) : Except CompileError FunctionTable := do
  declareAll [] (← program.elements .stmt)

/-- The function that `callee` names in the call at `call`. -/
def resolve (table : FunctionTable) (call : NodeId) (callee : Term) :
    Except CompileError Function := do
  callee.require call "callee"
  let name ← callee.expectIdent
  match table.get? name with
  | some f => return f
  | none => throw (.unknownFunction callee.id name)

def lookup (table : FunctionTable) (call : Term) : Except CompileError Function :=
  table.resolve call.id call.left

def text (table : FunctionTable) : String :=
  "functions (" ++ toString table.length ++ ")\n" ++
    String.join (table.map fun f => "  " ++ f.name ++ "/" ++ toString f.arity ++ "\n")

end FunctionTable

end StackCompiler
