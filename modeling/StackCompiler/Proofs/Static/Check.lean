import StackCompiler.Frame
import StackCompiler.FunctionTable
import StackCompiler.Proofs.Operators

/-!
# Well-formed programs

A check of program trees that makes no code. It knows of each name whether it is an array, of each
frame how many slots its names take, and of each function how many parameters it has. Names become
known in the order of the text, also through branches and loop bodies: a write to a name that is not
known declares it.
-/
namespace StackCompiler

namespace Tree

/-- The length that the index of a declaration gives: none for a plain variable, else a literal
whole number of at least one. -/
def length? : Tree → Option (Option Nat)
  | .absent => some none
  | .number value =>
    match value.toNat? with
    | some n => if 1 ≤ n ∧ n ≤ Frame.maxSize then some (some n) else none
    | none => none
  | _ => none

/-- The elements of a chain of `tag` nodes, innermost first, if every link has one. -/
def items? (tag : Keyword) : Tree → Option (List Tree)
  | .absent => some []
  | .keyword found before item =>
    if found = tag ∧ item.isAbsent = false then (before.items? tag).map (· ++ [item]) else none
  | _ => none

end Tree

namespace Static

/-- What is known of the names of a frame. -/
structure Names where
  /-- Each name with whether it is an array, in order of declaration. -/
  shapes : List (String × Bool)
  slots : Nat
  deriving DecidableEq, Repr

namespace Names

def empty : Names := ⟨[], 0⟩

def isArray? (names : Names) (name : String) : Option Bool :=
  (names.shapes.find? (·.1 == name)).map Prod.snd

/-- The names after the declaration of a new one, if the frame has room for it. -/
def declare (names : Names) (name : String) (index : Tree) : Option Names :=
  match index.length? with
  | none => none
  | some length =>
    if (names.isArray? name).isNone ∧ names.slots + length.getD 1 ≤ Frame.maxSize then
      some ⟨names.shapes ++ [(name, length.isSome)], names.slots + length.getD 1⟩
    else none

end Names

structure Environment where
  /-- Each function with the number of its parameters. -/
  arities : List (String × Nat)
  globals : Names
  /-- The names of the function that is checked. -/
  locals : Option Names
  deriving DecidableEq, Repr

namespace Environment

def arity? (env : Environment) (name : String) : Option Nat :=
  (env.arities.find? (·.1 == name)).map Prod.snd

def isArray? (env : Environment) (name : String) : Option Bool :=
  match env.globals.isArray? name with
  | some isArray => some isArray
  | none => env.locals.bind (·.isArray? name)

/-- Declares a name inside the function that is checked, or else as a global. -/
def declare (env : Environment) (name : String) (index : Tree) : Option Environment :=
  match env.locals with
  | some names => (names.declare name index).map fun names => { env with locals := some names }
  | none => (env.globals.declare name index).map fun names => { env with globals := names }

end Environment

mutual

/-- Numbers, known names with an index exactly if they are arrays, calls with as many arguments as
the function has parameters, and operators with their operands; `in` may have one. -/
def isExpression (env : Environment) : Tree → Bool
  | .absent => false
  | .number _ => true
  | .ident name index =>
    env.isArray? name == some !index.isAbsent && (index.isAbsent || isExpression env index)
  | .keyword .call (.ident name _) args =>
    match env.arity? name with
    | some arity => arguments? env args == some arity
    | none => false
  | .keyword tag left right =>
    match tag.meaning? with
    | some (.binary _) => isExpression env left && isExpression env right
    | some (.unary _) => isExpression env right
    | some .input => right.isAbsent || isExpression env right
    | none => false

/-- How many arguments a chain has, if all of them are expressions. -/
def arguments? (env : Environment) : Tree → Option Nat
  | .absent => some 0
  | .keyword .param before argument =>
    if isExpression env argument then (arguments? env before).map (· + 1) else none
  | _ => none

end

/-- The environment after a write: a name that is known is used, a new one is declared. -/
def target? (env : Environment) : Tree → Option Environment
  | .ident name index =>
    if (env.isArray? name).isSome then
      if isExpression env (.ident name index) then some env else none
    else env.declare name index
  | _ => none

/-- The environment stays as it is if the check succeeds. -/
def unchanged (env : Environment) (check : Bool) : Option Environment :=
  if check then some env else none

mutual

/-- The environment after a statement, if it is well-formed. -/
def statement? (env : Environment) : Tree → Option Environment
  | .keyword .assign target value => if isExpression env value then target? env target else none
  | .keyword .ifThen condition (.keyword .decision thenPart elsePart) =>
    if isExpression env condition && !thenPart.isAbsent then
      (block? env thenPart).bind fun env => block? env elsePart
    else none
  | .keyword .whileLoop condition body =>
    if isExpression env condition && !body.isAbsent then block? env body else none
  | .keyword .ret _ value => unchanged env (isExpression env value)
  | .keyword .out _ value => unchanged env (isExpression env value)
  | .keyword .display (.ident name index) value =>
    unchanged env (isExpression env (.ident name index) && isExpression env value)
  | .keyword .call callee args => unchanged env (isExpression env (.keyword .call callee args))
  | _ => none

/-- The environment after a chain of statements, if it is one and they are well-formed. -/
def block? (env : Environment) : Tree → Option Environment
  | .absent => some env
  | .keyword .stmt before last => (block? env before).bind fun env => statement? env last
  | _ => none

end

/-- What a definition says. -/
structure Header where
  name : String
  params : List Tree
  body : Tree
  deriving DecidableEq, Repr

/-- A function's name is one word, without the point of generated labels and without a colon. -/
def isFunctionName (name : String) : Bool :=
  name != "" && name.toList.all fun c => c != '.' && c != ':' && !Text.isBlank c

/-- A definition has a `func` header with a valid name and an optional chain of parameters. -/
def header? : Tree → Option Header
  | .keyword .define (.keyword .func (.ident name _) params) body =>
    if isFunctionName name then (params.items? .param).map (⟨name, ·, body⟩) else none
  | _ => none

def isDefinition : Tree → Bool
  | .keyword .define _ _ => true
  | _ => false

def isAssignment : Tree → Bool
  | .keyword .assign _ _ => true
  | _ => false

/-- The environment after the assignments among some statements. -/
def initializers? (env : Environment) : List Tree → Option Environment
  | [] => some env
  | t :: rest =>
    if isAssignment t then (statement? env t).bind (initializers? · rest)
    else initializers? env rest

/-- The names of parameters: plain identifiers that are not globals, each once. -/
def parameters? (globals : Names) (names : Names) : List Tree → Option Names
  | [] => some names
  | .ident name .absent :: rest =>
    if (globals.isArray? name).isSome then none
    else (names.declare name .absent).bind (parameters? globals · rest)
  | _ => none

/-- A function has a body, which is well-formed when the parameters and all globals are known. -/
def isFunction (env : Environment) (h : Header) : Bool :=
  match parameters? env.globals .empty h.params with
  | some names => !h.body.isAbsent && (block? { env with locals := some names } h.body).isSome
  | none => false

/-- The definitions among the statements of a program. -/
def headers (items : List Tree) : List Header :=
  items.filterMap header?

/-- The statements of a program: each definition has a header of its own name, and under all
functions the initializers in order, and then each function, are well-formed. -/
def areWellFormed (items : List Tree) : Bool :=
  (items.filter isDefinition).all (fun t => (header? t).isSome) &&
    decide ((headers items).map Header.name).Nodup &&
    match initializers? ⟨(headers items).map fun h => (h.name, h.params.length), .empty, none⟩
        items with
    | some env => (headers items).all (isFunction env)
    | none => false

/-- A well-formed program is a chain of well-formed statements. -/
def isProgram (t : Tree) : Bool :=
  !t.isAbsent &&
    match t.items? .stmt with
    | some items => areWellFormed items
    | none => false

end Static

end StackCompiler
