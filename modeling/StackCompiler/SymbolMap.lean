import StackCompiler.Program
import StackCompiler.Yaml.Writer

/-!
# Symbol maps

Where the variables of a compiled program lie: for each function its arity, the size of its frame
and its locals, and the globals. A map is written as a YAML document and can be read back from one.
-/
namespace StackCompiler

structure SlotRange where
  shift : Nat
  size : Nat
  deriving DecidableEq, Repr

structure FunctionSymbols where
  arity : Nat
  frame : Nat
  locals : List (String × SlotRange)
  deriving DecidableEq, Repr

structure SymbolMap where
  functions : List (String × FunctionSymbols)
  globals : List (String × SlotRange)
  deriving DecidableEq, Repr

namespace SymbolMap

def slots (f : Frame) : List (String × SlotRange) :=
  f.declared.map fun v => (v.name, ⟨v.shift, v.size⟩)

/-- A function and its symbols, if it has a frame. -/
def symbols? (p : Program) (f : Function) : Option (String × FunctionSymbols) :=
  (p.frame? f.name).map fun frame => (f.name, ⟨f.arity, frame.size, slots frame⟩)

def ofProgram (p : Program) : SymbolMap :=
  ⟨p.functions.filterMap (symbols? p), slots p.globals⟩

open Yaml (Part)

def natPart (n : Nat) : Part :=
  .inline (toString n)

def slotsPart (table : List (String × SlotRange)) : Part :=
  Yaml.mapping (table.map fun (name, r) =>
    (name, Yaml.mapping [("shift", natPart r.shift), ("size", natPart r.size)]))

def functionPart (f : FunctionSymbols) : Part :=
  Yaml.mapping
    [("arity", natPart f.arity), ("frame", natPart f.frame), ("locals", slotsPart f.locals)]

def yaml (m : SymbolMap) : String :=
  Yaml.document (Yaml.mapping
    [("functions", Yaml.mapping (m.functions.map fun (name, f) => (name, functionPart f))),
      ("globals", slotsPart m.globals)])

open Yaml (Document Resolving)

def textOf (d : Document) (node : Yaml.Node) : Resolving String := do
  match ← d.resolve node with
  | .scalar _ _ text => return text
  | _ => failure

/-- Whether a scalar can be a number: a plain one, or a literal block with the tag of whole numbers.
-/
def mayBeNumber (tag : Option String) (style : Yaml.Style) : Bool :=
  style == .plain || (style == .literal && tag == some (Yaml.standardTag "int"))

def wordOf (d : Document) (node : Yaml.Node) : Resolving Nat := do
  match ← d.resolve node with
  | .scalar tag style text =>
    match Yaml.unsigned? text.toList, mayBeNumber tag style with
    | some n, true => if n < Text.wordLimit then return n else failure
    | _, _ => failure
  | _ => failure

/-- The nodes of the fields with these names. They stand in a mapping, where others are passed over
and none may be repeated. -/
def fieldsOf (d : Document) (names : List String) (node : Yaml.Node) :
    Resolving (List Yaml.Node) := do
  match ← d.resolve node with
  | .mapping _ entries =>
    let entries ← entries.mapM fun (key, value) => return (← textOf d key, value)
    names.mapM fun name =>
      match entries.filter (·.1 == name) with
      | [(_, value)] => return value
      | _ => failure
  | _ => failure

/-- Puts an entry into a table: at the end, or in place of the one with its name. -/
def put {α : Type} (table : List (String × α)) (name : String) (value : α) : List (String × α) :=
  if table.any (·.1 == name) then table.map fun e => if e.1 == name then (name, value) else e
  else table ++ [(name, value)]

/-- A table by name. An empty node is an empty table. -/
def tableOf {α : Type} (d : Document) (read : Yaml.Node → Resolving α) (node : Yaml.Node) :
    Resolving (List (String × α)) := do
  match ← d.resolve node with
  | .scalar _ .plain "" => return []
  | .mapping _ entries =>
    entries.foldlM (fun table (key, value) => return put table (← textOf d key) (← read value)) []
  | _ => failure

def slotRangeOf (d : Document) (node : Yaml.Node) : Resolving SlotRange := do
  match ← fieldsOf d ["shift", "size"] node with
  | [shift, size] => return ⟨← wordOf d shift, ← wordOf d size⟩
  | _ => failure

def functionOf (d : Document) (node : Yaml.Node) : Resolving FunctionSymbols := do
  match ← fieldsOf d ["arity", "frame", "locals"] node with
  | [arity, frame, locals] =>
    return ⟨← wordOf d arity, ← wordOf d frame, ← tableOf d (slotRangeOf d) locals⟩
  | _ => failure

def mapOf (d : Document) (node : Yaml.Node) : Resolving SymbolMap := do
  match ← fieldsOf d ["functions", "globals"] node with
  | [functions, globals] =>
    return ⟨← tableOf d (functionOf d) functions, ← tableOf d (slotRangeOf d) globals⟩
  | _ => failure

def parseYaml? (cs : List Char) : Option SymbolMap := do
  let root ← (← Yaml.parse? cs)
  let d := Document.of root
  (mapOf d root).run' 0

end SymbolMap

end StackCompiler
