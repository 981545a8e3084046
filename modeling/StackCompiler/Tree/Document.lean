import StackCompiler.Tree.Basic
import StackCompiler.Arena.Basic
import StackCompiler.Yaml.Writer

/-!
# Trees in YAML

A number is a scalar. A keyword is a mapping with the fields `keyword`, `left` and `right`, an
identifier one with `ident` and `index`; children may be left out or null, and other fields are
passed over. A field may also be given by its number in this order. A mapping that could be both is
a keyword if it can be read as one.
-/
namespace StackCompiler

open Yaml (Value Scalar)

namespace Yaml.Value

/-- The number of the field that a key means, among fields with these names; `none` inside for a
field to pass over. Keys that are neither texts nor numbers are refused. -/
def fieldNumber? (names : List String) : Value → Option (Option Nat)
  | .scalar (.text s) => some (names.findIdx? (· == s))
  | .scalar (.natural n) => some (if n < names.length then some n else none)
  | _ => none

/-- The entries of a mapping by the numbers of their fields. -/
def numbered? (names : List String) (entries : List (Value × Value)) :
    Option (List (Option Nat × Value)) :=
  entries.mapM fun (key, value) => return (← fieldNumber? names key, value)

/-- The value of the field `n`; `none` inside if it is missing. It may not be repeated. -/
def field? (numbered : List (Option Nat × Value)) (n : Nat) : Option (Option Value) :=
  match numbered.filter (·.1 == some n) with
  | [] => some none
  | [(_, value)] => some (some value)
  | _ => none

end Yaml.Value

/-- A keyword by its name, or by its name or number as the one key of a mapping with null. -/
def Keyword.ofValue? : Value → Option Keyword
  | .scalar (.text s) => Keyword.ofName? s
  | .mapping [(.scalar (.text s), .scalar .null)] => Keyword.ofName? s
  | .mapping [(.scalar (.natural n), .scalar .null)] => Keyword.all[n]?
  | _ => none

namespace Tree

def childOf? (read : Value → Option Tree) : Option Value → Option Tree
  | none => some .absent
  | some (.scalar .null) => some .absent
  | some v => read v

def keywordOf? (read : Value → Option Tree) (entries : List (Value × Value)) : Option Tree := do
  let numbered ← Value.numbered? ["keyword", "left", "right"] entries
  let tag ← Keyword.ofValue? (← (← Value.field? numbered 0))
  let left ← childOf? read (← Value.field? numbered 1)
  let right ← childOf? read (← Value.field? numbered 2)
  return .keyword tag left right

def identOf? (read : Value → Option Tree) (entries : List (Value × Value)) : Option Tree := do
  let numbered ← Value.numbered? ["ident", "index"] entries
  match ← Value.field? numbered 0 with
  | some (.scalar (.text name)) =>
    let index ← childOf? read (← Value.field? numbered 1)
    return .ident name index
  | _ => none

/-- The tree of a value that is nested at most to the given depth. -/
def ofValue? : Nat → Value → Option Tree
  | _, .scalar (.natural n) => some (.number (.ofNat n))
  | _, .scalar (.signed i) => some (.number (.ofInt i))
  | _, .scalar (.float x) => some (.number x)
  | depth + 1, .mapping entries =>
    match keywordOf? (ofValue? depth) entries with
    | some t => some t
    | none => identOf? (ofValue? depth) entries
  | _, _ => none

/-- Reads a document. An empty document, or a plain null, is no tree. -/
def parseYaml? (cs : List Char) : Option Tree := do
  match ← Yaml.parse? cs with
  | none => return .absent
  | some root =>
    let d := Yaml.Document.of root
    match ← d.value?, d.isPlain with
    | .scalar .null, true => return .absent
    | v, _ => ofValue? Yaml.maxDepth v

/-- A tree in a document; `none` if it is absent. -/
def part? : Tree → Option Yaml.Part
  | .absent => none
  | .number value => some (.inline (Yaml.number value))
  | .ident name index =>
    some (Yaml.mapping
      ([("ident", .inline (Yaml.text name))] ++ (index.part?.map ("index", ·)).toList))
  | .keyword tag left right =>
    some (Yaml.mapping
      ([("keyword", .inline (Yaml.text tag.name))] ++ (left.part?.map ("left", ·)).toList ++
        (right.part?.map ("right", ·)).toList))

def yaml (t : Tree) : String :=
  Yaml.document (t.part?.getD (.inline "null"))

end Tree

def Arena.parseYaml? (cs : List Char) : Option Arena :=
  (Tree.parseYaml? cs).map Arena.ofTree

end StackCompiler
