import StackCompiler.Yaml.Node
import StackCompiler.Number.Text

/-!
# YAML values

What the scalars of a document mean, and the document with its aliases replaced by what they refer
to. Collections may be nested to a depth of 128, and aliases may be followed a hundred times for
each node that is written.

A tag of the standard settles what a scalar means. Any other tag in full makes it a text, and says
nothing of a collection. Tags that are local to the document are refused.
-/
namespace StackCompiler.Yaml

inductive Scalar where
  | null
  | bool (value : Bool)
  /-- A whole number without a minus sign that fits into a word. -/
  | natural (value : Nat)
  /-- A whole number with a minus sign that fits into a signed word. -/
  | signed (value : Int)
  /-- A whole number that fits into two words but not into one. -/
  | wide (value : Int)
  | float (value : Number)
  | text (value : String)
  deriving DecidableEq, Repr

/-- Splits off one of the marks of a base other than ten. -/
def splitBase? : List Char → Option (Nat × List Char)
  | '0' :: 'x' :: rest => some (16, rest)
  | '0' :: 'o' :: rest => some (8, rest)
  | '0' :: 'b' :: rest => some (2, rest)
  | _ => none

/-- Several digits of which the first is a zero are no number. -/
def isPaddedDigits (cs : List Char) : Bool :=
  let digits := (Number.splitSign cs).2
  1 < digits.length && digits.head? == some '0' && digits.all Char.isDigit

/-- A whole number in base ten or, with a mark, in another base. -/
def magnitude? (cs : List Char) : Option Nat :=
  match splitBase? cs with
  | some (base, digits) => Text.natural? base digits
  | none => if isPaddedDigits cs then none else Text.natural? 10 cs

/-- A whole number without a minus sign; one plus sign may stand in front. -/
def unsigned? : List Char → Option Nat
  | '+' :: rest => magnitude? rest
  | cs => magnitude? cs

def negative? : List Char → Option Int
  | '-' :: rest => (magnitude? rest).map fun n => -(n : Int)
  | _ => none

/-- The meaning of a text that is a whole number and fits into two words. -/
def whole? (cs : List Char) : Option Scalar :=
  match unsigned? cs, negative? cs with
  | some n, _ =>
    if n < Nat.pow 2 64 then some (.natural n) else if n < Nat.pow 2 128 then some (.wide n)
    else none
  | none, some i =>
    if -(Nat.pow 2 63 : Int) ≤ i then some (.signed i)
    else if -(Nat.pow 2 127 : Int) ≤ i then some (.wide i)
    else none
  | none, none => none

/-- The number that a text is. Infinities and what is no number have names of their own. -/
def float? (cs : List Char) : Option Number :=
  let s := String.ofList cs
  if [".inf", ".Inf", ".INF", "+.inf", "+.Inf", "+.INF"].contains s then some (.infinity false)
  else if ["-.inf", "-.Inf", "-.INF"].contains s then some (.infinity true)
  else if [".nan", ".NaN", ".NAN"].contains s then some (.quietNaN false)
  else
    match Number.parse? cs with
    | some x => if x.isFinite then some x else none
    | none => none

def isNull (s : String) : Bool :=
  ["~", "null", "Null", "NULL"].contains s

def bool? (s : String) : Option Bool :=
  if ["true", "True", "TRUE"].contains s then some true
  else if ["false", "False", "FALSE"].contains s then some false
  else none

def Scalar.ofPlain (s : String) : Scalar :=
  let cs := s.toList
  if s.isEmpty || isNull s then .null
  else
    match bool? s with
    | some b => .bool b
    | none =>
      match whole? cs with
      | some w => w
      | none =>
        if isPaddedDigits cs then .text s
        else
          match float? cs with
          | some x => .float x
          | none => .text s

/-- Where the tags of the standard start. -/
def standardTag (name : String) : String :=
  "tag:yaml.org,2002:" ++ name

/-- Whether a tag is local to its document. -/
def isLocal (tag : Option String) : Bool :=
  tag.any (·.startsWith "!")

/-- The meaning of a scalar; without a tag, what is not plain is a text. There is none if the text
does not fit the tag. -/
def Scalar.of? (tag : Option String) (style : Style) (s : String) : Option Scalar :=
  match tag with
  | none => some (if style = .plain then .ofPlain s else .text s)
  | some t =>
    if isLocal tag then none
    else if t == standardTag "null" then (if isNull s then some .null else none)
    else if t == standardTag "bool" then (bool? s).map .bool
    else if t == standardTag "int" then whole? s.toList
    else if t == standardTag "float" then (float? s.toList).map .float
    else some (.text s)

/-- A document without aliases. -/
inductive Value where
  | scalar (value : Scalar)
  | sequence (items : List Value)
  | mapping (entries : List (Value × Value))

mutual

/-- The nodes that are given a name, in the order of the document. -/
def Node.namedNodes : Node → List (Nat × Node)
  | .scalar _ _ _ => []
  | .alias _ => []
  | .sequence _ items => namedItems items
  | .mapping _ entries => namedEntries entries
  | .named number node => (number, node) :: node.namedNodes

def Node.namedItems : List Node → List (Nat × Node)
  | [] => []
  | item :: rest => item.namedNodes ++ namedItems rest

def Node.namedEntries : List (Node × Node) → List (Nat × Node)
  | [] => []
  | (key, value) :: rest => key.namedNodes ++ value.namedNodes ++ namedEntries rest

end

mutual

/-- The length of a document: one for a scalar or an alias, two for the ends of a collection. -/
def Node.weight : Node → Nat
  | .scalar _ _ _ => 1
  | .alias _ => 1
  | .sequence _ items => 2 + weightItems items
  | .mapping _ entries => 2 + weightEntries entries
  | .named _ node => node.weight

def Node.weightItems : List Node → Nat
  | [] => 0
  | item :: rest => item.weight + weightItems rest

def Node.weightEntries : List (Node × Node) → Nat
  | [] => 0
  | (key, value) :: rest => key.weight + value.weight + weightEntries rest

end

structure Document where
  root : Node
  /-- The named nodes, last one first. -/
  named : List (Nat × Node)
  /-- How often aliases may be followed. -/
  limit : Nat

def Document.of (root : Node) : Document :=
  ⟨root, root.namedNodes.reverse, 100 * root.weight⟩

/-- Work that may fail and counts how often an alias is followed. -/
abbrev Resolving := StateT Nat Option

/-- The node behind names and an alias. -/
def Document.resolve (d : Document) : Node → Resolving Node
  | .alias number => do
    modify (· + 1)
    if d.limit < (← get) then failure
    match d.named.find? (·.1 == number) with
    | some (_, node) => return node
    | none => failure
  | .named _ node => return node
  | node => return node

/-- The value of a scalar. Whole numbers of more than one word are refused. -/
def scalarValue (tag : Option String) (style : Style) (text : String) : Resolving Value :=
  match Scalar.of? tag style text with
  | none | some (.wide _) => failure
  | some s => return .scalar s

/-- Replaces the aliases of a node, down to the given depth of collections. -/
def Document.expand (d : Document) : Nat → Node → Resolving Value
  | 0, node => do
    match ← d.resolve node with
    | .scalar tag style text => scalarValue tag style text
    | _ => failure
  | depth + 1, node => do
    match ← d.resolve node with
    | .scalar tag style text => scalarValue tag style text
    | .sequence tag items =>
      if isLocal tag then failure else return .sequence (← items.mapM (d.expand depth))
    | .mapping tag entries =>
      if isLocal tag then failure
      else
        return .mapping
          (← entries.mapM fun (k, v) => return (← d.expand depth k, ← d.expand depth v))
    | _ => failure

/-- Whether a document is one plain scalar, which may be empty. -/
def Document.isPlain (d : Document) : Bool :=
  match d.root with
  | .scalar _ .plain _ | .named _ (.scalar _ .plain _) => true
  | _ => false

def maxDepth : Nat := 128

def Document.value? (d : Document) : Option Value :=
  (d.expand maxDepth d.root).run' 0

end StackCompiler.Yaml
