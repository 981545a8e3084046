import StackCompiler.Yaml.Block
import StackCompiler.Yaml.Tag

/-!
# Tokens of a YAML text

Where blocks start and end follows from the columns of the text, and a key is known for one only at
the colon behind it. So the scanner keeps, for each level of flow collections, the place where a key
may have started, and puts the tokens for it there once its colon is met. Such a key stands in one
line and has at most 1024 bytes.
-/
namespace StackCompiler.Yaml

inductive Token where
  | directive (directive : Directive)
  | documentStart
  | documentEnd
  | blockSequenceStart
  | blockMappingStart
  | blockEnd
  | flowSequenceStart
  | flowSequenceEnd
  | flowMappingStart
  | flowMappingEnd
  | blockEntry
  | flowEntry
  | key
  | value
  | alias (name : String)
  | anchor (name : String)
  | tag (name : TagName)
  | scalar (style : Style) (text : String)
  deriving DecidableEq, Repr

/-- A place where a key may have started. -/
structure KeyStart where
  /-- How many tokens stand before it. -/
  token : Nat
  index : Nat
  line : Nat
  column : Nat
  /-- Whether only a key can stand there. -/
  required : Bool

structure Scanner where
  cursor : Cursor
  /-- The tokens so far, last one first. -/
  tokens : List Token
  /-- How many tokens there are. -/
  count : Nat
  /-- The column of the innermost block. -/
  indent : Int
  /-- The columns of the blocks around it. -/
  outer : List Int
  /-- The possible key of each open flow collection, innermost first, and last that of the block. -/
  keys : List (Option KeyStart)
  /-- Whether a key may start at the cursor. -/
  keyAllowed : Bool

namespace Scanner

def start (cs : List Char) : Scanner :=
  ⟨.start cs, [], 0, -1, [], [none], true⟩

def inFlow (s : Scanner) : Bool :=
  1 < s.keys.length

def emit (s : Scanner) (t : Token) : Scanner :=
  { s with tokens := t :: s.tokens, count := s.count + 1 }

/-- Puts a token before the ones that follow the first `n`. -/
def insert (s : Scanner) (n : Nat) (t : Token) : Scanner :=
  let after := s.count - n
  { s with tokens := s.tokens.take after ++ t :: s.tokens.drop after, count := s.count + 1 }

/-- Gives up the possible key of the innermost level. -/
def dropKey (s : Scanner) : Option Scanner :=
  match s.keys with
  | some k :: rest => if k.required then none else some { s with keys := none :: rest }
  | _ => some s

def saveKey (s : Scanner) : Option Scanner := do
  if !s.keyAllowed then return s
  let required := !s.inFlow && s.indent == s.cursor.column
  let s ← s.dropKey
  let k : KeyStart := ⟨s.count, s.cursor.index, s.cursor.line, s.cursor.column, required⟩
  return { s with keys := some k :: s.keys.tail }

/-- The most bytes from the start of a key to its colon. -/
def maxKeyBytes : Nat := 1024

/-- Whether the colon of a key can no longer come. -/
def isStale (c : Cursor) (k : KeyStart) : Bool :=
  k.line < c.line || k.index + maxKeyBytes < c.index

def dropStale (s : Scanner) : Option Scanner :=
  let stale (k : Option KeyStart) : Bool := k.any (isStale s.cursor)
  if s.keys.any fun k => stale k && k.any (·.required) then none
  else some { s with keys := s.keys.map fun k => if stale k then none else k }

/-- How many of the blocks at these columns, innermost first, end before column `c`, and what stays.
-/
def closed (c : Int) (indent : Int) : List Int → Nat × Int × List Int
  | [] => (0, indent, [])
  | i :: rest =>
    if c < indent then
      let (n, indent, outer) := closed c i rest
      (n + 1, indent, outer)
    else (0, indent, i :: rest)

def unroll (s : Scanner) (column : Int) : Scanner :=
  if s.inFlow then s
  else
    let (n, indent, outer) := closed column s.indent s.outer
    let s := { s with indent, outer }
    { s with tokens := List.replicate n .blockEnd ++ s.tokens, count := s.count + n }

/-- Starts a block at a column further in, with its token behind the first `n`. -/
def roll (s : Scanner) (column : Nat) (n : Nat) (t : Token) : Scanner :=
  if !s.inFlow && s.indent < column then
    { s with indent := column, outer := s.indent :: s.outer }.insert n t
  else s

/-- Passes over a byte order mark at the start of a line. It takes a column. -/
def skipMark (c : Cursor) : Cursor :=
  if c.column == 0 && c.head? == some '\ufeff' then c.skip 1 else c

/-- Passes over blanks, comments and line breaks. Where a key may start, a tab is no blank. -/
def skipToToken : Nat → Scanner → Scanner
  | 0, s => s
  | fuel + 1, s =>
    let tabs := s.inFlow || !s.keyAllowed
    let c := (skipMark s.cursor).skipWhile fun ch => ch == ' ' || (tabs && ch == '\t')
    let c := c.skipComment
    if c.head?.any isBreak then
      skipToToken fuel { s with cursor := c.skipBreak, keyAllowed := s.keyAllowed || !s.inFlow }
    else { s with cursor := c }

def take (s : Scanner) (n : Nat) (t : Token) : Scanner :=
  { s.emit t with cursor := s.cursor.skip n }

def directive (s : Scanner) : Option Scanner := do
  let s ← (s.unroll (-1)).dropKey
  let (d, cursor) ← directive? s.cursor
  return { s.emit (.directive d) with cursor, keyAllowed := false }

def documentMarker (s : Scanner) (t : Token) : Option Scanner := do
  let s ← (s.unroll (-1)).dropKey
  return { s with keyAllowed := false }.take 3 t

def openFlow (s : Scanner) (t : Token) : Option Scanner := do
  let s ← s.saveKey
  return { s with keys := none :: s.keys, keyAllowed := true }.take 1 t

def closeFlow (s : Scanner) (t : Token) : Option Scanner := do
  let s ← s.dropKey
  let keys := if s.inFlow then s.keys.tail else s.keys
  return { s with keys, keyAllowed := false }.take 1 t

def flowEntry (s : Scanner) : Option Scanner := do
  let s ← s.dropKey
  return { s with keyAllowed := true }.take 1 .flowEntry

def blockEntry (s : Scanner) : Option Scanner := do
  if !s.inFlow && !s.keyAllowed then none
  else
    let s ← (s.roll s.cursor.column s.count .blockSequenceStart).dropKey
    return { s with keyAllowed := true }.take 1 .blockEntry

def key (s : Scanner) : Option Scanner := do
  if !s.inFlow && !s.keyAllowed then none
  else
    let s ← (s.roll s.cursor.column s.count .blockMappingStart).dropKey
    return { s with keyAllowed := !s.inFlow }.take 1 .key

/-- A colon: behind a possible key it makes it one. -/
def value (s : Scanner) : Option Scanner :=
  match s.keys with
  | some k :: rest =>
    let s := (s.insert k.token .key).roll k.column k.token .blockMappingStart
    some ({ s with keys := none :: rest, keyAllowed := false }.take 1 .value)
  | _ =>
    if !s.inFlow && !s.keyAllowed then none
    else
      let s := s.roll s.cursor.column s.count .blockMappingStart
      some ({ s with keyAllowed := !s.inFlow }.take 1 .value)

/-- The name of an anchor or an alias; `make` gives its token. -/
def reference (s : Scanner) (make : String → Token) : Option Scanner := do
  let s ← s.saveKey
  let name := (s.cursor.rest.drop 1).takeWhile isNameChar
  let next := s.cursor.at? (name.length + 1)
  let ends := endsWord next || next.any (['?', ':', ',', ']', '\x7d', '%', '@', '`'].contains ·)
  if name.isEmpty || !ends then none
  else return { s with keyAllowed := false }.take (name.length + 1) (make (String.ofList name))

def tag (s : Scanner) : Option Scanner := do
  let s ← s.saveKey
  let (name, width) ← tagName? s.cursor.rest
  let next := s.cursor.at? width
  if endsWord next || (s.inFlow && next == some ',') then
    return { s with keyAllowed := false }.take width (.tag name)
  else none

def blockScalar (s : Scanner) (fuel : Nat) (style : Style) : Option Scanner := do
  let s ← s.dropKey
  let (text, cursor) ← block? fuel (style == .folded) s.indent s.cursor
  return { s.emit (.scalar style text) with cursor, keyAllowed := true }

def quotedScalar (s : Scanner) (fuel : Nat) (double : Bool) : Option Scanner := do
  let s ← s.saveKey
  let (text, cursor) ← quoted? fuel double s.cursor
  return { s.emit (.scalar .quoted text) with cursor, keyAllowed := false }

def plainScalar (s : Scanner) (fuel : Nat) : Option Scanner := do
  let s ← s.saveKey
  let (text, cursor, broken) ← plain? fuel s.inFlow (s.indent + 1) s.cursor
  return { s.emit (.scalar .plain text) with cursor, keyAllowed := broken }

def indicators : List Char :=
  ['-', '?', ':', ',', '[', ']', '\x7b', '\x7d', '#', '&', '*', '!', '|', '>', '\'', '"', '%',
   '@', '`']

def startsPlain (flow : Bool) (ch : Char) (next : Option Char) : Bool :=
  !(isBlank ch || indicators.contains ch) || (ch == '-' && !next.any isBlank) ||
    (!flow && (ch == '?' || ch == ':') && !endsWord next)

/-- The token at the cursor, which stands at the character `ch`. -/
def token (s : Scanner) (fuel : Nat) (ch : Char) : Option Scanner :=
  let next := s.cursor.at? 1
  if s.cursor.column == 0 && ch == '%' then s.directive
  else if s.cursor.atMarker '-' then s.documentMarker .documentStart
  else if s.cursor.atMarker '.' then s.documentMarker .documentEnd
  else if ch == '[' then s.openFlow .flowSequenceStart
  else if ch == '\x7b' then s.openFlow .flowMappingStart
  else if ch == ']' then s.closeFlow .flowSequenceEnd
  else if ch == '\x7d' then s.closeFlow .flowMappingEnd
  else if ch == ',' then s.flowEntry
  else if ch == '-' && endsWord next then s.blockEntry
  else if ch == '?' && (s.inFlow || endsWord next) then s.key
  else if ch == ':' && (s.inFlow || endsWord next) then s.value
  else if ch == '*' then s.reference .alias
  else if ch == '&' then s.reference .anchor
  else if ch == '!' then s.tag
  else if ch == '|' && !s.inFlow then s.blockScalar fuel .literal
  else if ch == '>' && !s.inFlow then s.blockScalar fuel .folded
  else if ch == '\'' then s.quotedScalar fuel false
  else if ch == '"' then s.quotedScalar fuel true
  else if startsPlain s.inFlow ch next then s.plainScalar fuel
  else none

/-- Ends the text: all blocks are closed, and no key may be open. -/
def finish (s : Scanner) : Option (List Token) := do
  let s ← (s.unroll (-1)).dropKey
  return s.tokens.reverse

/-- Scans to the end. Every round but the last passes over a character, so that a number of steps
that is enough for the whole text stays enough for its rest. -/
def run : Nat → Scanner → Option (List Token)
  | 0, _ => none
  | fuel + 1, s => do
    let s ← (skipToToken (fuel + 1) s).dropStale
    let s := s.unroll s.cursor.column
    match s.cursor.head? with
    | none => s.finish
    | some ch => run fuel (← s.token (fuel + 1) ch)

end Scanner

def tokens? (cs : List Char) : Option (List Token) :=
  if cs.all isReadable then Scanner.run (cs.length + 1) (.start cs) else none

end StackCompiler.Yaml
