import StackCompiler.Yaml.Cursor
import StackCompiler.Text.Digits

/-!
# Scalars in a YAML text

A scalar is written plain, or in single or double quotes, or as a block of lines. Where the words of
a plain or quoted scalar are parted by blanks in one line the blanks are kept. Where they are parted
by line breaks, a single break becomes a blank and further ones are kept; blanks beside a break are
dropped.

The readers here take the number of steps they may make. One step for each character that is left,
and one more, are enough.
-/
namespace StackCompiler.Yaml

inductive Style where
  | plain
  | quoted
  | literal
  | folded
  deriving DecidableEq, Repr

/-- What stands between two words of a scalar. -/
structure Gap where
  /-- The blanks, as long as there is no line break. -/
  blanks : List Char := []
  /-- The first line break. -/
  first : List Char := []
  /-- The line breaks after it. -/
  more : List Char := []
  /-- Whether there was a line break, be it an escaped one. -/
  broken : Bool := false

namespace Gap

def text (g : Gap) : List Char :=
  if g.broken then
    if g.first == ['\n'] then (if g.more.isEmpty then [' '] else g.more) else g.first ++ g.more
  else g.blanks

/-- Reads on through blanks and line breaks. If the lines of the scalar have to be indented by
`indent`, a tab in the indentation is refused. -/
def scan (indent : Int) : Nat → Cursor → Gap → Option (Cursor × Gap)
  | 0, c, g => some (c, g)
  | fuel + 1, c, g =>
    match c.head? with
    | none => some (c, g)
    | some ch =>
      if isBlank ch then
        if g.broken then
          if ch == '\t' && (c.column : Int) < indent then none else scan indent fuel (c.skip 1) g
        else scan indent fuel (c.skip 1) { g with blanks := g.blanks ++ [ch] }
      else if isBreak ch then
        let g : Gap :=
          if g.broken then { g with more := g.more ++ c.breakText }
          else { first := c.breakText, broken := true }
        scan indent fuel c.skipBreak g
      else some (c, g)

end Gap

/-- Whether a plain scalar ends before the character at the cursor. -/
def plainEnds (flow : Bool) (c : Cursor) : Bool :=
  match c.head? with
  | none => true
  | some ':' => endsWord (c.at? 1)
  | some ch => flow && [',', '[', ']', '\x7b', '\x7d'].contains ch

/-- Within a flow collection a colon may not touch one of these characters. -/
def plainRefused (flow : Bool) (c : Cursor) : Bool :=
  flow && c.head? == some ':' &&
    match c.at? 1 with
    | some ch => [',', '?', '[', ']', '\x7b', '\x7d'].contains ch
    | none => false

/-- Reads on in a plain scalar. `acc` holds what was read, last character first, `gap` what was
passed since then, and `fresh` says that no character of the word at the cursor was read. The result
has the gap that was passed behind the scalar. -/
def plainFrom (flow : Bool) (indent : Int) :
    Nat → Cursor → List Char → Gap → Bool → Option (List Char × Cursor × Gap)
  | 0, c, acc, gap, _ => some (acc.reverse, c, gap)
  | fuel + 1, c, acc, gap, fresh =>
    match c.head? with
    | none => some (acc.reverse, c, gap)
    | some ch =>
      if fresh && (c.atDocumentMarker || ch == '#') then some (acc.reverse, c, gap)
      else if isBlank ch || isBreak ch then
        match Gap.scan indent fuel c {} with
        | none => none
        | some (c, gap) =>
          if !flow && (c.column : Int) < indent then some (acc.reverse, c, gap)
          else plainFrom flow indent fuel c acc gap true
      else if plainRefused flow c then none
      else if plainEnds flow c then some (acc.reverse, c, gap)
      else plainFrom flow indent fuel (c.skip 1) (ch :: (gap.text.reverse ++ acc)) {} false

/-- A plain scalar at the cursor, and whether a line break was passed behind it. -/
def plain? (fuel : Nat) (flow : Bool) (indent : Int) (c : Cursor) :
    Option (String × Cursor × Bool) := do
  let (text, c, gap) ← plainFrom flow indent fuel c [] {} true
  return (String.ofList text, c, gap.broken)

def escaped? : Char → Option Char
  | '0' => some '\x00'
  | 'a' => some '\x07'
  | 'b' => some '\x08'
  | 't' => some '\t'
  | '\t' => some '\t'
  | 'n' => some '\n'
  | 'v' => some '\x0b'
  | 'f' => some '\x0c'
  | 'r' => some '\r'
  | 'e' => some '\x1b'
  | ' ' => some ' '
  | '"' => some '"'
  | '/' => some '/'
  | '\\' => some '\\'
  | 'N' => some '\u0085'
  | '_' => some '\u00a0'
  | 'L' => some '\u2028'
  | 'P' => some '\u2029'
  | _ => none

def escapeWidth? : Char → Option Nat
  | 'x' => some 2
  | 'u' => some 4
  | 'U' => some 8
  | _ => none

def charOf? (n : Nat) : Option Char :=
  if n < 0xD800 || (0xE000 ≤ n && n ≤ 0x10FFFF) then some (Char.ofNat n) else none

/-- The character of an escape and how many characters the escape takes, backslash included. -/
def escape? (c : Cursor) : Option (Char × Nat) := do
  let letter ← c.at? 1
  match escapeWidth? letter with
  | some width =>
    let digits := (c.rest.drop 2).take width
    if digits.length ≠ width then none
    else
      let ch ← charOf? (← Text.natural? 16 digits)
      return (ch, 2 + width)
  | none => return (← escaped? letter, 2)

def quotedFrom (double : Bool) : Nat → Cursor → List Char → Option (List Char × Cursor)
  | 0, _, _ => none
  | fuel + 1, c, acc =>
    match c.head? with
    | none => none
    | some ch =>
      if c.atDocumentMarker then none
      else if isBlank ch || isBreak ch then
        match Gap.scan 0 fuel c {} with
        | none => none
        | some (c, gap) => quotedFrom double fuel c (gap.text.reverse ++ acc)
      else if !double && ch == '\'' && c.at? 1 == some '\'' then
        quotedFrom double fuel (c.skip 2) ('\'' :: acc)
      else if ch == (if double then '"' else '\'') then some (acc.reverse, c.skip 1)
      else if double && ch == '\\' then
        if (c.at? 1).any isBreak then
          match Gap.scan 0 fuel (c.skip 1).skipBreak { broken := true } with
          | none => none
          | some (c, gap) => quotedFrom double fuel c (gap.text.reverse ++ acc)
        else
          match escape? c with
          | none => none
          | some (e, width) => quotedFrom double fuel (c.skip width) (e :: acc)
      else quotedFrom double fuel (c.skip 1) (ch :: acc)

def quoted? (fuel : Nat) (double : Bool) (c : Cursor) : Option (String × Cursor) := do
  let (text, c) ← quotedFrom double fuel (c.skip 1) []
  return (String.ofList text, c)

end StackCompiler.Yaml
