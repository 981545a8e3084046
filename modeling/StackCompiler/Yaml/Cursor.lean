/-!
# Reading positions in a YAML text

A cursor is the rest of a text with the position of its first character. Columns decide the nesting
of a YAML text, and lines and indices where a key may stand. Columns count characters, indices
bytes.
-/
namespace StackCompiler.Yaml

def isBlank (c : Char) : Bool :=
  c == ' ' || c == '\t'

def isBreak (c : Char) : Bool :=
  c == '\r' || c == '\n' || c == '\u0085' || c == '\u2028' || c == '\u2029'

/-- Whether a word ends here: at a blank, a line break or the end of the text. -/
def endsWord : Option Char → Bool
  | none => true
  | some c => isBlank c || isBreak c

/-- The characters that a YAML text may hold. -/
def isReadable (c : Char) : Bool :=
  let n := c.toNat
  n == 0x9 || n == 0xA || n == 0xD || (0x20 ≤ n && n ≤ 0x7E) || n == 0x85 ||
    (0xA0 ≤ n && n ≤ 0xD7FF) || (0xE000 ≤ n && n ≤ 0xFFFD) || 0x10000 ≤ n

def byteCount (cs : List Char) : Nat :=
  cs.foldr (fun c n => c.utf8Size + n) 0

structure Cursor where
  rest : List Char
  /-- The bytes before the cursor. -/
  index : Nat
  line : Nat
  column : Nat

namespace Cursor

def start (cs : List Char) : Cursor :=
  ⟨cs, 0, 0, 0⟩

def head? (c : Cursor) : Option Char :=
  c.rest.head?

def at? (c : Cursor) (n : Nat) : Option Char :=
  c.rest[n]?

def skip (c : Cursor) (n : Nat) : Cursor :=
  ⟨c.rest.drop n, c.index + byteCount (c.rest.take n), c.line, c.column + n⟩

/-- Passes over a line break. A carriage return and a line feed together are one. -/
def skipBreak (c : Cursor) : Cursor :=
  let n := if c.rest.take 2 == ['\r', '\n'] then 2 else 1
  ⟨c.rest.drop n, c.index + byteCount (c.rest.take n), c.line + 1, 0⟩

/-- What a line break stands for in a scalar. -/
def breakText (c : Cursor) : List Char :=
  match c.head? with
  | some '\u2028' => ['\u2028']
  | some '\u2029' => ['\u2029']
  | _ => ['\n']

def skipWhile (c : Cursor) (p : Char → Bool) : Cursor :=
  c.skip (c.rest.takeWhile p).length

def skipComment (c : Cursor) : Cursor :=
  if c.head? == some '#' then c.skipWhile (!isBreak ·) else c

/-- Passes over the rest of a line in which nothing stands but a comment, and over its line break.
-/
def endLine? (c : Cursor) : Option Cursor :=
  let c := (c.skipWhile isBlank).skipComment
  match c.head? with
  | none => some c
  | some ch => if isBreak ch then some c.skipBreak else none

/-- A document marker: three equal characters at the start of a line that form a word. -/
def atMarker (c : Cursor) (mark : Char) : Bool :=
  c.column == 0 && c.rest.take 3 == [mark, mark, mark] && endsWord (c.at? 3)

def atDocumentMarker (c : Cursor) : Bool :=
  c.atMarker '-' || c.atMarker '.'

end Cursor

end StackCompiler.Yaml
