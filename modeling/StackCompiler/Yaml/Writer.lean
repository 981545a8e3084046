import StackCompiler.Yaml.Value

/-!
# Writing YAML

Documents are written in block style with two blanks for each level. A text is written plain where
it reads back as that text; else in single quotes; and in double quotes if it has characters that
cannot stand for themselves. A key of more than 128 bytes, or with a line break, is set off by a
question mark.
-/
namespace StackCompiler.Yaml

def isPrintable (c : Char) : Bool :=
  let n := c.toNat
  n == 0xA || (0x20 ≤ n && n ≤ 0x7E) || (0xA0 ≤ n && n ≤ 0xD7FF) ||
    (0xE000 ≤ n && n ≤ 0xFFFD && n != 0xFEFF) || 0x10000 ≤ n

def leadingIndicators : List Char :=
  ['#', ',', '[', ']', '\x7b', '\x7d', '&', '*', '!', '|', '>', '\'', '"', '%', '@', '`']

def startsLikeToken : List Char → Bool
  | [] => false
  | c :: rest =>
    leadingIndicators.contains c || (['?', ':', '-'].contains c && endsWord rest.head?) ||
      ['-', '-', '-'].isPrefixOf (c :: rest) || ['.', '.', '.'].isPrefixOf (c :: rest)

/-- Whether some character of a text would end it early: a colon at the end of a word, or a hash at
the start of one. -/
def endsEarly : List Char → Bool
  | c :: d :: rest =>
    (d == ':' && endsWord rest.head?) || (d == '#' && endsWord (some c)) || endsEarly (d :: rest)
  | _ => false

def plainAllowed (cs : List Char) : Bool :=
  !(startsLikeToken cs || endsEarly cs || cs.head? == some ' ' || cs.getLast? == some ' ')

/-- Whether a text without quotes would be taken for something else. -/
def isAmbiguous (s : String) : Bool :=
  match Scalar.ofPlain s with
  | .text _ => isPaddedDigits s.toList
  | _ => true

/-- The hexadecimal digits of `n`, capitals, filled up with zeros. -/
def hexDigits (width n : Nat) : String :=
  let digits := (Nat.toDigits 16 n).map Char.toUpper
  String.ofList (List.replicate (width - digits.length) '0' ++ digits)

def escapeText (c : Char) : String :=
  match c with
  | '\x00' => "\\0"
  | '\x07' => "\\a"
  | '\x08' => "\\b"
  | '\t' => "\\t"
  | '\n' => "\\n"
  | '\x0b' => "\\v"
  | '\x0c' => "\\f"
  | '\r' => "\\r"
  | '\x1b' => "\\e"
  | '"' => "\\\""
  | '\\' => "\\\\"
  | '\u0085' => "\\N"
  | '\u2028' => "\\L"
  | '\u2029' => "\\P"
  | c =>
    let n := c.toNat
    if n ≤ 0xFF then "\\x" ++ hexDigits 2 n
    else if n ≤ 0xFFFF then "\\u" ++ hexDigits 4 n
    else "\\U" ++ hexDigits 8 n

def doubleQuotedChar (c : Char) : String :=
  if !isPrintable c || isBreak c || c == '"' || c == '\\' then escapeText c else c.toString

def text (s : String) : String :=
  let cs := s.toList
  if cs.any fun c => !isPrintable c || isBreak c then
    "\"" ++ String.join (cs.map doubleQuotedChar) ++ "\""
  else if isAmbiguous s || !plainAllowed cs then
    "'" ++ String.join (cs.map fun c => if c == '\'' then "''" else c.toString) ++ "'"
  else s

/-- A number. A positive exponent has no sign. -/
def number : Number → String
  | .nan _ _ => ".nan"
  | .infinity negative => Number.signText negative ++ ".inf"
  | .finite negative rank => Number.finiteText "" negative rank

/-- A part of a document: one that fits behind a key, or the lines of a block. -/
inductive Part where
  | inline (text : String)
  | block (lines : List String)

/-- Keys of more bytes are set off. -/
def maxKeyBytes : Nat := 128

/-- Whether a key is too long to stand on one line with its value, or has more than one line. -/
def isSetOff (key : String) : Bool :=
  maxKeyBytes < key.utf8ByteSize || key.toList.any isBreak

def entry (key : String) (value : Part) : List String :=
  if isSetOff key then
    ("? " ++ text key) ::
      match value with
      | .inline s => [": " ++ s]
      | .block [] => [":"]
      | .block (first :: rest) => (": " ++ first) :: rest.map ("  " ++ ·)
  else
    match value with
    | .inline s => [text key ++ ": " ++ s]
    | .block lines => (text key ++ ":") :: lines.map ("  " ++ ·)

def mapping (entries : List (String × Part)) : Part :=
  if entries.isEmpty then .inline "\x7b\x7d"
  else .block (entries.flatMap fun (key, value) => entry key value)

def document : Part → String
  | .inline s => s ++ "\n"
  | .block lines => String.join (lines.map (· ++ "\n"))

end StackCompiler.Yaml
