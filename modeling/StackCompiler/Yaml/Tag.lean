import StackCompiler.Yaml.Scalar

/-!
# Tags and directives in a YAML text

A tag says what kind of thing a node is. It is written in full as `!<text>`, or as a handle and a
suffix, where the handle stands for the start of the text. Directives in front of a document say
what handles stand for, and which version of YAML it follows. Bytes may be written with a percent
sign.
-/
namespace StackCompiler.Yaml

/-- The characters of the names of anchors, directives and handles. -/
def isNameChar (c : Char) : Bool :=
  c.isAlphanum || c == '_' || c == '-'

/-- A handle at the start of a text: an exclamation mark, or a name between two of them. A name
behind a single mark is also taken, and is for the caller to tell apart. -/
def handle? : List Char → Option (List Char)
  | '!' :: rest =>
    let name := rest.takeWhile isNameChar
    match rest.dropWhile isNameChar with
    | '!' :: _ => some ('!' :: name ++ ['!'])
    | _ => some ('!' :: name)
  | _ => none

/-- Whether a handle is closed by a second mark. -/
def isClosed (handle : List Char) : Bool :=
  1 < handle.length && handle.getLast? == some '!'

/-- The characters of a tag. Brackets and commas are among them only where no collection can be
meant. -/
def isTagChar (brackets : Bool) (c : Char) : Bool :=
  isNameChar c ||
    [';', '/', '?', ':', '@', '&', '=', '+', '$', '.', '!', '~', '*', '\'', '(', ')'].contains c ||
    (brackets && [',', '[', ']'].contains c)

/-- The bytes of a tag at the start of a text, and how many characters they take. -/
def tagBytes (brackets : Bool) : List Char → Option (List UInt8 × Nat)
  | '%' :: a :: b :: rest => do
    let n ← Text.natural? 16 [a, b]
    let (bytes, count) ← tagBytes brackets rest
    return (n.toUInt8 :: bytes, count + 3)
  | c :: rest =>
    if c == '%' then none
    else if isTagChar brackets c then do
      let (bytes, count) ← tagBytes brackets rest
      return (c.toNat.toUInt8 :: bytes, count + 1)
    else some ([], 0)
  | [] => some ([], 0)

/-- The text of a tag at the start of a text, and how many characters it takes. -/
def tagText? (brackets : Bool) (cs : List Char) : Option (String × Nat) := do
  let (bytes, count) ← tagBytes brackets cs
  return (← String.fromUTF8? ⟨bytes.toArray⟩, count)

/-- A tag as it is written. The handle of one that is written in full is empty. -/
structure TagName where
  handle : String
  suffix : String
  deriving DecidableEq, Repr

/-- The tag at the start of a text, and how many characters it takes. The mark alone is a tag in
full. -/
def tagName? : List Char → Option (TagName × Nat)
  | '!' :: '<' :: rest => do
    let (text, count) ← tagText? true rest
    if text.isEmpty || rest[count]? != some '>' then none
    else return (⟨"", text⟩, count + 3)
  | cs => do
    let handle ← handle? cs
    let (text, count) ← tagText? false (cs.drop handle.length)
    let width := handle.length + count
    if isClosed handle then
      if text.isEmpty then none else return (⟨String.ofList handle, text⟩, width)
    else
      let text := String.ofList (handle.drop 1) ++ text
      return (if text.isEmpty then ⟨"", "!"⟩ else ⟨"!", text⟩, width)

inductive Directive where
  | version (major minor : Nat)
  /-- What a handle stands for. -/
  | tag (handle meaning : String)
  deriving DecidableEq, Repr

def maxVersionDigits : Nat := 9

def versionPart? (c : Cursor) : Option (Nat × Cursor) :=
  let digits := c.rest.takeWhile Char.isDigit
  if digits.length ≤ maxVersionDigits then
    (Text.natural? 10 digits).map fun n => (n, c.skip digits.length)
  else none

def versionDirective? (c : Cursor) : Option (Directive × Cursor) := do
  let (major, c) ← versionPart? c
  if c.head? != some '.' then none
  else
    let (minor, c) ← versionPart? (c.skip 1)
    return (.version major minor, c)

def tagDirective? (c : Cursor) : Option (Directive × Cursor) := do
  let handle ← handle? c.rest
  let c := c.skip handle.length
  if !(handle == ['!'] || isClosed handle) || !c.head?.any isBlank then none
  else
    let c := c.skipWhile isBlank
    let (text, count) ← tagText? true c.rest
    let c := c.skip count
    if text.isEmpty || !endsWord c.head? then none
    else return (.tag (String.ofList handle) text, c)

/-- A directive and its line, the cursor at the percent sign. -/
def directive? (c : Cursor) : Option (Directive × Cursor) := do
  let name := (c.rest.drop 1).takeWhile isNameChar
  let c := c.skip (1 + name.length)
  if !endsWord c.head? then none
  else
    let c := c.skipWhile isBlank
    let (d, c) ← match String.ofList name with
      | "YAML" => versionDirective? c
      | "TAG" => tagDirective? c
      | _ => none
    return (d, ← c.endLine?)

end StackCompiler.Yaml
