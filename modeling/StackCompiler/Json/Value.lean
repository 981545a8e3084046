import StackCompiler.Json.Numeral

/-!
# JSON values

A reader for JSON texts and the quoting of strings. The fields of an object keep their order and may
repeat; what a repeated field means is for the user of the value to say. A string may hold escaped
surrogates that form no character. Such a text can be skipped but not used.
-/
namespace StackCompiler.Json

inductive Value where
  | null
  | bool (value : Bool)
  | number (value : Numeral)
  /-- No text is given for a string with a lone surrogate. -/
  | string (text : Option String)
  | array (items : List Value)
  | object (fields : List (Option String × Value))

def isSpace (c : Char) : Bool :=
  c == ' ' || c == '\n' || c == '\t' || c == '\r'

def skipSpace (cs : List Char) : List Char :=
  cs.dropWhile isSpace

def hexUnit? : List Char → Option (Nat × List Char)
  | a :: b :: c :: d :: rest => do
    return (← Text.natural? 16 [a, b, c, d], rest)
  | _ => none

def escaped? : Char → Option Char
  | '"' => some '"'
  | '\\' => some '\\'
  | '/' => some '/'
  | 'b' => some '\x08'
  | 'f' => some '\x0c'
  | 'n' => some '\n'
  | 'r' => some '\r'
  | 't' => some '\t'
  | _ => none

/-- The code points of a string up to its closing quote, surrogates not yet joined. -/
def codePoints? : Nat → List Char → Option (List Nat × List Char)
  | 0, _ => none
  | _, [] => none
  | _, '"' :: rest => some ([], rest)
  | fuel + 1, '\\' :: 'u' :: rest => do
    let (unit, rest) ← hexUnit? rest
    let (units, rest) ← codePoints? fuel rest
    return (unit :: units, rest)
  | fuel + 1, '\\' :: c :: rest => do
    let c ← escaped? c
    let (units, rest) ← codePoints? fuel rest
    return (c.toNat :: units, rest)
  | fuel + 1, c :: rest => do
    if c.toNat < 0x20 || c == '\\' then none
    else
      let (units, rest) ← codePoints? fuel rest
      return (c.toNat :: units, rest)

def isHigh (u : Nat) : Bool := 0xD800 ≤ u && u < 0xDC00

def isLow (u : Nat) : Bool := 0xDC00 ≤ u && u < 0xE000

/-- Joins each pair of surrogates; one that stands alone has no character. -/
def joined? : List Nat → Option (List Char)
  | [] => some []
  | u :: v :: rest =>
    if isHigh u && isLow v then
      (joined? rest).map (Char.ofNat (0x10000 + (u - 0xD800) * 0x400 + (v - 0xDC00)) :: ·)
    else if isHigh u || isLow u then none
    else (joined? (v :: rest)).map (Char.ofNat u :: ·)
  | [u] => if isHigh u || isLow u then none else some [Char.ofNat u]

def string? (cs : List Char) : Option (Option String × List Char) := do
  let (units, rest) ← codePoints? (cs.length + 1) cs
  return ((joined? units).map String.ofList, rest)

/-- Whole part: one zero, or digits that do not start with a zero. -/
def whole? (cs : List Char) : Option (List Char × List Char) :=
  match Number.spanDigits cs with
  | ([], _) => none
  | (['0'], rest) => some (['0'], rest)
  | ('0' :: _, _) => none
  | (digits, rest) => some (digits, rest)

def fraction? : List Char → Option (List Char × List Char)
  | '.' :: rest =>
    match Number.spanDigits rest with
    | ([], _) => none
    | (digits, rest) => some (digits, rest)
  | cs => some ([], cs)

def exponent? : List Char → Option (Option Int × List Char)
  | [] => some (none, [])
  | c :: rest =>
    if c == 'e' || c == 'E' then
      let (negative, rest) := Number.splitSign rest
      match Number.spanDigits rest with
      | ([], _) => none
      | (digits, rest) =>
        let e : Int := Number.digitsValue digits
        some (some (if negative then -e else e), rest)
    else some (none, c :: rest)

def numeral? (cs : List Char) : Option (Numeral × List Char) := do
  let (negative, rest) := match cs with
    | '-' :: rest => (true, rest)
    | _ => (false, cs)
  let (whole, rest) ← whole? rest
  let (fraction, rest) ← fraction? rest
  let (exponent, rest) ← exponent? rest
  return (⟨negative, whole, fraction, exponent⟩, rest)

def word? (cs : List Char) : Option (Value × List Char) :=
  match "null".toList.isPrefixOf? cs, "true".toList.isPrefixOf? cs,
      "false".toList.isPrefixOf? cs with
  | some rest, _, _ => some (.null, rest)
  | _, some rest, _ => some (.bool true, rest)
  | _, _, some rest => some (.bool false, rest)
  | none, none, none => none

mutual

/-- A value at the start of a text; blanks may stand in front. -/
def value? : Nat → List Char → Option (Value × List Char)
  | 0, _ => none
  | fuel + 1, cs =>
    match skipSpace cs with
    | '\x7b' :: rest =>
      match skipSpace rest with
      | '\x7d' :: rest => some (.object [], rest)
      | rest => do
        let (fields, rest) ← fields? fuel rest
        return (.object fields, rest)
    | '[' :: rest =>
      match skipSpace rest with
      | ']' :: rest => some (.array [], rest)
      | rest => do
        let (items, rest) ← items? fuel rest
        return (.array items, rest)
    | '"' :: rest => do
      let (text, rest) ← string? rest
      return (.string text, rest)
    | cs =>
      match word? cs with
      | some result => some result
      | none => do
        let (n, rest) ← numeral? cs
        return (.number n, rest)

/-- The items of an array up to its closing bracket. There is at least one. -/
def items? : Nat → List Char → Option (List Value × List Char)
  | 0, _ => none
  | fuel + 1, cs => do
    let (item, rest) ← value? fuel cs
    match skipSpace rest with
    | ',' :: rest =>
      let (items, rest) ← items? fuel rest
      return (item :: items, rest)
    | ']' :: rest => return ([item], rest)
    | _ => none

/-- The fields of an object up to its closing brace. There is at least one. -/
def fields? : Nat → List Char → Option (List (Option String × Value) × List Char)
  | 0, _ => none
  | fuel + 1, cs =>
    match skipSpace cs with
    | '"' :: rest => do
      let (name, rest) ← string? rest
      match skipSpace rest with
      | ':' :: rest =>
        let (value, rest) ← value? fuel rest
        match skipSpace rest with
        | ',' :: rest =>
          let (fields, rest) ← fields? fuel rest
          return ((name, value) :: fields, rest)
        | '\x7d' :: rest => return ([(name, value)], rest)
        | _ => none
      | _ => none
    | _ => none

end

/-- Reads a text that holds one value and nothing else. -/
def parse? (cs : List Char) : Option Value := do
  let (v, rest) ← value? (cs.length + 1) cs
  if (skipSpace rest).isEmpty then some v else none

def quotedChar (c : Char) : String :=
  match c with
  | '"' => "\\\""
  | '\\' => "\\\\"
  | '\x08' => "\\b"
  | '\x0c' => "\\f"
  | '\n' => "\\n"
  | '\r' => "\\r"
  | '\t' => "\\t"
  | c =>
    if c.toNat < 0x20 then
      "\\u00" ++ (if c.toNat < 0x10 then "0" else "") ++ String.ofList (Nat.toDigits 16 c.toNat)
    else c.toString

def quoted (s : String) : String :=
  "\"" ++ String.join (s.toList.map quotedChar) ++ "\""

/-- An object with the given fields, without blanks. -/
def objectText (fields : List (String × String)) : String :=
  "\x7b" ++ String.intercalate "," (fields.map fun (name, value) => quoted name ++ ":" ++ value) ++
    "\x7d"

end StackCompiler.Json
