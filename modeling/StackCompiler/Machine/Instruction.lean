import StackCompiler.Machine.Operand
import StackCompiler.Text.Style

/-!
# Instructions

An instruction is a mnemonic with at most one argument. By the argument there are four forms: `push`
needs an operand, `pop` may have one, transfers of control name a label, and plain operations work
on the evaluation stack alone. The text of an instruction is its mnemonic and its argument; blanks
around them and the case of the mnemonic do not matter to the reader.
-/
namespace StackCompiler

inductive Operation where
  | add
  | sub
  | mul
  | div
  | pow
  | eq
  | neq
  | above
  | below
  | aboveEq
  | belowEq
  | not
  | and
  | or
  | sin
  | cos
  | int
  | input
  | ret
  | halt
  | out
  | shw
  deriving DecidableEq, Repr

namespace Operation

def all : List Operation :=
  [.add, .sub, .mul, .div, .pow, .eq, .neq, .above, .below, .aboveEq, .belowEq, .not, .and, .or,
    .sin, .cos, .int, .input, .ret, .halt, .out, .shw]

def name : Operation → String
  | .add => "add"
  | .sub => "sub"
  | .mul => "mul"
  | .div => "div"
  | .pow => "pow"
  | .eq => "eq"
  | .neq => "neq"
  | .above => "ab"
  | .below => "be"
  | .aboveEq => "aeq"
  | .belowEq => "beq"
  | .not => "not"
  | .and => "and"
  | .or => "or"
  | .sin => "sin"
  | .cos => "cos"
  | .int => "int"
  | .input => "in"
  | .ret => "ret"
  | .halt => "hlt"
  | .out => "out"
  | .shw => "shw"

end Operation

inductive Transfer where
  | jump
  /-- Jumps if the two topmost values are equal. -/
  | jumpEq
  | call
  deriving DecidableEq, Repr

namespace Transfer

def all : List Transfer := [.jump, .jumpEq, .call]

def name : Transfer → String
  | .jump => "jmp"
  | .jumpEq => "je"
  | .call => "call"

end Transfer

inductive Mnemonic where
  | push
  | pop
  | transfer (kind : Transfer)
  | plain (operation : Operation)
  deriving DecidableEq, Repr

namespace Mnemonic

def all : List Mnemonic :=
  [.push, .pop] ++ Transfer.all.map .transfer ++ Operation.all.map .plain

def name : Mnemonic → String
  | .push => "push"
  | .pop => "pop"
  | .transfer kind => kind.name
  | .plain operation => operation.name

def ofName? (s : String) : Option Mnemonic :=
  all.find? (·.name == s)

/-- A mnemonic in either case. -/
def parse (cs : List Char) : Except ParseError Mnemonic :=
  match ofName? (String.ofList (Text.lower cs)) with
  | some m => .ok m
  | none => .error (.unknownOperation (String.ofList cs))

end Mnemonic

inductive Instruction where
  | push (operand : Operand)
  /-- Without an operand the value is dropped. -/
  | pop (operand : Option Operand)
  | transfer (kind : Transfer) (label : String)
  | plain (operation : Operation)
  deriving DecidableEq, Repr

namespace Instruction

def mnemonic : Instruction → Mnemonic
  | .push _ => .push
  | .pop _ => .pop
  | .transfer kind _ => .transfer kind
  | .plain operation => .plain operation

def operand? : Instruction → Option Operand
  | .push operand => some operand
  | .pop operand => operand
  | _ => none

def argument? : Instruction → Option String
  | .push operand => some operand.text
  | .pop operand => operand.map Operand.text
  | .transfer _ label => some label
  | .plain _ => none

def text (i : Instruction) : String :=
  match i.argument? with
  | some argument => i.mnemonic.name ++ " " ++ argument
  | none => i.mnemonic.name

/-- A label is a nonempty word. -/
def parseLabel (cs : List Char) : Except ParseError String :=
  if cs.isEmpty || cs.any Text.isBlank then .error (.invalidLabel (String.ofList cs))
  else .ok (String.ofList cs)

/-- The instruction of a mnemonic and an argument, where `word` is the mnemonic as written. -/
def ofParts (word : List Char) : Mnemonic → Option (List Char) → Except ParseError Instruction
  | .push, some argument => (Operand.parse argument).map .push
  | .pop, some argument => (Operand.parse argument).map (.pop ∘ some)
  | .pop, none => .ok (.pop none)
  | .transfer kind, some argument => (parseLabel argument).map (.transfer kind)
  | .plain operation, none => .ok (.plain operation)
  | .push, none | .transfer _, none => .error (.missingArgument (String.ofList word))
  | .plain _, some _ => .error (.unexpectedArgument (String.ofList word))

def parse (line : List Char) : Except ParseError Instruction :=
  let (word, argument) := Text.splitAtBlank (Text.trim line)
  match Mnemonic.parse word with
  | .ok m => ofParts word m (argument.map Text.trim)
  | .error e => .error e

/-- Fills `s` up with blanks to a width of five. -/
def padded (s : String) : String :=
  s ++ String.ofList (List.replicate (5 - s.length) ' ')

def argumentColour : Instruction → Text.Colour
  | .transfer _ _ => .green
  | .push (.number _) => .yellow
  | _ => .blue

/-- The text in colours: the mnemonic in red, the argument by its kind. -/
def styled (i : Instruction) : Text.Styled :=
  match i.argument? with
  | some argument =>
    [(Text.Colour.red.style, padded i.mnemonic.name), (i.argumentColour.style, argument)]
  | none => [(Text.Colour.red.style, i.mnemonic.name)]

/-- What a terminal is sent to show the text in colours. -/
def coloured (terminal : Text.Terminal) (i : Instruction) : String :=
  terminal.send i.styled

/-- Equality up to the machine's equality of numbers. -/
def agrees : Instruction → Instruction → Bool
  | .push o, .push p => o.agrees p
  | .pop (some o), .pop (some p) => o.agrees p
  | i, j => i == j

end Instruction

end StackCompiler
