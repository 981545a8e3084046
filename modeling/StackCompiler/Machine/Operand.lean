import StackCompiler.Number.Text

/-!
# Registers, addresses and operands

What an instruction works on: a number, a register, an address `base + shift [+ index]`, or the
memory cell at an address, which is written in brackets.
-/
namespace StackCompiler

inductive Register where
  /-- The value that a function returns. -/
  | ax
  /-- The base of the frame of the running function. -/
  | bx
  /-- The base of the global frame. -/
  | cx
  /-- The element shift of an indexed operand. -/
  | hx
  deriving DecidableEq, Repr

namespace Register

def name : Register → String
  | .ax => "ax"
  | .bx => "bx"
  | .cx => "cx"
  | .hx => "hx"

def all : List Register := [.ax, .bx, .cx, .hx]

def ofName? (s : String) : Option Register :=
  all.find? (·.name == s)

/-- A register name in either case. -/
def parse (cs : List Char) : Except String Register :=
  match ofName? (String.ofList (Text.lower cs)) with
  | some r => .ok r
  | none => .error ("Unknown reg name: " ++ String.ofList cs)

end Register

/-- Why a line of assembly text is refused. Each case carries the text at fault. -/
inductive ParseError where
  | unknownOperation (text : String)
  | missingArgument (operation : String)
  | unexpectedArgument (operation : String)
  | invalidOperand (text : String)
  | invalidLabel (text : String)
  deriving DecidableEq, Repr

def ParseError.message : ParseError → String
  | .unknownOperation s => "Unknown operation: `" ++ s ++ "`"
  | .missingArgument s => "More argument required for `" ++ s ++ "`"
  | .unexpectedArgument s => "`" ++ s ++ "` takes no argument"
  | .invalidOperand s => "Cannot parse `" ++ s ++ "` as operand"
  | .invalidLabel s => "Cannot parse `" ++ s ++ "` as label"

structure Address where
  base : Register
  shift : Nat
  index : Option Register
  deriving DecidableEq, Repr

namespace Address

def text (a : Address) : String :=
  let cell := a.base.name ++ " + " ++ toString a.shift
  match a.index with
  | some index => cell ++ " + " ++ index.name
  | none => cell

/-- The address that the parts between the plus signs name. -/
def ofParts? : List (List Char) → Option Address
  | [base, shift] => do
    return ⟨← (Register.parse base).toOption, ← Text.word? shift, none⟩
  | [base, shift, index] => do
    return ⟨← (Register.parse base).toOption, ← Text.word? shift,
      some (← (Register.parse index).toOption)⟩
  | _ => none

def parse (cs : List Char) : Except ParseError Address :=
  match ofParts? ((cs.splitOn '+').map Text.trim) with
  | some a => .ok a
  | none => .error (.invalidOperand (String.ofList cs))

end Address

inductive Operand where
  | number (value : Number)
  | register (name : Register)
  /-- The memory cell at the address. -/
  | memory (address : Address)
  /-- The address itself. -/
  | address (address : Address)
  deriving DecidableEq, Repr

namespace Operand

def text : Operand → String
  | .number value => value.text
  | .register name => name.name
  | .memory a => "[" ++ a.text ++ "]"
  | .address a => a.text

/-- What stands between a bracket at the start and one at the end. -/
def bracketed? : List Char → Option (List Char)
  | '[' :: rest => if rest.getLast? == some ']' then some rest.dropLast else none
  | _ => none

/-- A memory cell if it stands in brackets; else a register, a number or an address, in this order.
-/
def parse (cs : List Char) : Except ParseError Operand :=
  let body := Text.trim cs
  match bracketed? body with
  | some inner => (Address.parse inner).map .memory
  | none =>
    match Register.parse body with
    | .ok name => .ok (.register name)
    | .error _ =>
      match Number.parse? body with
      | some value => .ok (.number value)
      | none => (Address.parse body).map .address

/-- Equality up to the machine's equality of numbers. -/
def agrees : Operand → Operand → Bool
  | .number v, .number w => v.agrees w
  | o, p => o == p

end Operand

end StackCompiler
