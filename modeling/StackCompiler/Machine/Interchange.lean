import StackCompiler.Machine.Instruction
import StackCompiler.Json.Value

/-!
# Instructions in JSON

The interchange form of an instruction is an object with one field, named by its mnemonic in
capitals. The field holds the operand of `push`, the operand of `pop` or `null`, the label of a
transfer, and an empty array for a plain operation. An operand is again an object with one field,
named by its kind.
-/
namespace StackCompiler

open Json (Value objectText quoted)

/-- A positive exponent has a plus sign. Not a number and the infinities have no numeral and are
written as `null`. -/
def Number.json : Number → String
  | .finite negative rank => finiteText "+" negative rank
  | _ => "null"

def Register.json (r : Register) : String := quoted r.name

def Address.json (a : Address) : String :=
  objectText
    [("base", a.base.json), ("shift", toString a.shift),
      ("index", match a.index with
        | some index => index.json
        | none => "null")]

def Operand.json : Operand → String
  | .number value => objectText [("Num", value.json)]
  | .register name => objectText [("Reg", name.json)]
  | .memory a => objectText [("Mem", a.json)]
  | .address a => objectText [("Addr", a.json)]

/-- The name of the field that holds an instruction with this mnemonic. -/
def Mnemonic.jsonName (m : Mnemonic) : String :=
  m.name.map Char.toUpper

def Instruction.json (i : Instruction) : String :=
  let body := match i with
    | .push operand => operand.json
    | .pop (some operand) => operand.json
    | .pop none => "null"
    | .transfer _ label => quoted label
    | .plain _ => "[]"
  objectText [(i.mnemonic.jsonName, body)]

def Json.Value.tagged? : Value → Option (String × Value)
  | .object [(some name, value)] => some (name, value)
  | _ => none

def Json.Value.fieldValues (name : String) (fields : List (Option String × Value)) : List Value :=
  (fields.filter (·.1 == some name)).map Prod.snd

/-- A register is a string, or an object that has its name for a field with `null`. -/
def Register.ofJson? : Value → Option Register
  | .string (some name) => Register.ofName? name
  | .object [(some name, .null)] => Register.ofName? name
  | _ => none

def Register.optionOfJson? : Value → Option (Option Register)
  | .null => some none
  | v => (Register.ofJson? v).map some

def Json.Value.word? : Value → Option Nat
  | .number n => n.toWord?
  | _ => none

/-- An address is an object with its fields by name, the index not required and other fields passed
over, or an array of the three fields in order. No field may be repeated. -/
def Address.ofJson? : Value → Option Address
  | .array [base, shift, index] => do
    return ⟨← Register.ofJson? base, ← shift.word?, ← Register.optionOfJson? index⟩
  | .object fields => do
    if fields.any (·.1.isNone) then none
    else
      match Value.fieldValues "base" fields, Value.fieldValues "shift" fields,
          Value.fieldValues "index" fields with
      | [base], [shift], [] => return ⟨← Register.ofJson? base, ← shift.word?, none⟩
      | [base], [shift], [index] =>
        return ⟨← Register.ofJson? base, ← shift.word?, ← Register.optionOfJson? index⟩
      | _, _, _ => none
  | _ => none

def Operand.ofJson? (v : Value) : Option Operand :=
  match v.tagged? with
  | some ("Num", .number n) => n.toNumber?.map .number
  | some ("Reg", body) => (Register.ofJson? body).map .register
  | some ("Mem", body) => (Address.ofJson? body).map .memory
  | some ("Addr", body) => (Address.ofJson? body).map .address
  | _ => none

def Instruction.ofJsonBody? : Mnemonic → Value → Option Instruction
  | .push, body => (Operand.ofJson? body).map .push
  | .pop, .null => some (.pop none)
  | .pop, body => (Operand.ofJson? body).map (.pop ∘ some)
  | .transfer kind, .string (some label) => some (.transfer kind label)
  | .plain operation, .array [] => some (.plain operation)
  | _, _ => none

def Instruction.ofJson? (v : Value) : Option Instruction := do
  let (name, body) ← v.tagged?
  let m ← Mnemonic.all.find? (·.jsonName == name)
  ofJsonBody? m body

def Instruction.parseJson? (cs : List Char) : Option Instruction := do
  Instruction.ofJson? (← Json.parse? cs)

end StackCompiler
