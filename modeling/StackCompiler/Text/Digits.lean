/-!
# Whole numbers in digits

Reading an unsigned whole number in a given base, and the two bounds on it that the formats use.
-/
namespace StackCompiler.Text

/-- The value of a digit; letters of either case follow the nine. -/
def digitValue? (c : Char) : Option Nat :=
  if c.isDigit then some (c.toNat - '0'.toNat)
  else if 'a' ≤ c && c ≤ 'z' then some (c.toNat - 'a'.toNat + 10)
  else if 'A' ≤ c && c ≤ 'Z' then some (c.toNat - 'A'.toNat + 10)
  else none

/-- The value of the digits of `cs` after the digits that gave `acc`. -/
def digitsFrom? (base : Nat) : Nat → List Char → Option Nat
  | acc, [] => some acc
  | acc, c :: rest =>
    match digitValue? c with
    | some d => if d < base then digitsFrom? base (acc * base + d) rest else none
    | none => none

/-- A nonempty run of digits and nothing else. -/
def natural? (base : Nat) (cs : List Char) : Option Nat :=
  if cs.isEmpty then none else digitsFrom? base 0 cs

def wordLimit : Nat := Nat.pow 2 64

/-- A decimal number that fits into a word; one `+` may stand in front. -/
def word? (cs : List Char) : Option Nat :=
  let digits := match cs with
    | '+' :: rest => rest
    | _ => cs
  match natural? 10 digits with
  | some n => if n < wordLimit then some n else none
  | none => none

end StackCompiler.Text
