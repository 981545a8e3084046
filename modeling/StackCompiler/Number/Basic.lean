/-!
# Numbers of the stack machine

The machine computes with binary64 values. A finite value is held by its sign and its rank among the
finite values that are not negative, counted from zero: the next rank is the next value up. In units
of the least positive value each of them is a whole number, so that comparing and rounding are exact
in natural numbers. "Not a number" has many encodings, which differ in sign and payload.
-/
namespace StackCompiler

/-- How many values a binade has. -/
abbrev Number.binade : Nat := Nat.pow 2 52

/-- How many finite values are not negative: those of 2047 binades. -/
abbrev Number.finiteCount : Nat := 2047 * Number.binade

inductive Number where
  /-- Not a number. The payload is counted from zero among those of the sign. -/
  | nan (negative : Bool) (payload : Fin (Number.binade - 1))
  | infinity (negative : Bool)
  | finite (negative : Bool) (rank : Fin Number.finiteCount)
  deriving DecidableEq, Repr

namespace Number

/-- One, in units of the least positive value. -/
def unitsPerOne : Nat := Nat.pow 2 1074

/-- The value of rank `r` in units of the least positive value. -/
def units (r : Nat) : Nat :=
  if r < binade then r else (binade + r % binade) * Nat.pow 2 (r / binade - 1)

/-- The greatest rank with a value of at most `n` units. -/
def rankBelow (n : Nat) : Nat :=
  if n < 2 * binade then n
  else
    let excess := n.log2 - 52
    excess * binade + n / Nat.pow 2 excess

/-- The rank of the value nearest to `num / den` units. A tie goes to the even rank. -/
def nearestRank (num den : Nat) : Nat :=
  let r := rankBelow (num / den)
  let middle := den * (units r + units (r + 1))
  if 2 * num < middle then r
  else if middle < 2 * num then r + 1
  else r + r % 2

/-- The value of a rank; past the finite ones it is infinite. -/
def ofRank (negative : Bool) (r : Nat) : Number :=
  if h : r < finiteCount then .finite negative ⟨r, h⟩ else .infinity negative

def ofRatio (negative : Bool) (num den : Nat) : Number :=
  ofRank negative (nearestRank (num * unitsPerOne) den)

def ofNat (n : Nat) : Number :=
  ofRatio false n 1

def ofInt (i : Int) : Number :=
  ofRatio (i < 0) i.natAbs 1

def zero : Number := ofNat 0

/-- "Not a number" as it is read from text: the first of its quiet encodings. -/
def quietNaN (negative : Bool) : Number :=
  .nan negative ⟨Nat.pow 2 51 - 1, by decide⟩

def isNaN : Number → Bool
  | .nan _ _ => true
  | _ => false

def isFinite : Number → Bool
  | .finite _ _ => true
  | _ => false

/-- Equality as the machine sees it: the two zeros are equal, and "not a number" equals nothing. -/
def agrees : Number → Number → Bool
  | .nan _ _, _ | _, .nan _ _ => false
  | .finite s r, .finite t q => r == q && (s == t || r.val == 0)
  | .infinity s, .infinity t => s == t
  | _, _ => false

/-- The whole number that a finite value of at least zero is, if it is one. -/
def toNat? : Number → Option Nat
  | .finite negative rank =>
    let n := units rank
    if n % unitsPerOne == 0 && (!negative || n == 0) then some (n / unitsPerOne) else none
  | _ => none

end Number

end StackCompiler
