import StackCompiler.Number.Basic
import StackCompiler.Text.Digits
import StackCompiler.Text.Blank

/-!
# Decimals

A decimal `± digits * 10 ^ exponent` is read as the nearest number. A number is written with the
fewest digits that read back as it: on each decimal grid, coarse to fine, the two neighbours of the
value are tried, and the first grid with a neighbour that reads back is taken. If both do, the
nearer one is taken, and the caller settles a tie.
-/
namespace StackCompiler

structure Decimal where
  digits : Nat
  exponent : Int
  deriving DecidableEq, Repr

namespace Decimal

/-- The quotient of two natural numbers that `d` is. -/
def ratio (d : Decimal) : Nat × Nat :=
  if 0 ≤ d.exponent then (d.digits * Nat.pow 10 d.exponent.toNat, 1)
  else (d.digits, Nat.pow 10 (-d.exponent).toNat)

/-- How many decimal digits `n` has; none for zero. -/
def digitCount (n : Nat) : Nat :=
  if n = 0 then 0 else (Nat.toDigits 10 n).length

/-- The position of the first digit: `d` is below `10 ^ d.magnitude`, and not below a tenth of it
unless it is zero. -/
def magnitude (d : Decimal) : Int :=
  digitCount d.digits + d.exponent

/-- Decimals of magnitude above this one exceed every finite value, and those of magnitude below its
negation are less than half of the least positive one. -/
def magnitudeLimit : Int := 400

def toNumber (negative : Bool) (d : Decimal) : Number :=
  if d.digits = 0 || d.magnitude < -magnitudeLimit then .ofRank negative 0
  else if magnitudeLimit < d.magnitude then .infinity negative
  else .ofRatio negative d.ratio.1 d.ratio.2

end Decimal

namespace Number

def spanDigits (cs : List Char) : List Char × List Char :=
  (cs.takeWhile Char.isDigit, cs.dropWhile Char.isDigit)

/-- The value of a run of digits, zero if it is empty. -/
def digitsValue (cs : List Char) : Nat :=
  (Text.digitsFrom? 10 0 cs).getD 0

def splitSign : List Char → Bool × List Char
  | '-' :: rest => (true, rest)
  | '+' :: rest => (false, rest)
  | cs => (false, cs)

/-- What may follow the digits: nothing, or `e` with a signed run of digits. -/
def exponent? : List Char → Option Int
  | [] => some 0
  | c :: rest =>
    if c == 'e' || c == 'E' then
      let (negative, ds) := splitSign rest
      match Text.natural? 10 ds with
      | some n => some (if negative then -n else n)
      | none => none
    else none

/-- Digits with at most one point among them and an optional exponent. There is at least one digit
beside the point. -/
def decimal? (cs : List Char) : Option Decimal :=
  let (whole, rest) := spanDigits cs
  let (fraction, rest) := match rest with
    | '.' :: rest => spanDigits rest
    | _ => ([], rest)
  if whole.isEmpty && fraction.isEmpty then none
  else
    match exponent? rest with
    | some e => some ⟨digitsValue (whole ++ fraction), e - fraction.length⟩
    | none => none

/-- A number in text: an optional sign, then `inf`, `infinity` or `nan` in any case, or a decimal.
-/
def parse? (cs : List Char) : Option Number :=
  let (negative, body) := splitSign cs
  let name := Text.lower body
  if name == "inf".toList || name == "infinity".toList then some (.infinity negative)
  else if name == "nan".toList then some (quietNaN negative)
  else (decimal? body).map (Decimal.toNumber negative)

/-- Which of two equally near decimals is written. -/
inductive Tie where
  | up
  | even
  deriving DecidableEq, Repr

/-- The position of the first digit of the value of rank `r`, which is not zero. -/
def magnitude (r : Nat) : Int :=
  let n := units r
  if unitsPerOne ≤ n then Decimal.digitCount (n / unitsPerOne)
  else 1 - (Decimal.digitCount ((unitsPerOne - 1) / n) : Int)

def readsAs (r : Nat) (d : Decimal) : Bool :=
  nearestRank (d.ratio.1 * unitsPerOne) d.ratio.2 == r

def compareTwice (r : Nat) (d : Decimal) : Ordering :=
  compare (2 * units r * d.ratio.2) (d.ratio.1 * unitsPerOne)

/-- The greatest multiple of `10 ^ exponent` that is at most the value of rank `r`. -/
def gridBelow (r : Nat) (exponent : Int) : Decimal :=
  let grid : Decimal := ⟨1, exponent⟩
  ⟨units r * grid.ratio.2 / (grid.ratio.1 * unitsPerOne), exponent⟩

/-- Which of two neighbours on a grid is written: one that reads back, the nearer one if both do. To
twice the value their sum is compared. -/
def Tie.choose (tie : Tie) (reads : Decimal → Bool) (compares : Decimal → Ordering)
    (low high : Decimal) : Option Decimal :=
  match reads low, reads high with
  | true, false => some low
  | false, true => some high
  | false, false => none
  | true, true =>
    match compares ⟨low.digits + high.digits, low.exponent⟩, tie with
    | .lt, _ => some low
    | .gt, _ => some high
    | .eq, .up => some high
    | .eq, .even => some (if low.digits % 2 == 0 then low else high)

/-- The decimal to write on one grid, if a neighbour of the value there reads back. -/
def onGrid? (tie : Tie) (r : Nat) (exponent : Int) : Option Decimal :=
  let low := gridBelow r exponent
  tie.choose (readsAs r) (compareTwice r) low ⟨low.digits + 1, exponent⟩

def exactDecimal (r : Nat) : Decimal :=
  ⟨units r * Nat.pow 5 1074, -1074⟩

/-- Seventeen digits always suffice. -/
def maxDigits : Nat := 17

/-- The shortest decimal of the value of rank `r`, which is not zero. A carry into a further digit
leaves a last digit zero, which is dropped. -/
def shortest (tie : Tie) (r : Nat) : Decimal :=
  let first := magnitude r
  let grids := (List.range maxDigits).map fun (n : Nat) => first - 1 - (n : Int)
  let d := (grids.findSome? (onGrid? tie r)).getD (exactDecimal r)
  if d.digits = 10 then ⟨1, d.exponent + 1⟩ else d

end Number

end StackCompiler
