import StackCompiler.Number.Decimal

/-!
# Numbers in writing

Three layouts of the same shortest digits. In a listing a number is always positional and a whole
number has no point. In the two interchange formats a whole number keeps `.0` and very large and
very small numbers have an exponent. Each format has its own sign for positive exponents and its own
words for what is not finite.
-/
namespace StackCompiler.Number

def signText (negative : Bool) : String :=
  if negative then "-" else ""

def zeros (n : Nat) : String :=
  String.ofList (List.replicate n '0')

def withPoint (ds : List Char) (n : Nat) : String :=
  String.ofList (ds.take n) ++ "." ++ String.ofList (ds.drop n)

/-- Positional form without an exponent; a point only before a fraction. -/
def positional (d : Decimal) : String :=
  let ds := Nat.toDigits 10 d.digits
  let point := ds.length + d.exponent
  if 0 ≤ d.exponent then String.ofList ds ++ zeros d.exponent.toNat
  else if 0 < point then withPoint ds point.toNat
  else "0." ++ zeros (-point).toNat ++ String.ofList ds

/-- The form of a number in a listing. -/
def text : Number → String
  | .nan _ _ => "NaN"
  | .infinity negative => signText negative ++ "inf"
  | .finite negative rank =>
    signText negative ++ if rank.val = 0 then "0" else positional (shortest .up rank)

instance : ToString Number := ⟨text⟩

/-- Positional with a point from `1e-5` to below `1e16`, with an exponent outside. A positive
exponent has the sign `plus`. -/
def scientific (plus : String) (d : Decimal) : String :=
  let ds := Nat.toDigits 10 d.digits
  let point := ds.length + d.exponent
  if 0 ≤ d.exponent && point ≤ 16 then String.ofList ds ++ zeros d.exponent.toNat ++ ".0"
  else if 0 < point && point ≤ 16 then withPoint ds point.toNat
  else if -5 < point && point ≤ 0 then "0." ++ zeros (-point).toNat ++ String.ofList ds
  else
    let mantissa := if ds.length ≤ 1 then String.ofList ds else withPoint ds 1
    mantissa ++ "e" ++ (if 0 < point - 1 then plus else "") ++ toString (point - 1)

/-- The interchange form of a finite value, with `plus` for the sign of a positive exponent. -/
def finiteText (plus : String) (negative : Bool) (rank : Nat) : String :=
  signText negative ++ if rank = 0 then "0.0" else scientific plus (shortest .even rank)

end StackCompiler.Number
