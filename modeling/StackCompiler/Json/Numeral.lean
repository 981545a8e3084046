import StackCompiler.Number.Decimal

/-!
# Numerals of JSON

A numeral is kept as it was written, because its reading depends on what is asked for. As a whole
number it is exact and has to fit into a word. As a number of the machine it is rounded to the
nearest one, and it has to be in range.
-/
namespace StackCompiler.Json

structure Numeral where
  negative : Bool
  whole : List Char
  fraction : List Char
  /-- The exponent, if one is written. -/
  exponent : Option Int
  deriving DecidableEq, Repr

namespace Numeral

/-- The numeral without its sign. -/
def decimal (n : Numeral) : Decimal :=
  ⟨Number.digitsValue (n.whole ++ n.fraction), n.exponent.getD 0 - n.fraction.length⟩

/-- The nearest number of the machine. A numeral that is too large for one is refused. -/
def toNumber? (n : Numeral) : Option Number :=
  let x := n.decimal.toNumber n.negative
  if x.isFinite then some x else none

/-- The numeral as a whole number that fits into a word. -/
def toWord? (n : Numeral) : Option Nat :=
  if n.negative || !n.fraction.isEmpty || n.exponent.isSome then none
  else
    let w := Number.digitsValue n.whole
    if w < Text.wordLimit then some w else none

end Numeral

end StackCompiler.Json
