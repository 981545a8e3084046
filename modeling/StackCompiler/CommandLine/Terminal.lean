import StackCompiler.Text.Style

/-!
# The terminal of the command

The control sequences of common terminals. A style is changed by a sequence for each of its parts
that is another one afterwards.
-/
namespace StackCompiler.CommandLine

open Text (Colour Weight Style Terminal)

/-- The sequence for a code of the standard. -/
def sequence (code : Nat) : String :=
  "\x1b[" ++ toString code ++ "m"

/-- The code that switches to a colour, or back to that of plain text. -/
def colourCode : Option Colour → Nat
  | some .red => 31
  | some .green => 32
  | some .yellow => 33
  | some .blue => 34
  | some .magenta => 35
  | none => 39

def weightCode : Option Weight → Nat
  | some .bold => 1
  | some .dim => 2
  | none => 22

def underlineCode (underlined : Bool) : Nat :=
  if underlined then 4 else 24

def terminal : Terminal where
  change old new :=
    (if old.colour = new.colour then "" else sequence (colourCode new.colour)) ++
      (if old.weight = new.weight then "" else sequence (weightCode new.weight)) ++
      (if old.underlined = new.underlined then "" else sequence (underlineCode new.underlined))

end StackCompiler.CommandLine
