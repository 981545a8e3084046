/-!
# Styled text

Text for a terminal in pieces, each in a style of its own. What a terminal has to be sent to go from
one style to another is left to the terminal. Text is passed through as it is.
-/
namespace StackCompiler.Text

inductive Colour where
  | red
  | green
  | yellow
  | blue
  | magenta
  deriving DecidableEq, Repr

inductive Weight where
  | bold
  | dim
  deriving DecidableEq, Repr

structure Style where
  colour : Option Colour := none
  weight : Option Weight := none
  underlined : Bool := false
  deriving DecidableEq, Repr

def Style.plain : Style := {}

def Colour.style (c : Colour) : Style := { colour := some c }

/-- Pieces of text with their styles. -/
abbrev Styled := List (Style × String)

structure Terminal where
  /-- What is sent between two pieces, to go from the style of one to that of the other. -/
  change : Style → Style → String

namespace Terminal

/-- What is sent for some pieces, where the style is `old` before them and plain after them. -/
def sendFrom (terminal : Terminal) : Style → Styled → String
  | old, [] => terminal.change old .plain
  | old, (style, text) :: rest => terminal.change old style ++ text ++ terminal.sendFrom style rest

def send (terminal : Terminal) (pieces : Styled) : String :=
  terminal.sendFrom .plain pieces

def paint (terminal : Terminal) (style : Style) (text : String) : String :=
  terminal.send [(style, text)]

end Terminal

end StackCompiler.Text
