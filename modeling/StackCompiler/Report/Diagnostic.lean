import StackCompiler.Arena.Term
import StackCompiler.Text.Style

/-!
# Diagnostics

An error for a terminal: its message and, if it is about a node, the node and what stands there.
-/
namespace StackCompiler.Report

open Text (Colour Terminal)

variable (terminal : Terminal)

def bar : String :=
  "      " ++ terminal.paint Colour.blue.style "|"

def diagnostic (a : Arena) (e : CompileError) : String :=
  terminal.paint { colour := some .red, weight := some .bold } "error" ++ ": " ++ e.message ++
  "\n" ++
    match e.node? with
    | some id =>
      "     " ++ terminal.paint Colour.blue.style "-->" ++ " " ++
        terminal.paint { underlined := true } ("node " ++ id.text) ++ "\n" ++
        bar terminal ++ "\n" ++ bar terminal ++ " " ++ (a.term id).render ++ "\n" ++
        bar terminal ++ "\n"
    | none => ""

end StackCompiler.Report
