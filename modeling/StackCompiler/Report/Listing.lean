import StackCompiler.Program

/-!
# Coloured listings

The tables and the code of a program for a terminal. Instructions are numbered from zero.
-/
namespace StackCompiler

namespace Report

open Text (Colour Terminal)

/-- A rule across the page with a title in its margin. -/
def rule (title : String) : String :=
  "+-[" ++ title ++ "]" ++ String.ofList (List.replicate (8 - title.length) '-') ++ "+" ++
    String.ofList (List.replicate 60 '-') ++ "\n"

def marginText (s : String) : String :=
  "| " ++ String.ofList (List.replicate (9 - s.length) ' ') ++ s ++ " : "

def variableLine (terminal : Terminal) (base : Register) (v : Variable) : String :=
  marginText "" ++ terminal.paint Colour.blue.style v.name ++
    (match v.length with
      | some n => "[" ++ toString n ++ "]"
      | none => "") ++
    " @ " ++ base.name ++ " + " ++ toString v.shift ++ "\n"

def frameLines (terminal : Terminal) (f : Frame) : String :=
  String.join (f.declared.map (variableLine terminal f.base))

def functionLines (terminal : Terminal) (p : Program) (f : Function) : String :=
  let frame := p.frame? f.name
  "+-----------+ " ++ terminal.paint Colour.green.style f.signature ++ " frame " ++
    toString ((frame.map Frame.size).getD 0) ++ "\n" ++ ((frame.map (frameLines terminal)).getD "")

/-- The lines of code, where `count` instructions came before. -/
def codeLines (terminal : Terminal) : Nat → Code → String
  | _, [] => ""
  | count, line :: rest =>
    match line.item with
    | .instruction i =>
      marginText (toString count) ++ String.ofList (List.replicate (2 * line.depth) ' ') ++
        i.coloured terminal ++ "\n" ++ codeLines terminal (count + 1) rest
    | .label name =>
      "| " ++ terminal.paint Colour.magenta.style name ++ ":\n" ++ codeLines terminal count rest
    | .comment text =>
      "| " ++ terminal.paint { weight := some .dim } ("; " ++ text) ++ "\n" ++
        codeLines terminal count rest

end Report

def Program.listing (terminal : Text.Terminal) (p : Program) : String :=
  Report.rule "Globals" ++ Report.frameLines terminal p.globals ++
    Report.rule "Funcs" ++ String.join (p.functions.map (Report.functionLines terminal p)) ++
    Report.rule "Code" ++ Report.codeLines terminal 0 p.code

end StackCompiler
