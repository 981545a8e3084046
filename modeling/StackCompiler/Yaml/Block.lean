import StackCompiler.Yaml.Scalar

/-!
# Block scalars

A block scalar is a run of lines that are indented alike, behind a header. Behind `|` the lines are
kept as they are. Behind `>` two lines become one with a blank between them, unless a line is
indented further or empty lines stand between. The header may say how far the lines are indented and
what becomes of the line breaks at the end.
-/
namespace StackCompiler.Yaml

/-- What is kept of the line breaks at the end: none, the first, or all of them. -/
inductive Chomping where
  | strip
  | clip
  | keep
  deriving DecidableEq, Repr

structure BlockHeader where
  chomping : Chomping := .clip
  /-- How much further than the block around them the lines are indented; zero if that is not said.
  -/
  increment : Nat := 0

def chomping? : Char → Option Chomping
  | '+' => some .keep
  | '-' => some .strip
  | _ => none

/-- The header behind the indicator, and how many characters it has. -/
def blockHeader? : List Char → Option (BlockHeader × Nat)
  | [] => some ({}, 0)
  | c :: rest =>
    match chomping? c, Text.natural? 10 [c] with
    | some chomping, _ =>
      match Text.natural? 10 (rest.take 1) with
      | some 0 => none
      | some n => some (⟨chomping, n⟩, 2)
      | none => some (⟨chomping, 0⟩, 1)
    | none, some 0 => none
    | none, some n =>
      match rest.head?.bind chomping? with
      | some chomping => some (⟨chomping, n⟩, 2)
      | none => some (⟨.clip, n⟩, 1)
    | none, none => some ({}, 0)

/-- Passes over indentation and empty lines. With an indentation of zero all blanks are passed over.
The result has the line breaks and the greatest column that was reached. -/
def blockBreaks (indent : Nat) :
    Nat → Cursor → List Char → Nat → Option (Cursor × List Char × Nat)
  | 0, c, breaks, widest => some (c, breaks, widest)
  | fuel + 1, c, breaks, widest =>
    let blanks := (c.rest.takeWhile (· == ' ')).length
    let c := c.skip (if indent = 0 then blanks else min blanks (indent - c.column))
    let widest := max widest c.column
    if (indent = 0 || c.column < indent) && c.head? == some '\t' then none
    else if c.head?.any isBreak then
      blockBreaks indent fuel c.skipBreak (breaks ++ c.breakText) widest
    else some (c, breaks, widest)

structure BlockText where
  /-- What is settled, last character first. -/
  settled : List Char := []
  /-- The line break behind the last line. -/
  lineBreak : List Char := []
  /-- The line breaks of the empty lines behind it. -/
  emptyLines : List Char := []
  /-- Whether the last line starts with a blank. -/
  setIn : Bool := false

namespace BlockText

/-- What joins the last line with a line after it, which `setIn` says to start with a blank. -/
def joint (b : BlockText) (folded setIn : Bool) : List Char :=
  if folded && b.lineBreak == ['\n'] && !b.setIn && !setIn then
    if b.emptyLines.isEmpty then [' '] else b.emptyLines
  else b.lineBreak ++ b.emptyLines

def finish (b : BlockText) (chomping : Chomping) : String :=
  let tail := match chomping with
    | .strip => []
    | .clip => b.lineBreak
    | .keep => b.lineBreak ++ b.emptyLines
  String.ofList (b.settled.reverse ++ tail)

end BlockText

def blockLines (folded : Bool) (indent : Nat) :
    Nat → Cursor → BlockText → Option (Cursor × BlockText)
  | 0, c, b => some (c, b)
  | fuel + 1, c, b =>
    match c.head? with
    | none => some (c, b)
    | some ch =>
      if c.column ≠ indent then some (c, b)
      else
        let setIn := isBlank ch
        let line := c.rest.takeWhile (!isBreak ·)
        let settled := line.reverse ++ ((b.joint folded setIn).reverse ++ b.settled)
        let c := c.skip line.length
        match c.head? with
        | none => some (c, ⟨settled, [], [], setIn⟩)
        | some _ =>
          match blockBreaks indent fuel c.skipBreak [] 0 with
          | none => none
          | some (next, emptyLines, _) =>
            blockLines folded indent fuel next ⟨settled, c.breakText, emptyLines, setIn⟩

/-- A block scalar, the cursor at its indicator, within a block at the column `outer`. -/
def block? (fuel : Nat) (folded : Bool) (outer : Int) (c : Cursor) : Option (String × Cursor) := do
  let (header, width) ← blockHeader? (c.rest.drop 1)
  let c ← (c.skip (1 + width)).endLine?
  let given := if header.increment = 0 then 0 else (max outer 0).toNat + header.increment
  let (c, emptyLines, widest) ← blockBreaks given fuel c [] 0
  let indent := if given = 0 then max widest (max (outer + 1) 1).toNat else given
  let (c, b) ← blockLines folded indent fuel c { emptyLines }
  return (b.finish header.chomping, c)

end StackCompiler.Yaml
