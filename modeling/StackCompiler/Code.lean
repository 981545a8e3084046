import StackCompiler.Machine.Instruction

/-!
# Code

Assembly code as lines: instructions, labels and comments, each at a nesting depth. The depth and
the comments serve the reader of a listing only.
-/
namespace StackCompiler

inductive Item where
  | instruction (instruction : Instruction)
  | label (name : String)
  | comment (text : String)
  deriving DecidableEq, Repr

namespace Item

@[simp] def instruction? : Item → Option Instruction
  | .instruction i => some i
  | _ => none

@[simp] def label? : Item → Option String
  | .label name => some name
  | _ => none

end Item

structure Line where
  depth : Nat
  item : Item
  deriving DecidableEq, Repr

structure Layout where
  /-- Blanks per level of nesting. -/
  indent : Nat := 4
  /-- Whether comments are written. -/
  comments : Bool := true
  deriving DecidableEq, Repr

abbrev Code := List Line

namespace Code

def ofInstructions (is : List Instruction) : Code :=
  is.map fun i => ⟨0, .instruction i⟩

def label (name : String) : Code :=
  [⟨0, .label name⟩]

def comment (text : String) : Code :=
  [⟨0, .comment text⟩]

/-- The code one level deeper. -/
def indented (code : Code) : Code :=
  code.map fun line => { line with depth := line.depth + 1 }

/-- What `f` sees of the items, in their order. -/
def view {α : Type} (f : Item → Option α) (code : Code) : List α :=
  code.filterMap fun line => f line.item

@[simp] abbrev instructions (code : Code) : List Instruction :=
  code.view Item.instruction?

@[simp] abbrev labels (code : Code) : List String :=
  code.view Item.label?

@[simp] theorem indented_append (a b : Code) :
    indented (a ++ b) = indented a ++ indented b := by
  simp [indented]

section View

variable {α : Type} (f : Item → Option α)

@[simp] theorem view_nil : view f [] = [] := rfl

@[simp] theorem view_cons (line : Line) (code : Code) :
    view f (line :: code) = (f line.item).toList ++ view f code := by
  unfold view
  rw [List.filterMap_cons]
  cases f line.item <;> rfl

@[simp] theorem view_append (a b : Code) : view f (a ++ b) = view f a ++ view f b := by
  simp [view]

@[simp] theorem view_indented (code : Code) : view f (indented code) = view f code := by
  simp only [view, indented, List.filterMap_map]
  rfl

@[simp low] theorem view_ofInstructions (is : List Instruction) :
    view f (ofInstructions is) = is.filterMap fun i => f (.instruction i) := by
  simp only [view, ofInstructions, List.filterMap_map]
  rfl

@[simp] theorem view_label (name : String) : view f (label name) = (f (.label name)).toList := by
  simp [label]

@[simp] theorem view_comment (text : String) :
    view f (comment text) = (f (.comment text)).toList := by
  simp [comment]

theorem map_view {β : Type} (g : α → β) (code : Code) :
    (view f code).map g = view (fun item => (f item).map g) code := by
  rw [view, List.map_filterMap]
  rfl

theorem filterMap_view {β : Type} (g : α → Option β) (code : Code) :
    (view f code).filterMap g = view (fun item => (f item).bind g) code := by
  rw [view, List.filterMap_filterMap]
  rfl

end View

@[simp] theorem instructions_ofInstructions (is : List Instruction) :
    instructions (ofInstructions is) = is := by
  simp

end Code

namespace Item

/-- Equality up to the machine's equality of numbers. -/
def agrees : Item → Item → Bool
  | .instruction i, .instruction j => i.agrees j
  | a, b => a == b

end Item

namespace Line

def agrees (a b : Line) : Bool :=
  a.depth == b.depth && a.item.agrees b.item

def margin (layout : Layout) (line : Line) : String :=
  String.ofList (List.replicate (line.depth * layout.indent) ' ')

/-- The text of a line with its line break. Comments stand at the margin. -/
def render (layout : Layout) (line : Line) : String :=
  match line.item with
  | .instruction i => line.margin layout ++ i.text ++ "\n"
  | .label name => line.margin layout ++ name ++ ":\n"
  | .comment text => if layout.comments then "; " ++ text ++ "\n" else ""

/-- A label at the outermost level opens a block. -/
def opensBlock (line : Line) : Bool :=
  match line.item with
  | .label _ => line.depth == 0
  | _ => false

end Line

namespace Code

def agrees (a b : Code) : Bool :=
  a.length == b.length && (a.zip b).all fun (l, m) => l.agrees m

/-- The text of a line that is not the first: an empty line sets off each block. -/
def renderNext (layout : Layout) (line : Line) : String :=
  (if line.opensBlock then "\n" else "") ++ line.render layout

def render (layout : Layout) : Code → String
  | [] => ""
  | first :: rest => first.render layout ++ String.join (rest.map (renderNext layout))

end Code

end StackCompiler
