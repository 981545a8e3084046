import StackCompiler.Proofs.Lowering.Labels
import Mathlib.Logic.Relation
import Mathlib.Logic.Function.Basic

/-!
# The stack machine

How code is executed, for any machine: what its values are, what its operators give and where its
cells lie is left open. Operators are relations, so that an operator need not give the same result
twice.

Control is the list of what is still to be executed. A label stands for the code from it on, and a
call keeps the code after it on a stack of its own, where `ret` finds it. Comments and nesting are
not seen by the machine.
-/
namespace StackCompiler

/-- The values of a machine and what it computes with them. -/
structure Machine where
  Value : Type
  [decEq : DecidableEq Value]
  literal : Number → Value
  /-- `unary operation a r`: the operation may give `r` at `a`. -/
  unary : Operation → Value → Value → Prop
  binary : Operation → Value → Value → Value → Prop
  equal : Value → Value → Prop
  /-- The cell at a shift from a base, and at an element shift from there if there is one. -/
  cell : Value → Nat → Option Value → Value

instance (m : Machine) : DecidableEq m.Value := m.decEq

namespace Operation

def isUnary : Operation → Bool
  | .not | .sin | .cos | .int => true
  | _ => false

def isBinary : Operation → Bool
  | .add | .sub | .mul | .div | .pow | .eq | .neq | .above | .below | .aboveEq | .belowEq | .and
  | .or => true
  | _ => false

theorem isBinary_of_isUnary {operation : Operation} (h : operation.isUnary = true) :
    operation.isBinary = false := by
  cases operation <;> first | rfl | cases h

/-- How many values an operation takes from the evaluation stack. -/
def pops (operation : Operation) : Nat :=
  if operation.isBinary then 2 else if operation.isUnary then 1
  else match operation with
    | .out => 1
    | .shw => 2
    | _ => 0

theorem pops_of_isUnary {operation : Operation} (h : operation.isUnary = true) :
    operation.pops = 1 := by
  cases operation <;> first | rfl | cases h

theorem pops_of_isBinary {operation : Operation} (h : operation.isBinary = true) :
    operation.pops = 2 := by
  cases operation <;> first | rfl | cases h

end Operation

theorem Keyword.isUnary_of_meaning {tag : Keyword} {operation : Operation}
    (h : tag.meaning? = some (.unary operation)) : operation.isUnary = true := by
  cases tag <;> cases h <;> rfl

theorem Keyword.isBinary_of_meaning {tag : Keyword} {operation : Operation}
    (h : tag.meaning? = some (.binary operation)) : operation.isBinary = true := by
  cases tag <;> cases h <;> rfl

/-- How many values an instruction takes from the evaluation stack. -/
def Instruction.pops : Instruction → Nat
  | .push _ => 0
  | .pop _ => 1
  | .transfer .jumpEq _ => 2
  | .transfer _ _ => 0
  | .plain operation => operation.pops

/-- The item, unless it is a comment. -/
@[simp] def Item.command? : Item → Option Item
  | .comment _ => none
  | item => some item

/-- What the machine sees of code: all but comments. -/
@[simp] abbrev Code.commands (code : Code) : List Item :=
  code.view Item.command?

@[simp] theorem Code.commands_ofInstructions (is : List Instruction) :
    (ofInstructions is).commands = is.map .instruction := by
  simp

theorem Code.filterMap_commands (code : Code) :
    code.commands.filterMap Item.label? = code.labels := by
  have hlabel : (fun item : Item => item.command?.bind Item.label?) = Item.label? := by
    funext item
    cases item <;> rfl
  rw [commands, filterMap_view, hlabel]

/-- What the machine writes: a value, or a value with the address that it is shown for. -/
inductive Message (Value : Type) where
  | value (v : Value)
  | shown (address v : Value)

/-- All that a program can change for good. -/
structure World (m : Machine) where
  memory : m.Value → m.Value
  input : List m.Value
  output : List (Message m.Value)

namespace World

variable {m : Machine}

def store (w : World m) (cell v : m.Value) : World m :=
  { w with memory := Function.update w.memory cell v }

def write (w : World m) (message : Message m.Value) : World m :=
  { w with output := w.output ++ [message] }

end World

namespace Machine

variable (m : Machine)

structure State where
  /-- What is still to be executed. -/
  rest : List Item
  stack : List m.Value
  registers : Register → m.Value
  world : World m
  /-- Where the calls under way go on, the last one first. -/
  returns : List (List Item)

/-- The number zero. -/
def zero : m.Value :=
  m.literal (.ofNat 0)

def cellOf (registers : Register → m.Value) (a : Address) : m.Value :=
  m.cell (registers a.base) a.shift (a.index.map registers)

def valueOf (registers : Register → m.Value) (w : World m) : Operand → m.Value
  | .number n => m.literal n
  | .register r => registers r
  | .memory a => w.memory (m.cellOf registers a)
  | .address a => m.cellOf registers a

/-- The code from the first place of a label on. -/
def seek (l : String) (code : List Item) : List Item :=
  code.dropWhile (· ≠ .label l)

@[simp] theorem seek_label (l : String) (rest : List Item) :
    seek l (.label l :: rest) = .label l :: rest := by
  simp [seek]

theorem seek_cons_of_ne {l : String} {item : Item} (h : item ≠ .label l) (rest : List Item) :
    seek l (item :: rest) = seek l rest := by
  simp [seek, h]

/-- A label that is set is found. -/
theorem seek_of_mem {code : List Item} {l : String} (h : .label l ∈ code) :
    ∃ rest, seek l code = .label l :: rest := by
  induction code with
  | nil => cases h
  | cons item code ih =>
    by_cases hitem : item = .label l
    · subst hitem
      exact ⟨code, seek_label l code⟩
    · rw [seek_cons_of_ne hitem]
      exact ih (List.mem_of_ne_of_mem (Ne.symm hitem) h)

theorem mem_labels_iff {code : List Item} {l : String} :
    l ∈ code.filterMap Item.label? ↔ .label l ∈ code := by
  rw [List.mem_filterMap]
  constructor
  · rintro ⟨item, hitem, hl⟩
    cases item <;> simp_all [Item.label?]
  · intro h
    exact ⟨_, h, rfl⟩

theorem seek_append {a b : List Item} {l : String} (h : l ∉ a.filterMap Item.label?) :
    seek l (a ++ b) = seek l b := by
  apply List.dropWhile_append_of_pos
  intro item hitem
  rw [decide_eq_true_iff]
  rintro rfl
  exact h (mem_labels_iff.mpr hitem)

/-- Where labels are different, each is found at its place. -/
theorem seek_eq_of_suffix {code r : List Item} {l : String}
    (hlabels : (code.filterMap Item.label?).Nodup) (h : (.label l :: r) <:+ code) :
    seek l code = .label l :: r := by
  obtain ⟨before, rfl⟩ := h
  rw [seek_append, seek_label]
  intro hl
  rw [List.filterMap_append, List.nodup_append] at hlabels
  exact hlabels.2.2 l hl l (mem_labels_iff.mpr List.mem_cons_self) rfl

/-- One step of the machine in a program. There is none at the end of the code, at `halt`, or where
the stack lacks an operand. -/
inductive Step (code : List Item) : m.State → m.State → Prop
  | label {l rest σ ρ w κ} :
      Step code ⟨.label l :: rest, σ, ρ, w, κ⟩ ⟨rest, σ, ρ, w, κ⟩
  | push {operand rest σ ρ w κ} :
      Step code ⟨.instruction (.push operand) :: rest, σ, ρ, w, κ⟩
        ⟨rest, m.valueOf ρ w operand :: σ, ρ, w, κ⟩
  | popRegister {r v rest σ ρ w κ} :
      Step code ⟨.instruction (.pop (some (.register r))) :: rest, v :: σ, ρ, w, κ⟩
        ⟨rest, σ, Function.update ρ r v, w, κ⟩
  | popMemory {a v rest σ ρ w κ} :
      Step code ⟨.instruction (.pop (some (.memory a))) :: rest, v :: σ, ρ, w, κ⟩
        ⟨rest, σ, ρ, w.store (m.cellOf ρ a) v, κ⟩
  | drop {v rest σ ρ w κ} :
      Step code ⟨.instruction (.pop none) :: rest, v :: σ, ρ, w, κ⟩ ⟨rest, σ, ρ, w, κ⟩
  | jump {l rest σ ρ w κ} :
      Step code ⟨.instruction (.transfer .jump l) :: rest, σ, ρ, w, κ⟩ ⟨seek l code, σ, ρ, w, κ⟩
  | jumpEqual {l a b rest σ ρ w κ} : m.equal a b →
      Step code ⟨.instruction (.transfer .jumpEq l) :: rest, b :: a :: σ, ρ, w, κ⟩
        ⟨seek l code, σ, ρ, w, κ⟩
  | passUnequal {l a b rest σ ρ w κ} : ¬ m.equal a b →
      Step code ⟨.instruction (.transfer .jumpEq l) :: rest, b :: a :: σ, ρ, w, κ⟩
        ⟨rest, σ, ρ, w, κ⟩
  | call {l rest σ ρ w κ} :
      Step code ⟨.instruction (.transfer .call l) :: rest, σ, ρ, w, κ⟩
        ⟨seek l code, σ, ρ, w, rest :: κ⟩
  | ret {rest r σ ρ w κ} :
      Step code ⟨.instruction (.plain .ret) :: rest, σ, ρ, w, r :: κ⟩ ⟨r, σ, ρ, w, κ⟩
  | unary {operation a r rest σ ρ w κ} : operation.isUnary = true → m.unary operation a r →
      Step code ⟨.instruction (.plain operation) :: rest, a :: σ, ρ, w, κ⟩ ⟨rest, r :: σ, ρ, w, κ⟩
  | binary {operation a b r rest σ ρ w κ} : operation.isBinary = true → m.binary operation a b r →
      Step code ⟨.instruction (.plain operation) :: rest, b :: a :: σ, ρ, w, κ⟩
        ⟨rest, r :: σ, ρ, w, κ⟩
  | input {v more rest σ ρ memory output κ} :
      Step code ⟨.instruction (.plain .input) :: rest, σ, ρ, ⟨memory, v :: more, output⟩, κ⟩
        ⟨rest, v :: σ, ρ, ⟨memory, more, output⟩, κ⟩
  | out {v rest σ ρ w κ} :
      Step code ⟨.instruction (.plain .out) :: rest, v :: σ, ρ, w, κ⟩
        ⟨rest, σ, ρ, w.write (.value v), κ⟩
  | shw {v a rest σ ρ w κ} :
      Step code ⟨.instruction (.plain .shw) :: rest, v :: a :: σ, ρ, w, κ⟩
        ⟨rest, σ, ρ, w.write (.shown a v), κ⟩

/-- Finitely many steps. -/
def Reaches (code : List Item) : m.State → m.State → Prop :=
  Relation.ReflTransGen (m.Step code)

variable {m} {code : List Item}

theorem Reaches.refl (s : m.State) : m.Reaches code s s :=
  Relation.ReflTransGen.refl

theorem Reaches.trans {s t u : m.State} (h : m.Reaches code s t) (h' : m.Reaches code t u) :
    m.Reaches code s u :=
  Relation.ReflTransGen.trans h h'

theorem Step.reaches {s t : m.State} (h : m.Step code s t) : m.Reaches code s t :=
  Relation.ReflTransGen.single h

theorem Step.andThen {s t u : m.State} (h : m.Step code s t) (h' : m.Reaches code t u) :
    m.Reaches code s u :=
  Relation.ReflTransGen.head h h'

/-- The whole numbers, where other operators than the first three of arithmetic give no result. -/
def integers : Machine where
  Value := Int
  literal n := n.toNat?.getD 0
  unary _ _ _ := False
  binary operation a b r :=
    match operation with
    | .add => r = a + b
    | .sub => r = a - b
    | .mul => r = a * b
    | _ => False
  equal a b := a = b
  cell base shift element := base + shift + element.getD 0

end Machine

namespace Lowering

open Instruction

section Forms

variable (id : NodeId) (condition : List Instruction) (l : String) (a b : Code)

/-- What the machine sees of a test. -/
def testCommands : List Item :=
  condition.map .instruction ++
    [.instruction (.push (.number (.ofNat 0))), .instruction (.transfer .jumpEq l)]

theorem commands_ifThen :
    (conditional id condition a none).commands =
      testCommands condition (id.label "if_fail") ++
        (a.commands ++ [.label (id.label "if_fail")]) := by
  simp [conditional, test, testCommands]

theorem commands_ifElse :
    (conditional id condition a (some b)).commands =
      testCommands condition (id.label "if_fail") ++ (a.commands ++
        (.instruction (.transfer .jump (id.label "if_end")) :: .label (id.label "if_fail") ::
          (b.commands ++ [.label (id.label "if_end")]))) := by
  simp [conditional, test, testCommands]

theorem commands_loop :
    (loop id condition a).commands =
      (.label (id.label "while") :: testCommands condition (id.label "while_end")) ++
        (a.commands ++ [.instruction (.transfer .jump (id.label "while")),
          .label (id.label "while_end")]) := by
  simp [loop, test, testCommands]

end Forms

end Lowering

end StackCompiler
