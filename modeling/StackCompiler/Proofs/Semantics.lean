import StackCompiler.Proofs.Execution
import StackCompiler.Proofs.Lowering.Statement

/-!
# What terms mean

The evaluation of expressions and statements without calls, in one big step, on the memory, the
input and the output of a machine. Operands are evaluated left to right and none is skipped. A name
means the cell that the final tables give it, at the element that its index selects. The identifier
that declares an array has its length for an index, so a write through it is to the first element.
-/
namespace StackCompiler

open Lowering (Form)

/-- How the execution of statements ends. -/
inductive Outcome (Value : Type) where
  | normal
  | returned (v : Value)

namespace Machine

variable (m : Machine) (tables : Scopes) (ρ : Register → m.Value)

/-- The cell of an element of a variable. -/
def place (frame : Frame) (v : Variable) (element : m.Value) : m.Value :=
  m.cell (ρ frame.base) v.shift (some element)

/-- The value of an expression, and the world after it. -/
inductive Evaluates : Term → World m → m.Value → World m → Prop
  | number {id n left right w} : Evaluates (.node id (.number n) left right) w (m.literal n) w
  | plain {id name left frame v w} :
      tables.find? name = some (frame, v) →
      Evaluates (.node id (.ident name) left .absent) w (w.memory (m.place ρ frame v m.zero)) w
  | element {id name left index frame v w i w'} :
      tables.find? name = some (frame, v) → Evaluates index w i w' →
      Evaluates (.node id (.ident name) left index) w (w'.memory (m.place ρ frame v i)) w'
  | unary {id tag operation left right w a w' r} :
      Keyword.meaning? tag = some (.unary operation) → Evaluates right w a w' →
      m.unary operation a r → Evaluates (.node id (.keyword tag) left right) w r w'
  | binary {id tag operation left right w a w₁ b w₂ r} :
      Keyword.meaning? tag = some (.binary operation) → Evaluates left w a w₁ →
      Evaluates right w₁ b w₂ → m.binary operation a b r →
      Evaluates (.node id (.keyword tag) left right) w r w₂
  | input {id left memory v more output} :
      Evaluates (.node id (.keyword .input) left .absent) ⟨memory, v :: more, output⟩ v
        ⟨memory, more, output⟩

/-- The element that an index selects: the first one if there is no index. -/
inductive Selects : Term → World m → m.Value → World m → Prop
  | first {w} : Selects .absent w m.zero w
  | index {index w i w'} : Evaluates m tables ρ index w i w' → Selects index w i w'

/-- The cell that an assignment writes to. -/
inductive Locates : Term → World m → m.Value → World m → Prop
  | declaration {id name left index frame v w} :
      tables.find? name = some (frame, v) → v.node = id →
      Locates (.node id (.ident name) left index) w (m.place ρ frame v m.zero) w
  | element {id name left index frame v w i w'} :
      tables.find? name = some (frame, v) → v.node ≠ id → Selects m tables ρ index w i w' →
      Locates (.node id (.ident name) left index) w (m.place ρ frame v i) w'

/-- How a statement or a chain of statements ends, and the world after it. A condition is false if
it equals zero. -/
inductive Executes : Form → Term → World m → Outcome m.Value → World m → Prop
  | assign {id left right w v w₁ cell w₂} :
      Evaluates m tables ρ right w v w₁ → Locates m tables ρ left w₁ cell w₂ →
      Executes .statement (.node id (.keyword .assign) left right) w .normal (w₂.store cell v)
  | ifTrue {id d condition thenPart elsePart w v w₁ o w₂} :
      Evaluates m tables ρ condition w v w₁ → ¬ m.equal v m.zero →
      Executes .chain thenPart w₁ o w₂ →
      Executes .statement
        (.node id (.keyword .ifThen) condition
          (.node d (.keyword .decision) thenPart elsePart)) w o w₂
  | ifFalse {id d condition thenPart elsePart w v w₁ o w₂} :
      Evaluates m tables ρ condition w v w₁ → m.equal v m.zero →
      Executes .chain elsePart w₁ o w₂ →
      Executes .statement
        (.node id (.keyword .ifThen) condition
          (.node d (.keyword .decision) thenPart elsePart)) w o w₂
  | whileFalse {id condition body w v w₁} :
      Evaluates m tables ρ condition w v w₁ → m.equal v m.zero →
      Executes .statement (.node id (.keyword .whileLoop) condition body) w .normal w₁
  | whileTrue {id condition body w v w₁ w₂ o w₃} :
      Evaluates m tables ρ condition w v w₁ → ¬ m.equal v m.zero →
      Executes .chain body w₁ .normal w₂ →
      Executes .statement (.node id (.keyword .whileLoop) condition body) w₂ o w₃ →
      Executes .statement (.node id (.keyword .whileLoop) condition body) w o w₃
  | whileReturn {id condition body w v w₁ r w₂} :
      Evaluates m tables ρ condition w v w₁ → ¬ m.equal v m.zero →
      Executes .chain body w₁ (.returned r) w₂ →
      Executes .statement (.node id (.keyword .whileLoop) condition body) w (.returned r) w₂
  | ret {id left right w v w'} :
      Evaluates m tables ρ right w v w' →
      Executes .statement (.node id (.keyword .ret) left right) w (.returned v) w'
  | display {id shown name left index right frame x w i w₁ v w₂} :
      tables.find? name = some (frame, x) → Selects m tables ρ index w i w₁ →
      Evaluates m tables ρ right w₁ v w₂ →
      Executes .statement
        (.node id (.keyword .display) (.node shown (.ident name) left index) right) w .normal
        (w₂.write (.shown (m.place ρ frame x i) v))
  | out {id left right w v w'} :
      Evaluates m tables ρ right w v w' →
      Executes .statement (.node id (.keyword .out) left right) w .normal (w'.write (.value v))
  | nil {w} : Executes .chain .absent w .normal w
  | cons {id before last w w₁ o w₂} :
      Executes .chain before w .normal w₁ → Executes .statement last w₁ o w₂ →
      Executes .chain (.node id (.keyword .stmt) before last) w o w₂
  | consReturn {id before last w v w'} :
      Executes .chain before w (.returned v) w' →
      Executes .chain (.node id (.keyword .stmt) before last) w (.returned v) w'

end Machine

end StackCompiler
