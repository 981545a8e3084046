import StackCompiler.Tree.Keyword

/-!
# The operators of the language

What the operator keywords mean: how many operands each takes, and which operation of the machine it
is. Lowering reads the same off two tables, one of arities and one of operations. All three agree.
-/
namespace StackCompiler

/-- An operation with its operands. -/
inductive Operator where
  | binary (operation : Operation)
  | unary (operation : Operation)
  /-- Reads a value. It takes no operand. -/
  | input
  deriving DecidableEq, Repr

namespace Operator

def arity : Operator → Arity
  | binary _ => .binary
  | unary _ => .unary
  | input => .nullary

def operation : Operator → Operation
  | binary operation => operation
  | unary operation => operation
  | input => .input

end Operator

namespace Keyword

/-- The operator that a keyword means. The others are the keywords of statements, headers and calls.
-/
def meaning? : Keyword → Option Operator
  | .add => some (.binary .add)
  | .sub => some (.binary .sub)
  | .mul => some (.binary .mul)
  | .div => some (.binary .div)
  | .pow => some (.binary .pow)
  | .eq => some (.binary .eq)
  | .neq => some (.binary .neq)
  | .greater => some (.binary .above)
  | .less => some (.binary .below)
  | .greaterEq => some (.binary .aboveEq)
  | .lessEq => some (.binary .belowEq)
  | .and => some (.binary .and)
  | .or => some (.binary .or)
  | .not => some (.unary .not)
  | .sin => some (.unary .sin)
  | .cos => some (.unary .cos)
  | .int => some (.unary .int)
  | .input => some .input
  | .stmt | .param | .define | .func | .assign | .ifThen | .decision | .whileLoop | .ret | .display
  | .out | .call => none

theorem arity?_eq (tag : Keyword) : tag.arity? = tag.meaning?.map Operator.arity := by
  cases tag <;> rfl

theorem operation?_eq (tag : Keyword) : tag.operation? = tag.meaning?.map Operator.operation := by
  cases tag <;> rfl

theorem meaning?_eq_input {tag : Keyword} : tag.meaning? = some .input ↔ tag = .input := by
  cases tag <;> simp [meaning?]

end Keyword

end StackCompiler
