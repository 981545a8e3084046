import StackCompiler.Machine.Instruction

/-!
# Keywords

The tags of syntax nodes. Structural keywords shape a program; operators stand for an operation of
the machine and take their operands from the children of the node.
-/
namespace StackCompiler

inductive Keyword where
  /-- Left: the statements before, right: a statement. -/
  | stmt
  /-- Left: the parameters before, right: a parameter or an argument. -/
  | param
  /-- Left: header, right: body. -/
  | define
  /-- Left: name, right: parameters. -/
  | func
  /-- Left: target, right: value. -/
  | assign
  /-- Left: condition, right: decision. -/
  | ifThen
  /-- Left: then branch, right: else branch. -/
  | decision
  /-- Left: condition, right: body. -/
  | whileLoop
  /-- Right: value. -/
  | ret
  /-- Left: target, right: value. -/
  | display
  /-- Right: value. -/
  | out
  /-- Left: name, right: arguments. -/
  | call
  | add
  | sub
  | mul
  | div
  | pow
  | eq
  | neq
  | greater
  | less
  | greaterEq
  | lessEq
  | not
  | and
  | or
  | sin
  | cos
  | int
  | input
  deriving DecidableEq, Repr

inductive Arity where
  | nullary
  /-- The operand is the right child. -/
  | unary
  | binary
  deriving DecidableEq, Repr

def Arity.name : Arity → String
  | .nullary => "nullary"
  | .unary => "unary"
  | .binary => "binary"

namespace Keyword

/-- All keywords, in the order of their numbers. -/
def all : List Keyword :=
  [.stmt, .param, .define, .func, .assign, .ifThen, .decision, .whileLoop, .ret, .display, .out,
    .call, .add, .sub, .mul, .div, .pow, .eq, .neq, .greater, .less, .greaterEq, .lessEq, .not,
    .and, .or, .sin, .cos, .int, .input]

def name : Keyword → String
  | .stmt => "stmt"
  | .param => "param"
  | .define => "define"
  | .func => "func"
  | .assign => "assign"
  | .ifThen => "if"
  | .decision => "decision"
  | .whileLoop => "while"
  | .ret => "return"
  | .display => "show"
  | .out => "out"
  | .call => "call"
  | .add => "add"
  | .sub => "sub"
  | .mul => "mul"
  | .div => "div"
  | .pow => "pow"
  | .eq => "eq"
  | .neq => "neq"
  | .greater => "greater"
  | .less => "less"
  | .greaterEq => "greater_eq"
  | .lessEq => "less_eq"
  | .not => "not"
  | .and => "and"
  | .or => "or"
  | .sin => "sin"
  | .cos => "cos"
  | .int => "int"
  | .input => "in"

def ofName? (s : String) : Option Keyword :=
  all.find? (·.name == s)

/-- How many operands an operator has. Structural keywords are no operators. -/
def arity? : Keyword → Option Arity
  | .add | .sub | .mul | .div | .pow | .eq | .neq | .greater | .less | .greaterEq | .lessEq | .and
  | .or => some .binary
  | .not | .sin | .cos | .int => some .unary
  | .input => some .nullary
  | .stmt | .param | .define | .func | .assign | .ifThen | .decision | .whileLoop | .ret | .display
  | .out | .call => none

/-- The operation that an operator is lowered to. -/
def operation? : Keyword → Option Operation
  | .add => some .add
  | .sub => some .sub
  | .mul => some .mul
  | .div => some .div
  | .pow => some .pow
  | .eq => some .eq
  | .neq => some .neq
  | .greater => some .above
  | .less => some .below
  | .greaterEq => some .aboveEq
  | .lessEq => some .belowEq
  | .not => some .not
  | .and => some .and
  | .or => some .or
  | .sin => some .sin
  | .cos => some .cos
  | .int => some .int
  | .input => some .input
  | _ => none

end Keyword

end StackCompiler
