import StackCompiler.Tree.Keyword

/-!
# Trees

The form in which a program is handed over: numbers, identifiers with an optional index, and
keywords with up to two children. A child that is not there, and the tree of an empty document, is
`absent`.
-/
namespace StackCompiler

inductive Tree where
  | absent
  | number (value : Number)
  | ident (name : String) (index : Tree)
  | keyword (tag : Keyword) (left right : Tree)
  deriving DecidableEq, Repr

namespace Tree

def isAbsent : Tree → Bool
  | .absent => true
  | _ => false

def size : Tree → Nat
  | .absent => 0
  | .number _ => 1
  | .ident _ index => index.size + 1
  | .keyword _ left right => left.size + right.size + 1

end Tree

end StackCompiler
