import StackCompiler.Tree.Basic

/-!
# Node arenas

A program under work is an array of nodes that refer to their children by position. Nodes are only
ever added, so a position once given keeps its node. A node may be the child of several others.
-/
namespace StackCompiler

/-- The position of a node in its arena. -/
abbrev NodeId := Nat

namespace NodeId

def text (id : NodeId) : String :=
  "#" ++ toString id

/-- A label that belongs to one node: the position, in hexadecimal, tells labels of one kind apart.
-/
def label (id : NodeId) (kind : String) : String :=
  kind ++ "." ++ String.ofList (Nat.toDigits 16 id)

end NodeId

inductive Kind where
  | number (value : Number)
  | ident (name : String)
  | keyword (tag : Keyword)
  deriving DecidableEq, Repr

structure Node where
  kind : Kind
  left : Option NodeId
  right : Option NodeId
  deriving DecidableEq, Repr

structure Arena where
  nodes : Array Node
  root : Option NodeId
  deriving DecidableEq, Repr

namespace Arena

def empty : Arena := ⟨#[], none⟩

def isEmpty (a : Arena) : Bool :=
  a.nodes.isEmpty

def node? (a : Arena) (id : NodeId) : Option Node :=
  a.nodes[id]?

end Arena

abbrev Build := StateM Arena

namespace Build

def push (kind : Kind) (left right : Option NodeId) : Build NodeId :=
  fun a => (a.nodes.size, { a with nodes := a.nodes.push ⟨kind, left, right⟩ })

def number (value : Number) : Build NodeId :=
  push (.number value) none none

def ident (name : String) : Build NodeId :=
  push (.ident name) none none

/-- The element `name[index]`. -/
def indexed (name : String) (index : NodeId) : Build NodeId :=
  push (.ident name) none (some index)

def keyword (tag : Keyword) (left right : Option NodeId) : Build NodeId :=
  push (.keyword tag) left right

def binary (tag : Keyword) (left right : NodeId) : Build NodeId :=
  keyword tag (some left) (some right)

def unary (tag : Keyword) (operand : NodeId) : Build NodeId :=
  keyword tag none (some operand)

/-- Links the items to the chain that ends in `head`. -/
def chainFrom (tag : Keyword) : Option NodeId → List NodeId → Build (Option NodeId)
  | head, [] => pure head
  | head, item :: rest => do
    let link ← keyword tag head (some item)
    chainFrom tag (some link) rest

/-- A chain of `tag` nodes over the items. The first item is innermost. -/
def chain (tag : Keyword) (items : List NodeId) : Build (Option NodeId) :=
  chainFrom tag none items

def stmts (items : List NodeId) : Build (Option NodeId) :=
  chain .stmt items

def params (items : List NodeId) : Build (Option NodeId) :=
  chain .param items

def assign (target value : NodeId) : Build NodeId :=
  binary .assign target value

def call (name : String) (args : List NodeId) : Build NodeId := do
  let callee ← ident name
  let args ← params args
  keyword .call (some callee) args

def define (name : String) (parameters : List String) (body : List NodeId) : Build NodeId := do
  let name ← ident name
  let parameters ← parameters.mapM ident
  let parameters ← params parameters
  let header ← keyword .func (some name) parameters
  let body ← stmts body
  keyword .define (some header) body

def setRoot (id : NodeId) : Build Unit :=
  modify fun a => { a with root := some id }

/-- Chains the statements and makes the chain the root. Without statements the root stays. -/
def program (statements : List NodeId) : Build (Option NodeId) := do
  match ← stmts statements with
  | none => return none
  | some head =>
    setRoot head
    return some head

/-- Adds the nodes of a tree, children first. -/
def tree : Tree → Build (Option NodeId)
  | .absent => pure none
  | .number value => do return some (← number value)
  | .ident name index => do
    let index ← tree index
    return some (← push (.ident name) none index)
  | .keyword tag left right => do
    let left ← tree left
    let right ← tree right
    return some (← keyword tag left right)

end Build

/-- The arena of a tree, with the tree's top node for its root. -/
def Arena.ofTree (t : Tree) : Arena :=
  let (root, a) := (Build.tree t).run Arena.empty
  { a with root }

end StackCompiler
