import StackCompiler.Proofs.Operators
import StackCompiler.Proofs.Term.Chain
import StackCompiler.Proofs.Term.Unfolding

/-!
# Places in a program

The grammar of programs, read off positions: a node stands at a place, which says what kinds of
nodes are admitted there, and its kind gives the places of its children and which of them are
needed. From the root this gives every node of a program its places. What an error says about a node
is judged by these places and by the functions and globals that the top level of the program names.
-/
namespace StackCompiler

inductive Place where
  /-- A link of the chain at the root, and what hangs from it. -/
  | program
  | topLevel
  | header
  | functionName
  /-- A link of the chain of formal parameters, and a parameter. -/
  | parameters
  | parameter
  /-- A link of a chain of statements inside a function, and a statement there. -/
  | block
  | statement
  | branches
  /-- A variable that is written or shown. -/
  | target
  | callee
  /-- A link of the chain of a call's arguments. -/
  | arguments
  | expression
  deriving DecidableEq, Repr

/-- What a child of a node is: nothing that counts, or a node at a place. One that is needed has a
name in errors. -/
inductive Child where
  | ignored
  | optional (place : Place)
  | required (place : Place) (what : String)
  deriving DecidableEq, Repr

namespace Child

def place? : Child → Option Place
  | .ignored => none
  | .optional place => some place
  | .required place _ => some place

def needed? : Child → Option String
  | .required _ what => some what
  | _ => none

end Child

namespace Place

/-- The tag of the links and the place of the elements, for the places that are links of a chain. -/
def chain? : Place → Option (Keyword × Place)
  | .program => some (.stmt, .topLevel)
  | .parameters => some (.param, .parameter)
  | .block => some (.stmt, .statement)
  | .arguments => some (.param, .expression)
  | _ => none

def isName : Place → Bool
  | .functionName | .parameter | .target | .callee => true
  | _ => false

/-- The children of a statement, left and right. -/
def statementChildren : Keyword → Child × Child
  | .assign => (.required .target "assignment target", .required .expression "assigned value")
  | .ifThen => (.required .expression "condition", .required .branches "branches")
  | .whileLoop => (.required .expression "condition", .required .block "loop body")
  | .ret => (.ignored, .required .expression "return value")
  | .display => (.required .target "shown variable", .required .expression "shown value")
  | .out => (.ignored, .required .expression "output value")
  | .call => (.required .callee "callee", .optional .arguments)
  | _ => (.ignored, .ignored)

/-- The children of a call or an operator, left and right. -/
def operandChildren (tag : Keyword) : Child × Child :=
  if tag = .call then statementChildren .call
  else
    match tag.meaning? with
    | some (.binary _) =>
      (.required .expression "left operand", .required .expression "right operand")
    | some (.unary _) => (.ignored, .required .expression "operand")
    | some .input => (.ignored, .optional .expression)
    | none => (.ignored, .ignored)

/-- The children of a node by its place and kind, left and right. -/
def children (place : Place) (kind : Kind) : Child × Child :=
  match place.chain? with
  | some (tag, element) =>
    if kind = .keyword tag then (.optional place, .required element "list element")
    else (.ignored, .ignored)
  | none =>
    match place, kind with
    | .topLevel, .keyword .define =>
      (.required .header "function header", .required .block "function body")
    | .topLevel, .keyword .assign => statementChildren .assign
    | .header, .keyword .func => (.required .functionName "function name", .optional .parameters)
    | .statement, .keyword tag => statementChildren tag
    | .branches, .keyword .decision => (.required .block "then branch", .optional .block)
    | .target, .ident _ => (.ignored, .optional .expression)
    | .expression, .ident _ => (.ignored, .optional .expression)
    | .expression, .keyword tag => operandChildren tag
    | _, _ => (.ignored, .ignored)

theorem children_link {place element : Place} {tag : Keyword}
    (h : place.chain? = some (tag, element)) :
    place.children (.keyword tag) = (.optional place, .required element "list element") := by
  simp [children, h]

def admits (place : Place) (kind : Kind) : Bool :=
  match place.chain? with
  | some (tag, _) => kind == .keyword tag
  | none =>
    match place, kind with
    | .topLevel, _ => true
    | .header, .keyword .func => true
    | .branches, .keyword .decision => true
    | .statement, .keyword tag => statementChildren tag != (.ignored, .ignored)
    | .expression, .keyword tag => tag == .call || tag.meaning?.isSome
    | .expression, _ => true
    | _, .ident _ => place.isName
    | _, _ => false

/-- What an error calls the nodes that a place admits. -/
def expected? (place : Place) : Option String :=
  match place.chain? with
  | some (tag, _) => some (Term.quotedKeyword tag)
  | none =>
    match place with
    | .header => some (Term.quotedKeyword .func)
    | .branches => some (Term.quotedKeyword .decision)
    | .statement => some "statement"
    | .expression => some "expression"
    | _ => none

/-- The places of statements inside a function, and of what holds them together. -/
def isInner : Place → Bool
  | .block | .statement | .branches => true
  | _ => false

theorem isInner_of_element {place element : Place} {tag : Keyword}
    (h : place.chain? = some (tag, element)) (helement : element.isInner = true) :
    place.isInner = true := by
  cases place with
  | block => rfl
  | statement => rfl
  | branches => rfl
  | _ => cases h <;> cases helement

theorem isInner_operand (tag : Keyword) :
    (∀ below, (operandChildren tag).1.place? = some below → below.isInner = false) ∧
      ∀ below, (operandChildren tag).2.place? = some below → below.isInner = false := by
  cases tag <;>
    simp [operandChildren, statementChildren, Keyword.meaning?, Child.place?, isInner]

theorem isInner_of_left {place below : Place} {kind : Kind}
    (h : (place.children kind).1.place? = some below) (hbelow : below.isInner = true) :
    place.isInner = true := by
  unfold children at h
  split at h
  · split_ifs at h
    · cases h
      exact hbelow
    · cases h
  · split at h
    case h_4 => rfl
    case h_5 => rfl
    case h_8 tag _ =>
      rw [(isInner_operand tag).1 below h] at hbelow
      cases hbelow
    all_goals cases h <;> cases hbelow

/-- Statements inside a function start at the body of a definition. -/
theorem isInner_of_right {place below : Place} {kind : Kind}
    (h : (place.children kind).2.place? = some below) (hbelow : below.isInner = true) :
    place.isInner = true ∨ place = .topLevel ∧ kind = .keyword .define := by
  unfold children at h
  split at h
  · rename_i hchain
    split_ifs at h
    · cases h
      exact .inl (isInner_of_element hchain hbelow)
    · cases h
  · split at h
    case h_1 => exact .inr ⟨rfl, rfl⟩
    case h_4 => exact .inl rfl
    case h_5 => exact .inl rfl
    case h_8 tag _ =>
      rw [(isInner_operand tag).2 below h] at hbelow
      cases hbelow
    all_goals cases h <;> cases hbelow

end Place

/-- What the header of a definition says. -/
structure Signature where
  nameNode : NodeId
  name : String
  params : Term

def Term.signature? : Term → Option Signature
  | .node _ (.keyword .define)
      (.node _ (.keyword .func) (.node nameNode (.ident name) _ _) params) _ =>
    some ⟨nameNode, name, params⟩
  | _ => none

/-- The name that an assignment writes to. -/
def Term.assigned? : Term → Option String
  | .node _ (.keyword .assign) target _ => target.ident?
  | _ => none

namespace Arena

/-- The node at a position stands at a place of the program. -/
inductive Stands (a : Arena) : Place → NodeId → Prop
  | root {id : NodeId} : a.root = some id → Stands a .program id
  | left {place below : Place} {id child : NodeId} {n : Node} : Stands a place id →
      a.node? id = some n → (place.children n.kind).1.place? = some below → n.left = some child →
      Stands a below child
  | right {place below : Place} {id child : NodeId} {n : Node} : Stands a place id →
      a.node? id = some n → (place.children n.kind).2.place? = some below → n.right = some child →
      Stands a below child

/-- The definitions at the top level, in order. -/
def signatures (a : Arena) : List Signature :=
  a.rootTerm.links.filterMap Term.signature?

/-- The names that assignments at the top level write to. -/
def globalNames (a : Arena) : List String :=
  a.rootTerm.links.filterMap Term.assigned?

/-- The node is an identifier. -/
def IsIdent (a : Arena) (id : NodeId) (name : String) : Prop :=
  ∃ n, a.node? id = some n ∧ n.kind = .ident name

/-- The node is part of the body of a function. -/
def InBody (a : Arena) (id : NodeId) : Prop :=
  ∃ d n body, a.Stands .topLevel d ∧ a.node? d = some n ∧ n.kind = .keyword .define ∧
    n.right = some body ∧ Relation.ReflTransGen a.Child body id

/-- What an error says holds of the node that it names. Files and documents are not at fault. -/
def Justifies (a : Arena) : CompileError → Prop
  | .emptyProgram => a.root = none
  | .unexpectedNode id expected => ∃ place n, a.Stands place id ∧ a.node? id = some n ∧
      place.admits n.kind = false ∧ place.expected? = some expected
  | .missingChild id what => ∃ place n, a.Stands place id ∧ a.node? id = some n ∧
      (n.left = none ∧ (place.children n.kind).1.needed? = some what ∨
        n.right = none ∧ (place.children n.kind).2.needed? = some what)
  | .expectedIdent id => ∃ place n, a.Stands place id ∧ a.node? id = some n ∧ place.isName = true ∧
      ∀ name, n.kind ≠ .ident name
  | .duplicateFunction id name => ∃ before f after, a.signatures = before ++ f :: after ∧
      f.nameNode = id ∧ f.name = name ∧ ∃ g ∈ before, g.name = name
  | .unknownFunction id name => a.Stands .callee id ∧ a.IsIdent id name ∧
      ∀ f ∈ a.signatures, f.name ≠ name
  | .arityMismatch id name expected found => (∃ callee args,
      a.term id = .node id (.keyword .call) callee args ∧ callee.ident? = some name ∧
        args.IsChain .param ∧ args.links.length = found) ∧
      (∃ f ∈ a.signatures, f.name = name ∧ f.params.IsChain .param ∧
        f.params.links.length = expected) ∧ expected ≠ found
  | .unresolvedVariable id name => a.IsIdent id name
  | .shapeMismatch id name => a.IsIdent id name
  | .invalidDeclaration id name => a.IsIdent id name
  | .duplicateVariable id name => ∃ f ∈ a.signatures, ∃ before p after,
      f.params.links = before ++ p :: after ∧ p.id? = some id ∧ p.ident? = some name ∧
        ((∃ q ∈ before, q.ident? = some name) ∨ name ∈ a.globalNames)
  | .nestedDefine id => a.Stands .statement id ∧ a.InBody id ∧
      ∃ n, a.node? id = some n ∧ n.kind = .keyword .define
  | .io _ => False
  | .yaml => False

theorem Stands.reaches {a : Arena} {place : Place} {id : NodeId} (h : a.Stands place id) :
    a.Reaches id := by
  induction h with
  | root hroot => exact ⟨_, hroot, .refl⟩
  | left _ hn _ hchild ih =>
    obtain ⟨root, hroot, hpath⟩ := ih
    exact ⟨root, hroot, hpath.tail ⟨_, hn, .inl hchild⟩⟩
  | right _ hn _ hchild ih =>
    obtain ⟨root, hroot, hpath⟩ := ih
    exact ⟨root, hroot, hpath.tail ⟨_, hn, .inr hchild⟩⟩

theorem InBody.child {a : Arena} {id child : NodeId} (h : a.InBody id) (hchild : a.Child id child) :
    a.InBody child := by
  obtain ⟨d, n, body, hstands, hn, hkind, hbody, hpath⟩ := h
  exact ⟨d, n, body, hstands, hn, hkind, hbody, hpath.tail hchild⟩

/-- Statements that are not at the top level stand in the body of a function. -/
theorem Stands.inBody {a : Arena} {place : Place} {id : NodeId} (h : a.Stands place id)
    (hinner : place.isInner = true) : a.InBody id := by
  induction h with
  | root _ => cases hinner
  | left _ hn hplace hchild ih =>
    exact (ih (Place.isInner_of_left hplace hinner)).child ⟨_, hn, .inl hchild⟩
  | @right _ _ parent child n hstands hn hplace hchild ih =>
    rcases Place.isInner_of_right hplace hinner with houter | ⟨rfl, hdefine⟩
    · exact (ih houter).child ⟨_, hn, .inr hchild⟩
    · exact ⟨parent, n, child, hstands, hn, hdefine, hchild, .refl⟩

end Arena

end StackCompiler
