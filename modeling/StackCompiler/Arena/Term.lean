import StackCompiler.Error

/-!
# Terms

The part of an arena below a node, unfolded into a tree whose nodes remember their positions. All
that reads a program reads terms, by recursion on them. In an arena without cycles no path is longer
than the number of nodes, so unfolding to that depth gives the whole; a link that leads out of the
arena, or is still open at that depth, is `dangling`.

A position belongs to the arena that it was made in. To follow one of another arena that has no node
here is a mistake of whoever made the link, and no reader promises anything for it. Here it ends in
a `dangling` term, which is reported like a node of an unexpected kind; a program may as well stop
there without a report.

A node that is used at several places is unfolded at each of them, but its term is built only once:
the terms of all nodes are made together, each from those of its children. `termOf_eq_unfold` says
that this is the same as to unfold every node by itself.
-/
namespace StackCompiler

inductive Term where
  /-- A child that is not there. -/
  | absent
  /-- A link without a node to it: it leads out of the arena, or around in a circle. -/
  | dangling (id : NodeId)
  | node (id : NodeId) (kind : Kind) (left right : Term)
  deriving DecidableEq, Repr

namespace Arena

/-- Unfolds a link down to the given depth. -/
def unfold (a : Arena) : Nat → Option NodeId → Term
  | _, none => .absent
  | 0, some id => .dangling id
  | depth + 1, some id =>
    match a.nodes[id]? with
    | none => .dangling id
    | some n => .node id n.kind (a.unfold depth n.left) (a.unfold depth n.right)

/-- The term that a link means, given those of the nodes. -/
def linked (terms : Array Term) : Option NodeId → Term
  | none => .absent
  | some id => terms[id]?.getD (.dangling id)

/-- The term of the node `n` at `id`, given those of its children. -/
def nodeTerm (terms : Array Term) (id : NodeId) (n : Node) : Term :=
  .node id n.kind (linked terms n.left) (linked terms n.right)

def termsTo (a : Arena) : Nat → Array Term
  | 0 => (a.nodes.toList.mapIdx fun id _ => Term.dangling id).toArray
  | depth + 1 =>
    let below := a.termsTo depth
    (a.nodes.toList.mapIdx (nodeTerm below)).toArray

/-- Whether all children stand before their parents. -/
def isOrdered (a : Arena) : Bool :=
  a.nodes.toList.zipIdx.all fun (n, id) => n.left.all (· < id) && n.right.all (· < id)

/-- Adds the term of the next node to those of the nodes before it. -/
def addTerm (terms : Array Term) (n : Node) : Array Term :=
  terms.push (nodeTerm terms terms.size n)

/-- The terms of all nodes. If children stand before their parents one pass is enough. -/
def terms (a : Arena) : Array Term :=
  if a.isOrdered then a.nodes.toList.foldl addTerm #[] else a.termsTo a.nodes.size

def termOf (a : Arena) (link : Option NodeId) : Term :=
  linked a.terms link

def term (a : Arena) (id : NodeId) : Term :=
  a.termOf (some id)

/-- The whole program. -/
def rootTerm (a : Arena) : Term :=
  a.termOf a.root

@[simp] theorem unfold_none (a : Arena) (depth : Nat) : a.unfold depth none = .absent := by
  cases depth <;> rfl

theorem linked_termsTo (a : Arena) (depth : Nat) (link : Option NodeId) :
    linked (a.termsTo depth) link = a.unfold depth link := by
  induction depth generalizing link with
  | zero =>
    cases link with
    | none => rfl
    | some id => cases h : a.nodes[id]? <;> simp [linked, termsTo, unfold, h]
  | succ depth ih =>
    cases link with
    | none => rfl
    | some id =>
      show ((a.termsTo (depth + 1))[id]?).getD (.dangling id) = _
      cases h : a.nodes[id]? <;> simp [termsTo, unfold, nodeTerm, h, ih]

theorem lt_of_isOrdered {a : Arena} (ha : a.isOrdered) {id child : Nat} {n : Node}
    (hn : a.nodes[id]? = some n) (hc : n.left = some child ∨ n.right = some child) :
    child < id := by
  have hmem : (n, id) ∈ a.nodes.toList.zipIdx := by
    rw [List.mk_mem_zipIdx_iff_getElem?]
    simpa using hn
  have h := List.all_eq_true.mp ha _ hmem
  simp only [Bool.and_eq_true] at h
  rcases hc with hc | hc
  · simpa [hc] using h.1
  · simpa [hc] using h.2

/-- In an ordered arena nothing is left to unfold below the depth of a node's position. -/
theorem unfold_of_lt {a : Arena} (ha : a.isOrdered) (id : Nat) :
    ∀ {depth : Nat}, id < depth → a.unfold depth (some id) = a.unfold (id + 1) (some id) := by
  induction id using Nat.strongRecOn with
  | ind id ih =>
    intro depth hlt
    obtain ⟨depth, rfl⟩ : ∃ d, depth = d + 1 := ⟨depth - 1, by omega⟩
    cases hn : a.nodes[id]? with
    | none => simp [unfold, hn]
    | some n =>
      have hchild : ∀ link : Option NodeId, (∀ child, link = some child → child < id) →
          a.unfold depth link = a.unfold id link := by
        intro link hlink
        cases link with
        | none => simp
        | some child =>
          have hc := hlink child rfl
          rw [ih child hc (Nat.lt_of_lt_of_le hc (Nat.le_of_lt_succ hlt)), ih child hc hc]
      have hleft := hchild n.left fun child hc => lt_of_isOrdered ha hn (.inl hc)
      have hright := hchild n.right fun child hc => lt_of_isOrdered ha hn (.inr hc)
      simp [unfold, hn, hleft, hright]

/-- The terms of the first nodes of an arena, each unfolded as deep as it goes. -/
def FirstTerms (a : Arena) (terms : Array Term) : Prop :=
  ∀ id < terms.size, terms[id]? = some (a.unfold (id + 1) (some id))

theorem FirstTerms.addTerm {a : Arena} (ha : a.isOrdered) {terms : Array Term}
    (h : a.FirstTerms terms) {n : Node} (hn : a.nodes[terms.size]? = some n) :
    a.FirstTerms (addTerm terms n) := by
  have hlinked : ∀ link : Option NodeId, (∀ child, link = some child → child < terms.size) →
      linked terms link = a.unfold terms.size link := by
    intro link hlink
    cases link with
    | none => simp [linked]
    | some child =>
      have hc := hlink child rfl
      simp [linked, h child hc, unfold_of_lt ha child hc]
  have hleft := hlinked n.left fun child hc => lt_of_isOrdered ha hn (.inl hc)
  have hright := hlinked n.right fun child hc => lt_of_isOrdered ha hn (.inr hc)
  intro id hid
  have hid : id < terms.size + 1 := by simpa [Arena.addTerm] using hid
  by_cases hlt : id < terms.size
  · rw [Arena.addTerm, Array.getElem?_push_lt hlt, ← h id hlt, Array.getElem?_eq_getElem hlt]
  · obtain rfl : id = terms.size := by omega
    simp [Arena.addTerm, nodeTerm, unfold, hn, hleft, hright]

theorem firstTerms_foldl {a : Arena} (ha : a.isOrdered) (before after : List Node)
    (hnodes : a.nodes.toList = before ++ after) (terms : Array Term)
    (hsize : terms.size = before.length) (h : a.FirstTerms terms) :
    a.FirstTerms (after.foldl addTerm terms) ∧
      (after.foldl addTerm terms).size = a.nodes.size := by
  induction after generalizing before terms with
  | nil => exact ⟨h, by simp [hsize, ← Array.length_toList, hnodes]⟩
  | cons n after ih =>
    have hn : a.nodes[terms.size]? = some n := by
      rw [← Array.getElem?_toList, hnodes, hsize]
      simp
    exact ih (before ++ [n]) (by simp [hnodes]) (addTerm terms n) (by simp [addTerm, hsize])
      (h.addTerm ha hn)

/-- The term at a link is the link unfolded as deep as an arena without cycles can go. -/
theorem termOf_eq_unfold (a : Arena) (link : Option NodeId) :
    a.termOf link = a.unfold a.nodes.size link := by
  unfold termOf terms
  split
  · rename_i ha
    obtain ⟨hterms, hsize⟩ :=
      firstTerms_foldl ha [] a.nodes.toList rfl #[] rfl fun id hid =>
        absurd hid (Nat.not_lt_zero id)
    cases link with
    | none => simp [linked]
    | some id =>
      show ((a.nodes.toList.foldl addTerm #[])[id]?).getD (.dangling id) = _
      by_cases hid : id < a.nodes.size
      · rw [hterms id (hsize ▸ hid), unfold_of_lt ha id hid, Option.getD_some]
      · have hout : a.nodes.size ≤ id := Nat.le_of_not_lt hid
        rw [Array.getElem?_eq_none (hsize ▸ hout), Option.getD_none]
        cases a.nodes.size <;> simp [unfold, Array.getElem?_eq_none hout]
  · exact linked_termsTo a a.nodes.size link

end Arena

namespace Term

def isAbsent : Term → Bool
  | .absent => true
  | _ => false

def id? : Term → Option NodeId
  | .absent => none
  | .dangling id => some id
  | .node id _ _ _ => some id

/-- The position of the top node. It is asked for only of terms that are there. -/
def id (t : Term) : NodeId :=
  t.id?.getD 0

def left : Term → Term
  | .node _ _ l _ => l
  | _ => .absent

def right : Term → Term
  | .node _ _ _ r => r
  | _ => .absent

def keyword? : Term → Option Keyword
  | .node _ (.keyword tag) _ _ => some tag
  | _ => none

def ident? : Term → Option String
  | .node _ (.ident name) _ _ => some name
  | _ => none

def number? : Term → Option Number
  | .node _ (.number value) _ _ => some value
  | _ => none

/-- Fails, in the name of the node at `parent`, if a child is not there. -/
def require (child : Term) (parent : NodeId) (what : String) : Except CompileError Unit :=
  if child.isAbsent then .error (.missingChild parent what) else .ok ()

def requireLeft (t : Term) (what : String) : Except CompileError Term := do
  t.left.require t.id what
  return t.left

def requireRight (t : Term) (what : String) : Except CompileError Term := do
  t.right.require t.id what
  return t.right

/-- The name of a keyword as errors quote it. -/
def quotedKeyword (tag : Keyword) : String :=
  "`" ++ tag.name ++ "`"

def expectKeyword (t : Term) (tag : Keyword) : Except CompileError Unit :=
  if t.keyword? = some tag then .ok () else .error (.unexpectedNode t.id (quotedKeyword tag))

def expectIdent (t : Term) : Except CompileError String :=
  match t.ident? with
  | some name => .ok name
  | none => .error (.expectedIdent t.id)

/-- The elements of a chain of `tag` nodes, innermost first. The outermost bad link is reported. -/
def elements (tag : Keyword) : Term → Except CompileError (List Term)
  | .absent => .ok []
  | .dangling id => .error (.unexpectedNode id (quotedKeyword tag))
  | .node id kind left right => do
    if kind ≠ .keyword tag then throw (.unexpectedNode id (quotedKeyword tag))
    right.require id "list element"
    let before ← elements tag left
    return before ++ [right]

def render : Term → String
  | .absent => "_"
  | .dangling id => id.text
  | .node _ (.number value) _ _ => value.text
  | .node _ (.ident name) _ index =>
    if index.isAbsent then name else name ++ "[" ++ index.render ++ "]"
  | .node _ (.keyword tag) left right =>
    "\x7b " ++ tag.name ++ " " ++ left.render ++ " " ++ right.render ++ " \x7d"

/-- The tree without positions. A number has no children there, and an identifier no left one. -/
def toTree : Term → Tree
  | .absent => .absent
  | .dangling _ => .absent
  | .node _ (.number value) _ _ => .number value
  | .node _ (.ident name) _ index => .ident name index.toTree
  | .node _ (.keyword tag) left right => .keyword tag left.toTree right.toTree

end Term

end StackCompiler
