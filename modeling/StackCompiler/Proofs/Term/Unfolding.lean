import StackCompiler.Proofs.Term.Numbering
import Mathlib.Data.Finset.Card
import Mathlib.Logic.Relation

/-!
# Arenas without cycles

If no path along the links of an arena leads back to its start, fewer nodes lie below a child than
below its parent. So unfolding as deep as there are nodes reaches the end of every path, and the
term at a node is its kind over the terms at its links. If besides all links lead to nodes, the term
at a link has no dangling part. The arena of a tree is of this kind, and its term has the tree that
it was made from.
-/
namespace StackCompiler

namespace Arena

theorem unfold_setRoot (a : Arena) (root : Option NodeId) (depth : Nat) (link : Option NodeId) :
    ({ a with root } : Arena).unfold depth link = a.unfold depth link := by
  induction depth generalizing link with
  | zero => cases link <;> rfl
  | succ depth ih =>
    cases link with
    | none => rfl
    | some id => simp only [unfold, ih]

/-- The term at a link does not depend on where the root is. -/
theorem termOf_setRoot (a : Arena) (root link : Option NodeId) :
    ({ a with root } : Arena).termOf link = a.termOf link := by
  rw [termOf_eq_unfold, termOf_eq_unfold, unfold_setRoot]

/-- A link of the node at `parent` leads to `child`. -/
def Child (a : Arena) (parent child : NodeId) : Prop :=
  ∃ n, a.node? parent = some n ∧ (n.left = some child ∨ n.right = some child)

/-- The link, if it is there, leads to a node. -/
def InRange (a : Arena) (link : Option NodeId) : Prop :=
  ∀ id, link = some id → id < a.nodes.size

/-- No path along links leads back to its start. Links may lead out of the arena. -/
def Acyclic (a : Arena) : Prop :=
  ∀ id, ¬ Relation.TransGen a.Child id id

/-- All links lead to nodes, and none of them around in a circle. -/
structure Sound (a : Arena) : Prop where
  root : a.InRange a.root
  child : ∀ parent child, a.Child parent child → child < a.nodes.size
  acyclic : a.Acyclic

/-- The root leads to the node along links. -/
def Reaches (a : Arena) (id : NodeId) : Prop :=
  ∃ root, a.root = some root ∧ Relation.ReflTransGen a.Child root id

theorem inRange_none (a : Arena) : a.InRange none := by
  rintro _ ⟨⟩

theorem node?_of_lt {a : Arena} {id : NodeId} (h : id < a.nodes.size) : ∃ n, a.node? id = some n :=
  ⟨a.nodes[id], Array.getElem?_eq_getElem h⟩

theorem Sound.left {a : Arena} (ha : a.Sound) {id : NodeId} {n : Node} (hn : a.node? id = some n) :
    a.InRange n.left :=
  fun child hchild => ha.child id child ⟨n, hn, .inl hchild⟩

theorem Sound.right {a : Arena} (ha : a.Sound) {id : NodeId} {n : Node} (hn : a.node? id = some n) :
    a.InRange n.right :=
  fun child hchild => ha.child id child ⟨n, hn, .inr hchild⟩

open Classical in
/-- The nodes that links lead to from a node. -/
noncomputable def below (a : Arena) (id : NodeId) : Finset NodeId :=
  (Finset.range a.nodes.size).filter (Relation.TransGen a.Child id)

theorem mem_below {a : Arena} {id other : NodeId} :
    other ∈ a.below id ↔ other < a.nodes.size ∧ Relation.TransGen a.Child id other := by
  simp [below]

/-- Fewer nodes lie below a child than below its parent. -/
theorem Acyclic.card_below_lt {a : Arena} (ha : a.Acyclic) {parent child : NodeId}
    (h : a.Child parent child) (hchild : child < a.nodes.size) :
    (a.below child).card < (a.below parent).card := by
  apply Finset.card_lt_card
  constructor
  · intro other hother
    have hpath := (mem_below.mp hother).2
    exact mem_below.mpr ⟨(mem_below.mp hother).1, .head h hpath⟩
  · intro hsubset
    have hmem : child ∈ a.below parent := mem_below.mpr ⟨hchild, .single h⟩
    exact ha child (mem_below.mp (hsubset hmem)).2

theorem Acyclic.card_below_lt_size {a : Arena} (ha : a.Acyclic) {id : NodeId}
    (hid : id < a.nodes.size) : (a.below id).card < a.nodes.size := by
  have hproper : a.below id ⊂ Finset.range a.nodes.size := by
    constructor
    · intro other hother
      exact Finset.mem_range.mpr (mem_below.mp hother).1
    · intro hsubset
      exact ha id (mem_below.mp (hsubset (Finset.mem_range.mpr hid))).2
  simpa using Finset.card_lt_card hproper

/-- Unfolding one level deeper than the nodes below a link changes nothing. -/
theorem Acyclic.unfold_succ {a : Arena} (ha : a.Acyclic) (depth : Nat) {link : Option NodeId}
    (hdepth : ∀ id, link = some id → id < a.nodes.size → (a.below id).card < depth) :
    a.unfold (depth + 1) link = a.unfold depth link := by
  induction depth generalizing link with
  | zero =>
    cases link with
    | none => rfl
    | some id =>
      have hout : a.nodes.size ≤ id :=
        Nat.le_of_not_lt fun hid => Nat.not_lt_zero _ (hdepth id rfl hid)
      simp [unfold, Array.getElem?_eq_none hout]
  | succ depth ih =>
    cases link with
    | none => rfl
    | some id =>
      cases hnode : a.nodes[id]? with
      | none => simp [unfold, hnode]
      | some n =>
        have hid : id < a.nodes.size := (Array.getElem?_eq_some_iff.mp hnode).choose
        have hbelow : ∀ child,
            a.Child id child → child < a.nodes.size → (a.below child).card < depth := by
          intro child hchild hrange
          have hlt := ha.card_below_lt hchild hrange
          have hparent := hdepth id rfl hid
          omega
        have hleft := ih fun child hchild => hbelow child ⟨n, hnode, .inl hchild⟩
        have hright := ih fun child hchild => hbelow child ⟨n, hnode, .inr hchild⟩
        rw [unfold, unfold, hnode]
        simp only [hleft, hright]

/-- The term at a node is its kind over the terms at its links. -/
theorem Acyclic.termOf_some {a : Arena} (ha : a.Acyclic) {id : NodeId} {n : Node}
    (hn : a.node? id = some n) :
    a.termOf (some id) = .node id n.kind (a.termOf n.left) (a.termOf n.right) := by
  have hnode : a.nodes[id]? = some n := hn
  have hstable : a.unfold (a.nodes.size + 1) (some id) = a.unfold a.nodes.size (some id) :=
    ha.unfold_succ a.nodes.size fun _ _ hother => ha.card_below_lt_size hother
  rw [termOf_eq_unfold, termOf_eq_unfold, termOf_eq_unfold, ← hstable, unfold, hnode]

theorem Sound.termOf_some {a : Arena} (ha : a.Sound) {id : NodeId} {n : Node}
    (hn : a.node? id = some n) :
    a.termOf (some id) = .node id n.kind (a.termOf n.left) (a.termOf n.right) :=
  ha.acyclic.termOf_some hn

/-- The arena holds every node of the term with the links to its children. -/
def Holds (a : Arena) : Term → Prop
  | .absent => True
  | .dangling _ => False
  | .node id kind left right =>
    a.node? id = some ⟨kind, left.id?, right.id?⟩ ∧ a.Holds left ∧ a.Holds right

theorem Sound.holds_termOf_of_card {a : Arena} (ha : a.Sound) (count : Nat) {link : Option NodeId}
    (hrange : a.InRange link) (hcount : ∀ id, link = some id → (a.below id).card < count) :
    a.Holds (a.termOf link) ∧ (a.termOf link).id? = link := by
  -- on the number of nodes below the link
  induction count generalizing link with
  | zero =>
    cases link with
    | none => exact ⟨trivial, rfl⟩
    | some id => exact absurd (hcount id rfl) (Nat.not_lt_zero _)
  | succ count ih =>
    cases link with
    | none => exact ⟨trivial, rfl⟩
    | some id =>
      obtain ⟨n, hn⟩ := node?_of_lt (hrange id rfl)
      have hbelow : ∀ child, a.Child id child → (a.below child).card < count := by
        intro child hchild
        have hlt := ha.acyclic.card_below_lt hchild (ha.child id child hchild)
        have hid := hcount id rfl
        omega
      obtain ⟨hleft, hleftId⟩ :=
        ih (ha.left hn) fun child hchild => hbelow child ⟨n, hn, .inl hchild⟩
      obtain ⟨hright, hrightId⟩ :=
        ih (ha.right hn) fun child hchild => hbelow child ⟨n, hn, .inr hchild⟩
      rw [ha.termOf_some hn]
      refine ⟨⟨?_, hleft, hright⟩, rfl⟩
      rw [hleftId, hrightId, hn]

theorem Sound.holds_termOf {a : Arena} (ha : a.Sound) {link : Option NodeId} (h : a.InRange link) :
    a.Holds (a.termOf link) :=
  (ha.holds_termOf_of_card a.nodes.size h fun id hid => ha.acyclic.card_below_lt_size (h id hid)).1

theorem Sound.id?_termOf {a : Arena} (ha : a.Sound) {link : Option NodeId} (h : a.InRange link) :
    (a.termOf link).id? = link :=
  (ha.holds_termOf_of_card a.nodes.size h fun id hid => ha.acyclic.card_below_lt_size (h id hid)).2

theorem Sound.holds_rootTerm {a : Arena} (ha : a.Sound) : a.Holds a.rootTerm :=
  ha.holds_termOf ha.root

/-- A term that the arena holds is the one at the position of its top node. -/
theorem Holds.termOf_id? {a : Arena} (ha : a.Sound) {t : Term} (ht : a.Holds t) :
    a.termOf t.id? = t := by
  induction t with
  | absent => rfl
  | dangling id => exact ht.elim
  | node id kind left right ihl ihr =>
    obtain ⟨hnode, hleft, hright⟩ := ht
    have hterm := ha.termOf_some hnode
    rw [ihl hleft, ihr hright] at hterm
    exact hterm

/-- An arena whose children all stand before their parents has no cycle. -/
theorem sound_of_isOrdered {a : Arena} (ha : a.isOrdered) (hroot : a.InRange a.root) : a.Sound where
  root := hroot
  child := by
    rintro parent child ⟨n, hn, hchild⟩
    have hlt := lt_of_isOrdered ha hn hchild
    have hparent : parent < a.nodes.size := (Array.getElem?_eq_some_iff.mp hn).choose
    exact Nat.lt_trans hlt hparent
  acyclic := by
    have hdown : ∀ id other, Relation.TransGen a.Child id other → other < id := by
      intro id other hpath
      induction hpath with
      | single hchild =>
        obtain ⟨n, hn, hchild⟩ := hchild
        exact lt_of_isOrdered ha hn hchild
      | tail _ hchild ih =>
        obtain ⟨n, hn, hchild⟩ := hchild
        exact Nat.lt_trans (lt_of_isOrdered ha hn hchild) ih
    intro id hcycle
    exact Nat.lt_irrefl id (hdown id id hcycle)

end Arena

namespace Build

open Arena

/-- A new node whose links lead to nodes before it keeps the arena ordered. -/
theorem isOrdered_push {a : Arena} (ha : a.isOrdered) {n : Node} (hleft : a.InRange n.left)
    (hright : a.InRange n.right) : isOrdered { a with nodes := a.nodes.push n } := by
  have hall : ∀ link, a.InRange link → link.all (· < a.nodes.size) = true := by
    intro link hlink
    cases link with
    | none => rfl
    | some id => simpa using hlink id rfl
  unfold isOrdered at ha ⊢
  rw [Array.toList_push, List.zipIdx_append, List.all_append, ha]
  simp only [List.zipIdx_cons, List.zipIdx_nil, List.all_cons, List.all_nil, Nat.zero_add,
    Array.length_toList, hall _ hleft, hall _ hright, Bool.and_self]

theorem inRange_push {a : Arena} {n : Node} {link : Option NodeId} (h : a.InRange link) :
    InRange { a with nodes := a.nodes.push n } link := by
  intro id hid
  rw [Array.size_push]
  exact Nat.lt_succ_of_lt (h id hid)

theorem inRange_size {a : Arena} {n : Node} :
    InRange { a with nodes := a.nodes.push n } (some a.nodes.size) := by
  rintro _ ⟨⟩
  simp

/-- Adding a tree keeps the arena ordered. -/
theorem isOrdered_tree (t : Tree) {a : Arena} (ha : a.isOrdered) :
    ((tree t).run a).2.isOrdered ∧ ((tree t).run a).2.InRange ((tree t).run a).1 ∧
      ∀ link, a.InRange link → ((tree t).run a).2.InRange link := by
  induction t generalizing a with
  | absent => exact ⟨ha, inRange_none a, fun _ h => h⟩
  | number value =>
    exact ⟨isOrdered_push ha (inRange_none a) (inRange_none a), inRange_size,
      fun _ h => inRange_push h⟩
  | ident name index ih =>
    obtain ⟨hindex, hlink, hkeep⟩ := ih ha
    exact ⟨isOrdered_push hindex (inRange_none _) hlink, inRange_size,
      fun _ h => inRange_push (hkeep _ h)⟩
  | keyword tag left right ihl ihr =>
    obtain ⟨hleft, hlink, hkeep⟩ := ihl ha
    obtain ⟨hright, hlink', hkeep'⟩ := ihr hleft
    exact ⟨isOrdered_push hright (hkeep' _ hlink) hlink', inRange_size,
      fun _ h => inRange_push (hkeep' _ (hkeep _ h))⟩

end Build

theorem Arena.sound_ofTree (t : Tree) : (Arena.ofTree t).Sound := by
  have hempty : Arena.empty.isOrdered := rfl
  obtain ⟨hordered, hroot, -⟩ := Build.isOrdered_tree t hempty
  exact sound_of_isOrdered hordered hroot

theorem Tree.toTree_numbered (t : Tree) (n : Nat) : (t.numbered n).toTree = t := by
  induction t generalizing n with
  | absent => rfl
  | number value => rfl
  | ident name index ih => simp [numbered, Term.toTree, ih]
  | keyword tag left right ihl ihr => simp [numbered, Term.toTree, ihl, ihr]

/-- The arena of a tree has the tree it was made from. -/
theorem toTree_rootTerm_ofTree (t : Tree) : (Arena.ofTree t).rootTerm.toTree = t := by
  rw [rootTerm_ofTree, Tree.toTree_numbered]

namespace Term

/-- No part of the term dangles. -/
def Whole : Term → Prop
  | .absent => True
  | .dangling _ => False
  | .node _ _ left right => left.Whole ∧ right.Whole

theorem Whole.isAbsent_toTree {t : Term} (h : t.Whole) : t.toTree.isAbsent = t.isAbsent := by
  cases t with
  | absent => rfl
  | dangling id => exact h.elim
  | node id kind left right => cases kind <;> rfl

theorem toTree_eq_keyword {t : Term} {tag : Keyword} {l r : Tree} :
    t.toTree = .keyword tag l r ↔ ∃ id left right, t = .node id (.keyword tag) left right ∧
      left.toTree = l ∧ right.toTree = r := by
  cases t with
  | absent => simp [Term.toTree]
  | dangling id => simp [Term.toTree]
  | node id kind left right => cases kind <;> simp [Term.toTree, and_assoc]

theorem toTree_eq_number {t : Term} {value : Number} :
    t.toTree = .number value ↔ ∃ id left right, t = .node id (.number value) left right := by
  cases t with
  | absent => simp [Term.toTree]
  | dangling id => simp [Term.toTree]
  | node id kind left right => cases kind <;> simp [Term.toTree]

theorem toTree_eq_ident {t : Term} {name : String} {i : Tree} :
    t.toTree = .ident name i ↔ ∃ id left index, t = .node id (.ident name) left index ∧
      index.toTree = i := by
  cases t with
  | absent => simp [Term.toTree]
  | dangling id => simp [Term.toTree]
  | node id kind left right => cases kind <;> simp [Term.toTree, and_assoc]

theorem Whole.of_mem_links {t u : Term} (ht : t.Whole) (hu : u ∈ t.links) : u.Whole := by
  induction t with
  | absent => cases hu
  | dangling id => cases hu
  | node id kind before item ih _ =>
    rcases List.mem_append.mp hu with hu | hu
    · exact ih ht.1 hu
    · rw [List.mem_singleton.mp hu]
      exact ht.2

end Term

theorem Arena.Holds.whole {a : Arena} {t : Term} (h : a.Holds t) : t.Whole := by
  induction t with
  | absent => trivial
  | dangling id => exact h.elim
  | node id kind left right ihl ihr => exact ⟨ihl h.2.1, ihr h.2.2⟩

end StackCompiler
