import StackCompiler.Proofs.Term.Unfolding
import Mathlib.Data.List.Perm.Basic

/-!
# Parents in the arena of a tree

A link is told by its node and the side on which it is. The links in a term lead to all of its nodes
but the top one, and to each of them once if no position occurs twice. The arena of a tree holds the
term of this tree and nothing else. So each of its nodes except the root hangs on one side of one
other node.
-/
namespace StackCompiler

inductive Side where
  | left
  | right
  deriving DecidableEq, Repr

namespace Arena

def left? (a : Arena) (id : NodeId) : Option NodeId :=
  (a.node? id).bind Node.left

def right? (a : Arena) (id : NodeId) : Option NodeId :=
  (a.node? id).bind Node.right

/-- Where the link on a side of a node leads. -/
def link? (a : Arena) (parent : NodeId) : Side → Option NodeId
  | .left => a.left? parent
  | .right => a.right? parent

theorem child_of_link? {a : Arena} {parent child : NodeId} {side : Side}
    (h : a.link? parent side = some child) : a.Child parent child := by
  cases side with
  | left =>
    obtain ⟨n, hn, hchild⟩ := Option.bind_eq_some_iff.mp h
    exact ⟨n, hn, .inl hchild⟩
  | right =>
    obtain ⟨n, hn, hchild⟩ := Option.bind_eq_some_iff.mp h
    exact ⟨n, hn, .inr hchild⟩

theorem lt_size_of_link? {a : Arena} {parent child : NodeId} {side : Side}
    (h : a.link? parent side = some child) : parent < a.nodes.size := by
  obtain ⟨n, hn, -⟩ := child_of_link? h
  exact (Array.getElem?_eq_some_iff.mp hn).choose

end Arena

namespace Term

/-- The links in a term: the node and the side of each, and the node it leads to. -/
def edges : Term → List ((NodeId × Side) × NodeId)
  | .node id _ left right =>
    left.edges ++ right.edges ++
      (left.id?.toList.map ((id, Side.left), ·) ++ right.id?.toList.map ((id, Side.right), ·))
  | _ => []

/-- Links lead to every node of a term but the top one, as often as it occurs. -/
theorem Whole.perm_ids {t : Term} (ht : t.Whole) :
    (t.edges.map Prod.snd ++ t.id?.toList).Perm t.ids := by
  induction t with
  | absent => exact List.Perm.refl _
  | dangling id => exact ht.elim
  | node id kind left right ihl ihr =>
    have htop : (node id kind left right).id?.toList = [id] := rfl
    rw [List.perm_iff_count]
    intro other
    have hleft := (ihl ht.1).count_eq other
    have hright := (ihr ht.2).count_eq other
    simp only [List.count_append] at hleft hright
    simp only [edges, ids, htop, List.map_append, List.map_map, Function.comp_def, List.map_id',
      List.count_append]
    omega

end Term

/-- The links in a term are those that the arena has at its nodes. -/
theorem Arena.Holds.mem_edges {a : Arena} {t : Term} (ht : a.Holds t) {parent child : NodeId}
    {side : Side} :
    ((parent, side), child) ∈ t.edges ↔ parent ∈ t.ids ∧ a.link? parent side = some child := by
  induction t with
  | absent => simp [Term.edges, Term.ids]
  | dangling id => exact ht.elim
  | node id kind left right ihl ihr =>
    obtain ⟨hnode, hleft, hright⟩ := ht
    have hown : ((parent, side), child) ∈ left.id?.toList.map ((id, Side.left), ·) ++
        right.id?.toList.map ((id, Side.right), ·) ↔
    parent = id ∧ a.link? id side = some child := by
      cases side <;> simp [Arena.link?, Arena.left?, Arena.right?, hnode, eq_comm, and_comm]
    rw [Term.edges, Term.ids, List.mem_append, List.mem_append, hown, ihl hleft, ihr hright,
      List.mem_append, List.mem_append, List.mem_singleton]
    grind

/-- If a term has all nodes of an arena, and none twice, each but the top one hangs at one place. -/
theorem Arena.Holds.existsUnique_link {a : Arena} {t : Term} (ht : a.Holds t) (hnodup : t.ids.Nodup)
    (hall : ∀ id < a.nodes.size, id ∈ t.ids) {id : NodeId} (hid : id < a.nodes.size)
    (htop : t.id? ≠ some id) : ∃! place : NodeId × Side, a.link? place.1 place.2 = some id := by
  have hperm := ht.whole.perm_ids
  have honce : (t.edges.map Prod.snd).Nodup := (List.nodup_append.mp (hperm.nodup_iff.mpr hnodup)).1
  have hlinked : id ∈ t.edges.map Prod.snd := by
    rcases List.mem_append.mp (hperm.mem_iff.mpr (hall id hid)) with hlinked | hid
    · exact hlinked
    · exact absurd (Option.mem_toList.mp hid) htop
  obtain ⟨⟨place, child⟩, hedge, rfl⟩ := List.mem_map.mp hlinked
  refine ⟨place, (ht.mem_edges.mp hedge).2, ?_⟩
  intro other hother
  have hedge' : (other, child) ∈ t.edges :=
    ht.mem_edges.mpr ⟨hall _ (lt_size_of_link? hother), hother⟩
  exact congrArg Prod.fst (List.inj_on_of_nodup_map honce hedge' hedge rfl)

theorem Tree.id?_numbered (t : Tree) (n : Nat) :
    (t.numbered n).id? = if t.isAbsent then none else some (n + t.size - 1) := by
  cases t with
  | absent => rfl
  | number value => rfl
  | ident name index => rfl
  | keyword tag left right => simp [numbered, Term.id?, isAbsent, size, ← Nat.add_assoc]

namespace Arena

theorem size_ofTree (t : Tree) : (ofTree t).nodes.size = t.size := by
  obtain ⟨link, a, hrun, hsize, -, -⟩ := Build.tree_run t empty
  simp only [ofTree, hrun, hsize]
  simp [empty]

theorem isOrdered_ofTree (t : Tree) : (ofTree t).isOrdered :=
  (Build.isOrdered_tree t rfl).1

/-- The root is the node that was added last. -/
theorem root_ofTree (t : Tree) :
    (ofTree t).root = if t.isAbsent then none else some (t.size - 1) := by
  have hroot : (ofTree t).rootTerm.id? = (ofTree t).root :=
    (sound_ofTree t).id?_termOf (sound_ofTree t).root
  rw [← hroot, rootTerm_ofTree, Tree.id?_numbered, Nat.zero_add]

theorem mem_ids_ofTree {t : Tree} {id : NodeId} (h : id < (ofTree t).nodes.size) :
    id ∈ (ofTree t).rootTerm.ids := by
  rw [rootTerm_ofTree, Tree.ids_numbered, List.mem_range'_1, Nat.zero_add, ← size_ofTree]
  exact ⟨Nat.zero_le id, h⟩

end Arena

/-- The arena of a tree has a node for each of the tree's, the top one last and for its root. Every
node stands behind its children, every node but the root hangs on one side of one other node, and
the tree is found again at the root. -/
theorem ofTree_faithful (t : Tree) :
    (Arena.ofTree t).nodes.size = t.size ∧
      (Arena.ofTree t).root = (if t.isAbsent then none else some (t.size - 1)) ∧
      (∀ parent side child, (Arena.ofTree t).link? parent side = some child → child < parent) ∧
      (∀ id < (Arena.ofTree t).nodes.size, (Arena.ofTree t).root ≠ some id →
        ∃! place : NodeId × Side, (Arena.ofTree t).link? place.1 place.2 = some id) ∧
      (Arena.ofTree t).rootTerm.toTree = t := by
  have hsound := Arena.sound_ofTree t
  refine ⟨Arena.size_ofTree t, Arena.root_ofTree t, ?_, ?_, toTree_rootTerm_ofTree t⟩
  · intro parent side child hlink
    obtain ⟨n, hn, hchild⟩ := Arena.child_of_link? hlink
    exact Arena.lt_of_isOrdered (Arena.isOrdered_ofTree t) hn hchild
  · intro id hid hroot
    have htop : (Arena.ofTree t).rootTerm.id? ≠ some id := by
      rw [Arena.rootTerm, hsound.id?_termOf hsound.root]
      exact hroot
    exact hsound.holds_rootTerm.existsUnique_link (nodup_ids_ofTree t)
      (fun _ => Arena.mem_ids_ofTree) hid htop

/-- In the arena of `a[5] = 1 + x` the last node is the assignment, and the number at position 2
hangs on the left side of the sum and nowhere else. -/
theorem ofTree_faithful_sum :
    let t : Tree := .keyword .assign (.ident "a" (.number (.ofNat 5)))
      (.keyword .add (.number (.ofNat 1)) (.ident "x" .absent))
    let a := Arena.ofTree t
    a.nodes.size = 6 ∧ a.root = some 5 ∧ (a.link? 4 .left = some 2 ∧ 2 < 4) ∧
      (∃! place : NodeId × Side, a.link? place.1 place.2 = some 2) ∧ a.rootTerm.toTree = t := by
  intro t a
  obtain ⟨hsize, hroot, hbehind, honce, htree⟩ := ofTree_faithful t
  have hlink : a.link? 4 .left = some 2 := rfl
  have hother : a.root ≠ some 2 := by
    rw [hroot]
    decide
  exact ⟨hsize, hroot, ⟨hlink, hbehind 4 .left 2 hlink⟩,
    honce 2 (by rw [hsize]; decide) hother, htree⟩

end StackCompiler
