import StackCompiler.Proofs.Term.Chain
import Mathlib.Data.List.Range

/-!
# Positions in the arena of a tree

The arena of a tree holds its nodes children first. So the term at its root is the tree with its
nodes counted in that order, and no position occurs in it twice.
-/
namespace StackCompiler

/-- The tree as a term, its nodes numbered from `n` on, children first. -/
def Tree.numbered : Nat → Tree → Term
  | _, .absent => .absent
  | n, .number value => .node n (.number value) .absent .absent
  | n, .ident name index => .node (n + index.size) (.ident name) .absent (index.numbered n)
  | n, .keyword tag left right =>
    .node (n + left.size + right.size) (.keyword tag) (left.numbered n)
      (right.numbered (n + left.size))

theorem Tree.ids_numbered (t : Tree) (n : Nat) : (t.numbered n).ids = List.range' n t.size := by
  induction t generalizing n with
  | absent => rfl
  | number value => simp [numbered, Term.ids, size]
  | ident name index ih =>
    simp [numbered, Term.ids, size, ih, List.range'_1_concat]
  | keyword tag left right ihl ihr =>
    have happend : List.range' n left.size ++ List.range' (n + left.size) right.size =
        List.range' n (left.size + right.size) := List.range'_append_1
    rw [numbered, Term.ids, ihl, ihr, happend, size, List.range'_1_concat, Nat.add_assoc]

namespace Build

/-- Every arena that starts with `nodes` unfolds `link` to `term`, if it goes `depth` deep. -/
def Unfolds (nodes : Array Node) (link : Option NodeId) (depth : Nat) (term : Term) : Prop :=
  ∀ a : Arena, nodes.toList <+: a.nodes.toList → ∀ d, depth ≤ d → a.unfold d link = term

theorem Unfolds.none (nodes : Array Node) (depth : Nat) : Unfolds nodes none depth .absent :=
  fun a _ d _ => a.unfold_none d

theorem Unfolds.mono {nodes more : Array Node} {link : Option NodeId} {depth depth' : Nat}
    {term : Term} (h : Unfolds nodes link depth term) (hnodes : nodes.toList <+: more.toList)
    (hdepth : depth ≤ depth') : Unfolds more link depth' term :=
  fun a ha d hd => h a (hnodes.trans ha) d (hdepth.trans hd)

/-- A node that was pushed stays at its position. -/
theorem node_of_prefix {nodes : Array Node} {n : Node} {a : Arena}
    (h : (nodes.push n).toList <+: a.nodes.toList) : a.nodes[nodes.size]? = some n := by
  obtain ⟨after, hafter⟩ := h
  rw [← Array.getElem?_toList, ← hafter, Array.toList_push, List.append_assoc,
    List.getElem?_append_right (by simp)]
  simp

theorem prefix_of_push {nodes : Array Node} {n : Node} {a : Arena}
    (h : (nodes.push n).toList <+: a.nodes.toList) : nodes.toList <+: a.nodes.toList := by
  rw [Array.toList_push] at h
  exact (List.prefix_append nodes.toList [n]).trans h

/-- A node pushed after its children unfolds to their terms under it. -/
theorem Unfolds.push {nodes : Array Node} {n : Node} {depth : Nat} {left right : Term}
    (hl : Unfolds nodes n.left depth left) (hr : Unfolds nodes n.right depth right) :
    Unfolds (nodes.push n) (some nodes.size) (depth + 1) (.node nodes.size n.kind left right) := by
  intro a ha d hd
  obtain ⟨d, rfl⟩ : ∃ e, d = e + 1 := ⟨d - 1, by omega⟩
  have hleft := hl a (prefix_of_push ha) d (by omega)
  have hright := hr a (prefix_of_push ha) d (by omega)
  simp only [Arena.unfold, node_of_prefix ha, hleft, hright]

/-- Adding a tree adds its nodes, and the link it gives unfolds to the numbered tree. -/
theorem tree_run (t : Tree) (a : Arena) :
    ∃ link a', (tree t).run a = (link, a') ∧ a'.nodes.size = a.nodes.size + t.size ∧
      a.nodes.toList <+: a'.nodes.toList ∧
        Unfolds a'.nodes link t.size (t.numbered a.nodes.size) := by
  induction t generalizing a with
  | absent => exact ⟨none, a, rfl, rfl, List.prefix_rfl, .none _ _⟩
  | number value =>
    refine ⟨some a.nodes.size, _, rfl, by simp [Tree.size], by simp, ?_⟩
    have hleaf : Unfolds a.nodes none 0 .absent := .none _ _
    exact hleaf.push (n := ⟨.number value, none, none⟩) hleaf
  | ident name index ih =>
    obtain ⟨link, b, hrun, hsize, hprefix, hindex⟩ := ih a
    refine ⟨some b.nodes.size, { b with nodes := b.nodes.push ⟨.ident name, none, link⟩ }, ?_,
      by simp [Tree.size, hsize, Nat.add_assoc], hprefix.trans (by simp), ?_⟩
    · simp only [tree, StateT.run_bind, hrun]
      rfl
    · have hpush := Unfolds.push (n := ⟨.ident name, none, link⟩) (.none _ _) hindex
      simp only [Tree.numbered, ← hsize]
      exact hpush
  | keyword tag left right ihl ihr =>
    obtain ⟨l, b, hlrun, hlsize, hleftBefore, hleft⟩ := ihl a
    obtain ⟨r, c, hrrun, hrsize, hrightBefore, hright⟩ := ihr b
    refine ⟨some c.nodes.size, { c with nodes := c.nodes.push ⟨.keyword tag, l, r⟩ }, ?_,
      by simp [Tree.size, hlsize, hrsize, Nat.add_assoc],
      (hleftBefore.trans hrightBefore).trans (by simp), ?_⟩
    · have hkeyword : (tree (.keyword tag left right)).run a =
          (keyword tag ((tree left).run a).1 ((tree right).run ((tree left).run a).2).1 >>=
            fun id => pure (some id)).run ((tree right).run ((tree left).run a).2).2 := rfl
      rw [hkeyword, hlrun, hrrun]
      rfl
    · have hleft' := hleft.mono hrightBefore (Nat.le_add_right left.size right.size)
      have hright' := hright.mono List.prefix_rfl (Nat.le_add_left right.size left.size)
      have hpush := Unfolds.push (n := ⟨.keyword tag, l, r⟩) hleft' hright'
      simp only [Tree.numbered, ← hlsize, ← hrsize]
      exact hpush

end Build

theorem rootTerm_ofTree (t : Tree) : (Arena.ofTree t).rootTerm = t.numbered 0 := by
  obtain ⟨link, a, hrun, hsize, -, hunfolds⟩ := Build.tree_run t Arena.empty
  have hof : Arena.ofTree t = { a with root := link } := by
    simp only [Arena.ofTree, hrun]
  rw [hof, Arena.rootTerm, Arena.termOf_eq_unfold]
  exact hunfolds { a with root := link } List.prefix_rfl a.nodes.size (by omega)

/-- No position occurs twice in the program of a tree. -/
theorem nodup_ids_ofTree (t : Tree) : (Arena.ofTree t).rootTerm.ids.Nodup := by
  rw [rootTerm_ofTree, Tree.ids_numbered]
  exact List.nodup_range'

end StackCompiler
