import StackCompiler.Arena.Term
import Mathlib.Data.List.Nodup
import Mathlib.Data.List.Pairwise

/-!
# Chains and positions

A chain of `tag` nodes is read along its left spine. `elements` accepts exactly the chains and gives
their links, so that recursion along the spine visits the elements in order.

The positions in a term are listed children first. Where none occurs twice, two links of a chain
have no position in common.
-/
namespace StackCompiler.Term

/-- What hangs to the right along the left spine, innermost first, whatever the tags. -/
def links : Term → List Term
  | .node _ _ before last => before.links ++ [last]
  | _ => []

inductive IsChain (tag : Keyword) : Term → Prop
  | absent : IsChain tag .absent
  | link {id : NodeId} {before last : Term} : IsChain tag before → last.isAbsent = false →
      IsChain tag (.node id (.keyword tag) before last)

theorem require_eq_ok {child : Term} {parent : NodeId} {what : String} {u : Unit} :
    child.require parent what = .ok u ↔ child.isAbsent = false := by
  unfold require
  cases child.isAbsent <;> simp

theorem isAbsent_eq_isNone (t : Term) : t.isAbsent = t.id?.isNone := by
  cases t <;> rfl

theorem keyword?_eq_some {t : Term} {tag : Keyword} :
    t.keyword? = some tag ↔ ∃ id left right, t = .node id (.keyword tag) left right := by
  cases t with
  | absent => simp [keyword?]
  | dangling id => simp [keyword?]
  | node id kind left right => cases kind <;> simp [keyword?]

/-- Induction over statements and chains of statements, as they are lowered. The branches of a
conditional lie two levels below it. -/
theorem statement_induction {P Q : Term → Prop} (absent : P .absent ∧ Q .absent)
    (dangling : ∀ id, P (.dangling id) ∧ Q (.dangling id))
    (conditional : ∀ id condition d thenPart elsePart, Q thenPart → Q elsePart →
      P (.node id (.keyword .ifThen) condition (.node d (.keyword .decision) thenPart elsePart)))
    (undecided : ∀ id condition right, right.keyword? ≠ some .decision →
      P (.node id (.keyword .ifThen) condition right))
    (loop : ∀ id condition body, Q body → P (.node id (.keyword .whileLoop) condition body))
    (simple : ∀ id kind left right, kind ≠ .keyword .ifThen → kind ≠ .keyword .whileLoop →
      P (.node id kind left right))
    (chain : ∀ id kind before last, Q before → P last → Q (.node id kind before last)) (t : Term) :
    P t ∧ Q t := by
  -- what holds of the two parts of a decision is carried along
  suffices h : (P t ∧ Q t) ∧
      ∀ d thenPart elsePart, t = .node d (.keyword .decision) thenPart elsePart →
        Q thenPart ∧ Q elsePart from h.1
  induction t with
  | absent => exact ⟨absent, fun _ _ _ h => by cases h⟩
  | dangling id => exact ⟨dangling id, fun _ _ _ h => by cases h⟩
  | node id kind left right ihl ihr =>
    refine ⟨⟨?_, chain id kind left right ihl.1.2 ihr.1.1⟩, ?_⟩
    · by_cases hif : kind = .keyword .ifThen
      · subst hif
        by_cases hdecision : right.keyword? = some .decision
        · obtain ⟨d, thenPart, elsePart, rfl⟩ := keyword?_eq_some.mp hdecision
          obtain ⟨hthen, helse⟩ := ihr.2 d thenPart elsePart rfl
          exact conditional id left d thenPart elsePart hthen helse
        · exact undecided id left right hdecision
      · by_cases hwhile : kind = .keyword .whileLoop
        · subst hwhile
          exact loop id left right ihr.1.2
        · exact simple id kind left right hif hwhile
    · rintro d thenPart elsePart ⟨⟩
      exact ⟨ihl.1.2, ihr.1.2⟩

theorem elements_eq_ok {tag : Keyword} {t : Term} {ts : List Term} :
    t.elements tag = .ok ts ↔ t.IsChain tag ∧ ts = t.links := by
  induction t generalizing ts with
  | absent =>
    constructor
    · intro h
      cases h
      exact ⟨.absent, rfl⟩
    · rintro ⟨-, rfl⟩
      rfl
  | dangling id =>
    constructor
    · intro h
      cases h
    · rintro ⟨h, -⟩
      cases h
  | node id kind left right ihl _ =>
    constructor
    · intro h
      simp only [elements, bind, Except.bind] at h
      split_ifs at h with hkind
      cases hr : right.require id "list element" with
      | error e => simp [hr] at h
      | ok u =>
        cases hl : left.elements tag with
        | error e => simp [hr, hl] at h
        | ok before =>
          obtain ⟨hchain, rfl⟩ := ihl.mp hl
          simp only [hr, hl, pure, Except.pure, Except.ok.injEq] at h
          obtain rfl : kind = .keyword tag := not_not.mp hkind
          exact ⟨.link hchain (require_eq_ok.mp hr), h.symm⟩
    · rintro ⟨_ | ⟨hchain, hright⟩, rfl⟩
      have hl := ihl.mpr ⟨hchain, rfl⟩
      have hr : right.require id "list element" = .ok () := require_eq_ok.mpr hright
      simp [elements, hl, hr, links, bind, Except.bind, pure, Except.pure]

/-- A chain without links is absent. -/
theorem IsChain.isAbsent_eq {tag : Keyword} {t : Term} (h : t.IsChain tag) :
    t.isAbsent = t.links.isEmpty := by
  cases h with
  | absent => rfl
  | link _ _ => simp [isAbsent, links]

/-- The positions of the nodes, children first. -/
def ids : Term → List NodeId
  | .node id _ left right => left.ids ++ right.ids ++ [id]
  | _ => []

theorem nodup_ids_node {id : NodeId} {kind : Kind} {left right : Term}
    (h : (Term.node id kind left right).ids.Nodup) :
    left.ids.Nodup ∧ right.ids.Nodup ∧ left.ids.Disjoint right.ids := by
  rw [ids, List.nodup_append', List.nodup_append'] at h
  exact ⟨h.1.1, h.1.2.1, h.1.2.2⟩

theorem ids_left_subset {id : NodeId} {kind : Kind} {left right : Term} :
    left.ids ⊆ (Term.node id kind left right).ids :=
  fun _ h => List.mem_append_left _ (List.mem_append_left _ h)

theorem ids_right_subset {id : NodeId} {kind : Kind} {left right : Term} :
    right.ids ⊆ (Term.node id kind left right).ids :=
  fun _ h => List.mem_append_left _ (List.mem_append_right _ h)

/-- The positions in the links are among those of the chain, in the same order. -/
theorem ids_links_sublist (t : Term) : (t.links.flatMap ids).Sublist t.ids := by
  induction t with
  | absent => simp [links, ids]
  | dangling id => simp [links, ids]
  | node id kind left right ihl _ =>
    simp only [links, List.flatMap_append, List.flatMap_singleton, ids]
    exact (ihl.append (List.Sublist.refl _)).trans (List.sublist_append_left _ _)

theorem nodup_ids_of_links {t u : Term} (h : t.ids.Nodup) (hu : u ∈ t.links) : u.ids.Nodup :=
  (List.nodup_flatMap.mp ((ids_links_sublist t).nodup h)).1 u hu

/-- Two links at different places share no position. -/
theorem disjoint_ids_of_links {t u v : Term} (h : t.ids.Nodup) (hu : u ∈ t.links)
    (hv : v ∈ t.links) (huv : u ≠ v) : u.ids.Disjoint v.ids := by
  have hnodup := (ids_links_sublist t).nodup h
  rw [List.nodup_flatMap] at hnodup
  have hsymm : Std.Symm (Function.onFun List.Disjoint ids) :=
    ⟨fun _ _ hab _ hb ha => hab ha hb⟩
  exact hnodup.2.forall hu hv huv

end StackCompiler.Term
