import StackCompiler.Proofs.Positions.Lowering
import StackCompiler.Proofs.Static.Acceptance

/-!
# Compilation depends on the tree only

Sharing of nodes, nodes that nothing refers to, links that a tree leaves out and the numbering of
the nodes have no influence on what a program compiles to, or on why it does not compile.
-/
namespace StackCompiler

variable {R : NodeId → NodeId → Prop} {t u : Term} {table table' : FunctionTable}

theorem alike_expectKeyword (tag : Keyword) (h : t.AlikeNodes R u) :
    ResultsAlike R Eq (t.expectKeyword tag) (u.expectKeyword tag) := by
  unfold Term.expectKeyword
  rw [h.alike.keyword?_eq]
  exact ResultsAlike.ite Iff.rfl (fun _ => rfl) fun _ => ⟨rfl, .some h.id⟩

/-- The children of keywords are alike. -/
theorem Term.Alike.children {tag : Keyword} {v : Unit} (h : t.Alike R u)
    (htag : t.expectKeyword tag = .ok v) : t.left.Alike R u.left ∧ t.right.Alike R u.right := by
  cases h with
  | absent => cases htag
  | number _ => cases htag
  | ident _ _ => cases htag
  | keyword _ hl hr => exact ⟨hl, hr⟩

theorem alike_requireLeft (h : t.AlikeNodes R u) (hleft : t.left.Alike R u.left) (what : String) :
    ResultsAlike R (Term.AlikeNodes R) (t.requireLeft what) (u.requireLeft what) := by
  unfold Term.requireLeft
  refine (alike_require hleft h.id what).and_eq.bind fun _ _ hpresent => ?_
  exact ⟨hleft, Term.require_eq_ok.mp hpresent.2.1⟩

theorem alike_functionOf (htable : table.Alike R table') (h : t.AlikeNodes R u) :
    ResultsAlike R (Function.Alike R) (table.functionOf t) (table'.functionOf u) := by
  unfold FunctionTable.functionOf
  refine (alike_expectKeyword .define h).and_eq.bind fun _ _ hdefine => ?_
  obtain ⟨hleft, hbody⟩ := h.alike.children hdefine.2.1
  refine (alike_requireLeft h hleft _).bind fun header header' hheader => ?_
  refine (alike_expectKeyword .func hheader).and_eq.bind fun _ _ hfunc => ?_
  obtain ⟨hnameTerm, hparams⟩ := hheader.alike.children hfunc.2.1
  refine (alike_requireLeft hheader hnameTerm _).bind fun nameTerm nameTerm' hnameNodes => ?_
  refine (alike_expectIdent hnameNodes).bind fun name _ hname => ?_
  subst hname
  refine ResultsAlike.ite Iff.rfl (fun _ => ⟨rfl, .some hnameNodes.id⟩) fun _ => ?_
  refine ResultsAlike.ite (by rw [htable.isSome_get?_eq name])
    (fun _ => ⟨rfl, .some hnameNodes.id⟩) fun _ => ?_
  refine (alike_elements .param hparams).bind fun params params' hlinks => ?_
  exact ⟨rfl, h.id, hlinks, hbody⟩

theorem alike_declareAll {ts us : List Term} (htable : table.Alike R table')
    (h : List.Forall₂ (Term.AlikeNodes R) ts us) :
    ResultsAlike R (FunctionTable.Alike R) (table.declareAll ts) (table'.declareAll us) := by
  induction h generalizing table table' with
  | nil => exact htable
  | @cons t u ts us htu _ ih =>
    unfold FunctionTable.declareAll
    rw [htu.alike.keyword?_eq]
    refine ResultsAlike.ite Iff.rfl (fun _ => ?_) fun _ => ih htable
    have hdeclare : ResultsAlike R (fun p q => FunctionTable.Alike R p.2 q.2) (table.declare t)
        (table'.declare u) := by
      refine (alike_functionOf htable htu).bind fun f g hfg => ?_
      exact List.rel_append htable (.cons hfg .nil)
    exact hdeclare.bind fun p q hpq => ih hpq

theorem alike_build (h : t.Alike R u) :
    ResultsAlike R (FunctionTable.Alike R) (FunctionTable.build t) (FunctionTable.build u) := by
  unfold FunctionTable.build
  exact (alike_elements .stmt h).bind fun ts us hlinks => alike_declareAll .nil hlinks

namespace Lowering

theorem alike_initializers (htable : table.Alike R table') {ts us : List Term}
    (h : List.Forall₂ (Term.AlikeNodes R) ts us) :
    (initializers table ts).Alike R Code.SameLines (initializers table' us) := by
  induction h with
  | nil => exact alike_pure rfl
  | @cons t u ts us htu _ ih =>
    obtain ⟨halike, hpresent⟩ := htu
    have hignored : ∀ e e',
        (do emit e; initializers table ts : Lowering Code).Alike R Code.SameLines
        (do emit e'; initializers table' us) :=
      fun e e' => (alike_emit e e').bind fun _ _ _ => ih
    cases halike with
    | absent => cases hpresent
    | number _ => exact hignored _ _
    | ident _ _ => exact hignored _ _
    | @keyword m n tag l l' r r' hR hl hr =>
      cases tag with
      | assign =>
        simp only [initializers]
        refine (alike_assignment htable hR hl hr).bind fun code code' hcode => ?_
        refine ih.bind fun more more' hmore => alike_pure ?_
        rw [Code.SameLines, Code.stemmed_append, Code.stemmed_append, hcode, hmore]
      | define => exact ih
      | _ => exact hignored _ _

/-- Named frames that are equal up to positions. -/
def SameFrame (p q : String × Frame) : Prop :=
  p.1 = q.1 ∧ p.2.anonymous = q.2.anonymous

theorem alike_definitions (htable : table.Alike R table') {fs gs : List Function}
    (h : List.Forall₂ (Function.Alike R) fs gs) :
    (definitions table fs).Alike R (fun p q => p.1.SameLines q.1 ∧ List.Forall₂ SameFrame p.2 q.2)
      (definitions table' gs) := by
  induction h with
  | nil => exact alike_pure ⟨rfl, .nil⟩
  | @cons f g fs gs hfg _ ih =>
    unfold definitions
    refine (alike_definition htable hfg).bind fun p q hpq => ?_
    refine ih.bind fun more more' hmore => alike_pure ⟨?_, .cons ⟨hfg.name, hpq.2⟩ hmore.2⟩
    rw [Code.SameLines, Code.stemmed_append, Code.stemmed_append, hpq.1, hmore.1]

/-- Programs that differ in positions only. -/
structure ProgramsAlike (R : NodeId → NodeId → Prop) (p q : Program) : Prop where
  code : p.code.SameLines q.code
  functions : p.functions.Alike R q.functions
  globals : p.globals.anonymous = q.globals.anonymous
  frames : List.Forall₂ SameFrame p.frames q.frames

/-- What is lowered once the functions are known. -/
theorem alike_programOf {ts us : List Term} (htable : table.Alike R table')
    (h : List.Forall₂ (Term.AlikeNodes R) ts us) :
    (programOf table ts).Alike R (ProgramsAlike R) (programOf table' us) := by
  unfold programOf
  refine (alike_initializers htable h).bind fun start start' hstart => ?_
  refine alike_scopes.bind fun s s' hs => ?_
  have hglobals : s.globals.anonymous = s'.globals.anonymous := congrArg Scopes.globals hs
  obtain ⟨-, hsize, -⟩ := Frame.layout_eq hglobals
  refine alike_scopes.bind fun _ _ _ => ?_
  refine (alike_emit _ _).bind fun _ _ _ => ?_
  refine (alike_definitions htable htable).bind fun p q hpq => ?_
  refine alike_scopes.bind fun s₁ s₁' hs₁ => alike_pure ?_
  refine ⟨?_, htable, congrArg Scopes.globals hs₁, hpq.2⟩
  show Code.stemmed _ = Code.stemmed _
  rw [Code.stemmed_append, Code.stemmed_append, Code.stemmed_append, Code.stemmed_append, hsize,
    hstart, hpq.1]

theorem alike_program (h : t.Alike R u) : (program t).Alike R (ProgramsAlike R) (program u) := by
  unfold program
  rw [h.isAbsent_eq]
  refine alike_ite Iff.rfl (fun _ => alike_throw_bind ⟨rfl, .none⟩) fun _ => ?_
  refine (alike_lift (alike_build h)).bind fun table table' htable => ?_
  refine (alike_emit _ _).bind fun _ _ _ => ?_
  have hentry : (table.get? Program.entry).isNone = (table'.get? Program.entry).isNone := by
    rw [← Option.not_isSome, ← Option.not_isSome, htable.isSome_get?_eq]
  have hrest := (alike_lift (alike_elements .stmt h)).bind fun ts us => alike_programOf htable
  refine alike_ite (by rw [hentry]) (fun _ => ?_) fun _ => hrest
  exact (alike_emit _ _).bind fun _ _ _ => hrest

end Lowering

namespace Arena

/-- The nodes at the two positions have the same tree. -/
def SameTree (a b : Arena) (m n : NodeId) : Prop :=
  (a.term m).toTree = (b.term n).toTree

theorem Holds.sameTree {a b : Arena} (ha : a.Sound) (hb : b.Sound) {t u : Term} (ht : a.Holds t)
    (hu : b.Holds u) (h : t.toTree = u.toTree) {m n : NodeId} (hm : t.id? = some m)
    (hn : u.id? = some n) : SameTree a b m n := by
  have htm : a.term m = t := by rw [term, ← hm, ht.termOf_id? ha]
  have hun : b.term n = u := by rw [term, ← hn, hu.termOf_id? hb]
  rw [SameTree, htm, hun, h]

/-- Terms of two arenas with the same tree are alike. -/
theorem Holds.alike {a b : Arena} (ha : a.Sound) (hb : b.Sound) {t u : Term} (ht : a.Holds t)
    (hu : b.Holds u) (h : t.toTree = u.toTree) : t.Alike (SameTree a b) u := by
  induction t generalizing u with
  | absent =>
    have habsent : u.isAbsent = true := by
      rw [← hu.whole.isAbsent_toTree, ← h]
      rfl
    rw [Lowering.eq_absent_of_isAbsent habsent]
    exact .absent
  | dangling id => exact ht.elim
  | node id kind left right ihl ihr =>
    have hsame := fun n => ht.sameTree ha hb hu h (m := id) (n := n) rfl
    cases kind with
    | number value =>
      obtain ⟨n, l, r, rfl⟩ := Term.toTree_eq_number.mp h.symm
      exact .number (hsame n rfl)
    | ident name =>
      obtain ⟨n, l, index, rfl, hindex⟩ := Term.toTree_eq_ident.mp h.symm
      exact .ident (hsame n rfl) (ihr ht.2.2 hu.2.2 hindex.symm)
    | keyword tag =>
      obtain ⟨n, l, r, rfl, hl, hr⟩ := Term.toTree_eq_keyword.mp h.symm
      exact .keyword (hsame n rfl) (ihl ht.2.1 hu.2.1 hl.symm) (ihr ht.2.2 hu.2.2 hr.symm)

end Arena

/-- What a compiled program says apart from positions. -/
structure Listing where
  /-- Each function with the number of its parameters. -/
  functions : List (String × Nat)
  globals : Frame
  frames : List (String × Frame)
  lines : Code
  deriving DecidableEq, Repr

/-- What an error says apart from positions. -/
structure Refusal where
  error : CompileError
  message : String
  /-- The tree of the node at fault. -/
  fault : Option Tree
  deriving DecidableEq, Repr

/-- The result of compilation, with positions left out and nodes replaced by their trees. -/
def Arena.outcome (a : Arena) : Except Refusal Listing :=
  match a.compile with
  | .ok p => .ok
    { functions := p.functions.map fun f => (f.name, f.arity)
      globals := p.globals.anonymous
      frames := p.frames.map fun (name, frame) => (name, frame.anonymous)
      lines := p.code.stemmed }
  | .error e => .error
    { error := e.anonymous
      message := e.message
      fault := e.node?.map fun id => (a.term id).toTree }

theorem Arena.outcome_eq {a b : Arena}
    (h : ResultsAlike (SameTree a b) (Lowering.ProgramsAlike (SameTree a b)) a.compile b.compile) :
    a.outcome = b.outcome := by
  rcases h.cases with ⟨p, q, hp, hq, halike⟩ | ⟨e, e', he, he', halike⟩
  · have hfunctions : (p.functions.map fun f => (f.name, f.arity)) =
        q.functions.map fun f => (f.name, f.arity) := by
      rw [← List.forall₂_eq_eq_eq, List.forall₂_map_left_iff, List.forall₂_map_right_iff]
      exact halike.functions.imp fun f g hfg => by rw [hfg.name, hfg.arity]
    have hframes : (p.frames.map fun (name, frame) => (name, frame.anonymous)) =
        q.frames.map fun (name, frame) => (name, frame.anonymous) := by
      rw [← List.forall₂_eq_eq_eq, List.forall₂_map_left_iff, List.forall₂_map_right_iff]
      exact halike.frames.imp fun f g hfg => Prod.ext hfg.1 hfg.2
    have hlines : p.code.stemmed = q.code.stemmed := halike.code
    simp only [outcome, hp, hq, hfunctions, halike.globals, hframes, hlines]
  · have hmessage : e.message = e'.message := by
      rw [← e.message_anonymous, halike.anonymous, e'.message_anonymous]
    have hfault : (e.node?.map fun id => (a.term id).toTree) =
        e'.node?.map fun id => (b.term id).toTree := by
      have hnode := halike.node
      generalize e.node? = node, e'.node? = node' at hnode ⊢
      cases hnode with
      | none => rfl
      | some hsame => exact congrArg some hsame
    simp only [outcome, he, he', halike.anonymous, hmessage, hfault]

/-- Arenas with the same tree compile to the same outcome. It is that of the tree's own arena. -/
theorem outcome_depends_on_tree (a b : Arena) (ha : a.Sound) (hb : b.Sound)
    (h : a.rootTerm.toTree = b.rootTerm.toTree) :
    a.outcome = b.outcome ∧ (Arena.ofTree a.rootTerm.toTree).outcome = a.outcome := by
  have houtcome : ∀ b : Arena, b.Sound → a.rootTerm.toTree = b.rootTerm.toTree →
      a.outcome = b.outcome := by
    intro b hb h
    have halike := ha.holds_rootTerm.alike ha hb hb.holds_rootTerm h
    exact Arena.outcome_eq (Lowering.alike_program halike _ _ rfl).result
  exact ⟨houtcome b hb h,
    (houtcome _ (Arena.sound_ofTree _) (toTree_rootTerm_ofTree _).symm).symm⟩

/-- The program of `sharedElement` with nothing shared, nodes that nothing refers to or that a tree
leaves out, and another numbering. -/
def Arena.scatteredElement : Arena where
  nodes := #[
    ⟨.number (.ofNat 7), none, none⟩,
    ⟨.ident "main", some 0, none⟩,
    ⟨.keyword .func, some 1, none⟩,
    ⟨.number (.ofNat 2), some 0, some 1⟩,
    ⟨.ident "x", some 2, some 3⟩,
    ⟨.keyword .out, none, some 4⟩,
    ⟨.number (.ofNat 2), none, none⟩,
    ⟨.ident "x", none, some 6⟩,
    ⟨.keyword .assign, some 7, some 3⟩,
    ⟨.keyword .stmt, none, some 8⟩,
    ⟨.keyword .stmt, some 9, some 5⟩,
    ⟨.keyword .define, some 2, some 10⟩,
    ⟨.keyword .stmt, none, some 11⟩]
  root := some 12

theorem outcome_depends_on_tree_scatteredElement :
    Arena.sharedElement.Sound ∧ Arena.scatteredElement.Sound ∧
      Arena.sharedElement.rootTerm.toTree = Arena.scatteredElement.rootTerm.toTree ∧
      Arena.sharedElement.outcome = Arena.scatteredElement.outcome := by
  have hscattered : Arena.scatteredElement.Sound :=
    Arena.sound_of_isOrdered (by decide) (by rintro id ⟨⟩; decide)
  have htree : Arena.sharedElement.rootTerm.toTree = Arena.scatteredElement.rootTerm.toTree := by
    decide +kernel
  exact ⟨Arena.sound_sharedElement, hscattered, htree,
    (outcome_depends_on_tree _ _ Arena.sound_sharedElement hscattered htree).1⟩

end StackCompiler
