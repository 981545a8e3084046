import StackCompiler.Proofs.FrameLayout
import StackCompiler.Proofs.Addressing
import StackCompiler.Proofs.Positions.Lowering
import StackCompiler.Proofs.Static.Acceptance

/-!
# The order of definitions

All functions of a program are known before anything is lowered, and each is lowered by itself over
the final globals. So the code of a function depends on the other functions only through what their
names stand for, and the initializers depend on the assignments alone. If the statements of a
program are put in another order that keeps the order of the assignments, the program compiles as
before, with the same globals, frames and opening, and the same blocks in the order of the
definitions.
-/
namespace StackCompiler

/-- The two programs differ in the order of their functions only. They have the same opening, which
is the initializers and the preamble. -/
structure Program.Reordered (p q : Program) : Prop where
  globals : p.globals = q.globals
  frames : ∀ name, p.frame? name = q.frame? name
  opening : p.opening = q.opening
  preamble : ∃ start, p.opening = start ++ Lowering.preamble p.globals.size
  functions : p.functions.Perm q.functions
  blocks : ∀ f ∈ p.functions, p.block f.name = q.block f.name

namespace FunctionTable

variable {table table' : FunctionTable}

/-- The function that a definition gives by itself. -/
def given? (definition : Term) : Option Function :=
  (functionOf [] definition).toOption

theorem functionOf_eq_ok_iff {t : Term} {f : Function} :
    table.functionOf t = .ok f ↔ given? t = some f ∧ table.get? f.name = none := by
  constructor
  · intro h
    obtain ⟨id, header, nameId, name, left, index, params, body, rfl, hname, hget, hchain, rfl⟩ :=
      functionOf_eq_ok h
    rw [given?, functionOf_define hname rfl hchain]
    exact ⟨rfl, hget⟩
  · rintro ⟨hgiven, hget⟩
    have hok : functionOf [] t = .ok f := by
      unfold given? at hgiven
      cases hcase : functionOf [] t with
      | error e => simp [hcase, Except.toOption] at hgiven
      | ok g => simpa [hcase, Except.toOption] using hgiven
    obtain ⟨id, header, nameId, name, left, index, params, body, rfl, hname, -, hchain, rfl⟩ :=
      functionOf_eq_ok hok
    exact functionOf_define hname hget hchain

/-- Only a definition gives a function. -/
theorem isDefinition_of_given? {t : Term} {f : Function} (h : given? t = some f) :
    t.keyword? = some .define := by
  have hok : functionOf [] t = .ok f := functionOf_eq_ok_iff.mpr ⟨h, rfl⟩
  obtain ⟨_, _, _, _, _, _, _, _, rfl, -⟩ := functionOf_eq_ok hok
  rfl

/-- Statements can be collected if each definition gives a function and the names are different. -/
theorem declareAll_eq_ok_iff {ts : List Term} (hnames : (table.map Function.name).Nodup) :
    table.declareAll ts = .ok table' ↔
      (∀ t ∈ ts, t.keyword? = some .define → ∃ f, given? t = some f) ∧
        table' = table ++ ts.filterMap given? ∧ (table'.map Function.name).Nodup := by
  induction ts generalizing table with
  | nil =>
    simp only [declareAll, Except.ok.injEq, List.not_mem_nil, false_implies, implies_true, true_and,
      List.filterMap_nil, List.append_nil]
    constructor
    · rintro rfl
      exact ⟨rfl, hnames⟩
    · rintro ⟨rfl, -⟩
      rfl
  | cons t rest ih =>
    rw [List.forall_mem_cons]
    by_cases hdefine : t.keyword? = some .define
    swap
    · have hnone : given? t = none := by
        cases hgiven : given? t with
        | none => rfl
        | some f => exact absurd (isDefinition_of_given? hgiven) hdefine
      rw [List.filterMap_cons_none hnone, declareAll, if_neg hdefine, ih hnames]
      simp [hdefine]
    rw [Static.declareAll_define hdefine]
    constructor
    · rintro ⟨f, hf, hrest⟩
      obtain ⟨hgiven, hget⟩ := functionOf_eq_ok_iff.mp hf
      have hjoined : ((table ++ [f]).map Function.name).Nodup := by
        rw [List.map_append, List.nodup_append']
        exact ⟨hnames, by simp, by simpa using Static.get?_eq_none.mp hget⟩
      obtain ⟨hall, rfl, hnodup⟩ := (ih hjoined).mp hrest
      rw [List.filterMap_cons_some hgiven]
      exact ⟨⟨fun _ => ⟨f, hgiven⟩, hall⟩, by simp, hnodup⟩
    · rintro ⟨⟨hfirst, hall⟩, rfl, hnodup⟩
      obtain ⟨f, hgiven⟩ := hfirst hdefine
      have hsplit : table ++ (t :: rest).filterMap given? =
          table ++ [f] ++ rest.filterMap given? := by
        simp [hgiven]
      rw [hsplit] at hnodup
      have hjoined : ((table ++ [f]).map Function.name).Nodup := by
        rw [List.map_append] at hnodup
        exact hnodup.of_append_left
      have hget : table.get? f.name = none := by
        rw [List.map_append, List.nodup_append'] at hjoined
        exact Static.get?_eq_none.mpr (by simpa using hjoined.2.2)
      exact ⟨f, functionOf_eq_ok_iff.mpr ⟨hgiven, hget⟩,
        (ih hjoined).mpr ⟨hall, hsplit, hsplit ▸ hnodup⟩⟩

/-- Statements in another order give the same functions in another order. -/
theorem declareAll_of_perm {ts ts' : List Term} (hperm : ts.Perm ts')
    (h : declareAll [] ts = .ok table) :
    ∃ table', declareAll [] ts' = .ok table' ∧ table.Perm table' := by
  obtain ⟨hall, rfl, hnodup⟩ := (declareAll_eq_ok_iff (by simp)).mp h
  have htables := hperm.filterMap given?
  refine ⟨ts'.filterMap given?, (declareAll_eq_ok_iff (by simp)).mpr ⟨?_, rfl, ?_⟩, htables⟩
  · exact fun t ht => hall t (hperm.mem_iff.mpr ht)
  · exact (htables.map Function.name).nodup_iff.mp hnodup

end FunctionTable

namespace Lowering

/-- The two tables have the same function under each name. -/
def SameNames (table table' : FunctionTable) : Prop :=
  ∀ name, table.get? name = table'.get? name

section Congruence

variable {table table' : FunctionTable}

theorem SameNames.callWith (h : SameNames table table') (id : NodeId) (callee args : Term)
    (staging : Lowering (List Instruction)) :
    callWith table id callee args staging = callWith table' id callee args staging := by
  have hresolve : table.resolve id callee = table'.resolve id callee := by
    simp only [FunctionTable.resolve, h _]
  rw [Lowering.callWith, Lowering.callWith, hresolve]

theorem SameNames.expression_arguments (h : SameNames table table') (t : Term) :
    expression table t = expression table' t ∧ arguments table t = arguments table' t := by
  induction t with
  | absent => exact ⟨rfl, rfl⟩
  | dangling id => exact ⟨rfl, rfl⟩
  | node id kind left right ihl ihr =>
    constructor
    · cases kind with
      | number value => rfl
      | ident name => simp only [expression, ihr.1]
      | keyword tag => simp only [expression, ihl.1, ihr.1, ihr.2, h.callWith]
    · simp only [arguments, ihl.2, ihr.1]

theorem SameNames.expression (h : SameNames table table') (t : Term) :
    expression table t = expression table' t :=
  (h.expression_arguments t).1

theorem SameNames.assignment (h : SameNames table table') (id : NodeId) (left right : Term) :
    assignment table id left right = assignment table' id left right := by
  simp only [Lowering.assignment, target, h.expression]

theorem SameNames.statement_statements (h : SameNames table table') (t : Term) :
    statement table t = statement table' t ∧ statements table t = statements table' t := by
  apply Term.statement_induction (t := t)
  case absent => exact ⟨rfl, rfl⟩
  case dangling => exact fun id => ⟨rfl, rfl⟩
  case conditional =>
    intro id condition d thenPart elsePart hthen helse
    simp only [statement, h.expression, hthen, helse]
  case undecided =>
    intro id condition right hright
    rw [statement_conditional_other hright, statement_conditional_other hright]
  case loop =>
    intro id condition body hbody
    simp only [statement, h.expression, hbody]
  case simple =>
    intro id kind left right hif hwhile
    cases kind with
    | number value => simp only [statement]
    | ident name => simp only [statement]
    | keyword tag =>
      cases tag with
      | assign => simp only [statement, h.assignment]
      | ifThen => exact absurd rfl hif
      | whileLoop => exact absurd rfl hwhile
      | ret => simp only [statement, evaluated, h.expression]
      | display => simp only [statement, display, h.expression]
      | out => simp only [statement, evaluated, h.expression]
      | call => simp only [statement, h.callWith, (h.expression_arguments right).2]
      | _ => simp only [statement]
  case chain =>
    intro id kind before last hbefore hlast
    simp only [statements, hbefore, hlast]

theorem SameNames.definition (h : SameNames table table') (f : Function) :
    definition table f = definition table' f := by
  simp only [Lowering.definition, block, (h.statement_statements f.body).2]

theorem SameNames.initializers (h : SameNames table table') (ts : List Term) :
    initializers table ts = initializers table' ts := by
  induction ts with
  | nil => rfl
  | cons t rest ih =>
    unfold Lowering.initializers
    simp only [h.assignment, ih]

end Congruence

variable {table : FunctionTable} {globals : Frame}

theorem SameNames.unitOf {table' : FunctionTable} (h : SameNames table table') (globals : Frame) :
    unitOf table globals = unitOf table' globals := by
  funext f
  rw [Lowering.unitOf, Lowering.unitOf, function, function, h.definition]

/-- Only assignments count for the initializers. -/
theorem runs_initializers_filter {ts : List Term} {s s' : Scopes} {code : Code} :
    Runs (initializers table (ts.filter isAssignment)) s code s' ↔
      Runs (initializers table ts) s code s' := by
  induction ts generalizing s s' code with
  | nil => rfl
  | cons t rest ih =>
    by_cases hassign : t.keyword? = some .assign
    · obtain ⟨id, left, right, rfl⟩ := Term.keyword?_eq_some.mp hassign
      rw [List.filter_cons_of_pos (by simp [isAssignment, Term.keyword?])]
      simp only [initializers, runs_bind, ih]
    · rw [List.filter_cons_of_neg (by simpa [isAssignment] using hassign), ih,
        initializers.eq_def table (t :: rest)]
      dsimp only
      split
      · exact absurd rfl hassign
      · rfl
      · rw [runs_emit_bind]

namespace Parts

variable {t u : Term} {p q : Program} {start : Code}

/-- The block of a function is what it is lowered to by itself. -/
theorem block_eq (h : Parts t p start) {f : Function} (hf : f ∈ p.functions) :
    p.block f.name = (unitOf p.functions p.globals f).1 := by
  obtain ⟨before, after, hsplit⟩ := List.append_of_mem hf
  have hdefines := (defines_of_runs (h.defines f hf)).2
  have hafter : ∀ g ∈ after, g ∈ p.functions := fun g hg => by simp [hsplit, hg]
  have hmore := definesAll_unitOf fun g hg => h.defines g (hafter g hg)
  have hcode : p.code = (start ++ preamble p.globals.size ++
      before.flatMap fun f => (unitOf p.functions p.globals f).1) ++
      ((unitOf p.functions p.globals f).1 ++
        after.flatMap fun f => (unitOf p.functions p.globals f).1) := by
    rw [h.code, hsplit]
    simp
  have hbefore := hdefines.name_notMem_before (h.anatomy.count_name hf) hcode
  exact Lowering.block_eq h.anatomy.wellNamed hafter hbefore hdefines hmore hcode

/-- The functions of a program give the same blocks and frames in whatever order they are defined.
-/
theorem reorder (h : Parts t p start) (hchain : u.IsChain .stmt) (hperm : t.links.Perm u.links)
    (hassign : t.links.filter isAssignment = u.links.filter isAssignment) :
    ∃ q, Parts u q start ∧ p.Reordered q := by
  obtain ⟨functions, hdeclares, hfunctions⟩ := FunctionTable.declareAll_of_perm hperm h.declares
  have hnames : SameNames p.functions functions :=
    find?_key_eq_of_perm hfunctions h.anatomy.wellNamed.nodup
  have hunits : unitOf p.functions p.globals = unitOf functions p.globals := hnames.unitOf p.globals
  let q : Program := ⟨start ++ preamble p.globals.size ++
      functions.flatMap fun f => (unitOf functions p.globals f).1, functions, p.globals,
    functions.map fun f => (f.name, (unitOf functions p.globals f).2)⟩
  have hq : Parts u q start :=
    { present := by rw [hchain.isAbsent_eq, ← hperm.isEmpty_eq, ← h.chain.isAbsent_eq, h.present]
      chain := hchain
      declares := hdeclares
      initializes := by
        show Runs (initializers functions u.links) _ _ _
        rw [← hnames.initializers, ← runs_initializers_filter, ← hassign, runs_initializers_filter]
        exact h.initializes
      defines := by
        intro f hf
        show Runs (definition functions f) _ (unitOf functions p.globals f) _
        rw [← hnames.definition, ← hunits]
        exact h.defines f (hfunctions.mem_iff.mpr hf)
      code := rfl
      frames := rfl }
  refine ⟨q, hq, rfl, ?_, ?_, ⟨start, h.anatomy.opening_eq⟩, hfunctions, ?_⟩
  · have hkeys : (p.frames.map Prod.fst).Nodup :=
      h.anatomy.definesAll.names ▸ h.anatomy.wellNamed.nodup
    have hframes : p.frames.Perm q.frames := by
      rw [h.frames, hunits]
      exact hfunctions.map _
    exact fun name => congrArg _ (find?_key_eq_of_perm hframes hkeys name)
  · rw [h.anatomy.opening_eq, hq.anatomy.opening_eq]
  · intro f hf
    rw [h.block_eq hf, hq.block_eq (hfunctions.mem_iff.mp hf), hunits]

end Parts

end Lowering

namespace Arena

open Lowering

/-- The root is a chain of statements whose items are the nodes at the given positions, in order. -/
inductive StatementChain (a : Arena) : Option NodeId → List NodeId → Prop
  | nil : StatementChain a none []
  | link {id item : NodeId} {before : Option NodeId} {items : List NodeId} :
      a.node? id = some ⟨.keyword .stmt, before, some item⟩ → StatementChain a before items →
      StatementChain a (some id) (items ++ [item])

/-- Whether the node at a position has the given keyword. -/
def hasKeyword (a : Arena) (tag : Keyword) (id : NodeId) : Bool :=
  (a.node? id).any (·.kind == .keyword tag)

variable {a : Arena}

theorem Sound.keyword?_term (ha : a.Sound) {id : NodeId} (hid : id < a.nodes.size) (tag : Keyword) :
    ((a.term id).keyword? == some tag) = a.hasKeyword tag id := by
  obtain ⟨n, hn⟩ := node?_of_lt hid
  rw [term, ha.termOf_some hn, hasKeyword, hn]
  cases hkind : n.kind <;> simp [Term.keyword?, hkind]

/-- The items of a chain are nodes of the arena. -/
theorem StatementChain.lt_size (ha : a.Sound) {root : Option NodeId} {items : List NodeId}
    (h : a.StatementChain root items) {id : NodeId} (hid : id ∈ items) : id < a.nodes.size := by
  induction h with
  | nil => cases hid
  | link hnode _ ih =>
    rcases List.mem_append.mp hid with hid | hid
    · exact ih hid
    · rw [List.mem_singleton.mp hid]
      exact ha.right hnode _ rfl

/-- A chain of nodes unfolds to a chain of their terms. -/
theorem StatementChain.termOf (ha : a.Sound) {root : Option NodeId} {items : List NodeId}
    (h : a.StatementChain root items) :
    (a.termOf root).IsChain .stmt ∧ (a.termOf root).links = items.map a.term := by
  induction h with
  | nil => exact ⟨.absent, rfl⟩
  | @link id item before items hnode _ ih =>
    obtain ⟨n, hn⟩ := node?_of_lt (ha.right hnode item rfl)
    have hitem : (a.termOf (some item)).isAbsent = false := by
      rw [ha.termOf_some hn]
      rfl
    rw [ha.termOf_some hnode]
    refine ⟨.link ih.1 hitem, ?_⟩
    simp [Term.links, ih.2, term]

theorem StatementChain.filter_links (ha : a.Sound) {root : Option NodeId} {items : List NodeId}
    (h : a.StatementChain root items) (tag : Keyword) :
    (a.termOf root).links.filter (fun t => t.keyword? == some tag) =
      (items.filter (a.hasKeyword tag)).map a.term := by
  rw [(h.termOf ha).2, List.filter_map]
  congr 1
  exact List.filter_congr fun id hid => ha.keyword?_term (h.lt_size ha hid) tag

/-- The functions of a program are those of its definitions, and their blocks follow in that order.
-/
theorem StatementChain.functions (ha : a.Sound) {root : Option NodeId} {items : List NodeId}
    (h : a.StatementChain root items) {p : Program}
    (hp : ({ a with root } : Arena).compile = .ok p) :
    p.functions.map Function.node = items.filter (a.hasKeyword .define) ∧
      p.code = p.opening ++ p.functions.flatMap fun f => p.block f.name := by
  obtain ⟨start, bodies, hanatomy⟩ := anatomy_of_compile hp
  refine ⟨?_, hanatomy.blocks.1⟩
  obtain ⟨fs, hfs, hdefined⟩ := hanatomy.collects.definitions
  obtain rfl : p.functions = fs := by simpa using hfs
  have hnodes : p.functions.map Function.node =
      ((a.termOf root).links.filter FunctionTable.isDefinition).map Term.id := by
    rw [rootTerm, termOf_setRoot] at hdefined
    rw [← List.forall₂_eq_eq_eq, List.forall₂_map_left_iff, List.forall₂_map_right_iff]
    exact hdefined.imp fun f t hft => hft.node
  have hitems : ∀ id ∈ items.filter (a.hasKeyword .define), (a.term id).id = id := by
    intro id hid
    have hrange : a.InRange (some id) := by
      rintro _ ⟨⟩
      exact h.lt_size ha (List.mem_of_mem_filter hid)
    rw [Term.id, term, ha.id?_termOf hrange, Option.getD_some]
  rw [hnodes]
  refine (congrArg (List.map Term.id) (h.filter_links ha .define)).trans ?_
  rw [List.map_map]
  exact (List.map_congr_left hitems).trans (List.map_id' _)

/-- A program whose statements stand in another order that keeps that of the assignments. -/
theorem StatementChain.reorder (ha : a.Sound) {root root' : Option NodeId}
    {items items' : List NodeId}
    (h : a.StatementChain root items) (h' : a.StatementChain root' items')
    (hperm : items.Perm items')
    (hassign : items.filter (a.hasKeyword .assign) = items'.filter (a.hasKeyword .assign))
    {p : Program} (hp : ({ a with root } : Arena).compile = .ok p) :
    ∃ q, ({ a with root := root' } : Arena).compile = .ok q ∧ p.Reordered q := by
  obtain ⟨start, hparts⟩ := compile_eq_ok_iff.mp hp
  have hlinks : (a.termOf root).links.Perm (a.termOf root').links := by
    rw [(h.termOf ha).2, (h'.termOf ha).2]
    exact hperm.map a.term
  have hassignments : (a.termOf root).links.filter isAssignment =
      (a.termOf root').links.filter isAssignment := by
    refine (h.filter_links ha .assign).trans ?_
    rw [hassign]
    exact (h'.filter_links ha .assign).symm
  rw [rootTerm, termOf_setRoot] at hparts
  obtain ⟨q, hq, hreordered⟩ := hparts.reorder (h'.termOf ha).1 hlinks hassignments
  refine ⟨q, compile_eq_ok_iff.mpr ⟨start, ?_⟩, hreordered⟩
  rw [rootTerm, termOf_setRoot]
  exact hq

end Arena

/-- Two chains over the same statements, with the assignments in the same order, both compile or
neither does. The programs then have the same globals, frames, opening and blocks; only the order of
the blocks is that of the definitions in each chain. -/
theorem definition_order_irrelevant (a : Arena) (ha : a.Sound) (root₁ root₂ : Option NodeId)
    (items₁ items₂ : List NodeId) (h₁ : a.StatementChain root₁ items₁)
    (h₂ : a.StatementChain root₂ items₂) (hperm : items₁.Perm items₂)
    (hassign : items₁.filter (a.hasKeyword .assign) = items₂.filter (a.hasKeyword .assign)) :
    ((∃ p, ({ a with root := root₁ } : Arena).compile = .ok p) ↔
      ∃ q, ({ a with root := root₂ } : Arena).compile = .ok q) ∧
    ∀ p q, ({ a with root := root₁ } : Arena).compile = .ok p →
      ({ a with root := root₂ } : Arena).compile = .ok q →
      p.Reordered q ∧
        (p.functions.map Function.node = items₁.filter (a.hasKeyword .define) ∧
          p.code = p.opening ++ p.functions.flatMap fun f => p.block f.name) ∧
        (q.functions.map Function.node = items₂.filter (a.hasKeyword .define) ∧
          q.code = q.opening ++ q.functions.flatMap fun f => q.block f.name) := by
  refine ⟨⟨?_, ?_⟩, ?_⟩
  · rintro ⟨p, hp⟩
    obtain ⟨q, hq, -⟩ := h₁.reorder ha h₂ hperm hassign hp
    exact ⟨q, hq⟩
  · rintro ⟨q, hq⟩
    obtain ⟨p, hp, -⟩ := h₂.reorder ha h₁ hperm.symm hassign.symm hq
    exact ⟨p, hp⟩
  · intro p q hp hq
    obtain ⟨q', hq', hreordered⟩ := h₁.reorder ha h₂ hperm hassign hp
    obtain rfl : q' = q := Except.ok.inj (hq'.symm.trans hq)
    exact ⟨hreordered, h₁.functions ha hp, h₂.functions ha hq⟩

/-- The statements `base := 2; total := base; out base; count(n) { return n + total }; main() {
return count(total) }`, chained in this order at 25 and with `main` first and `count` between the
globals at 30. -/
def Arena.twoOrders : Arena where
  nodes := #[
    ⟨.ident "base", none, none⟩,
    ⟨.number (.ofNat 2), none, none⟩,
    ⟨.keyword .assign, some 0, some 1⟩,
    ⟨.ident "total", none, none⟩,
    ⟨.keyword .assign, some 3, some 0⟩,
    ⟨.ident "n", none, none⟩,
    ⟨.keyword .add, some 5, some 3⟩,
    ⟨.keyword .ret, none, some 6⟩,
    ⟨.keyword .stmt, none, some 7⟩,
    ⟨.ident "count", none, none⟩,
    ⟨.keyword .param, none, some 5⟩,
    ⟨.keyword .func, some 9, some 10⟩,
    ⟨.keyword .define, some 11, some 8⟩,
    ⟨.keyword .param, none, some 3⟩,
    ⟨.keyword .call, some 9, some 13⟩,
    ⟨.keyword .ret, none, some 14⟩,
    ⟨.keyword .stmt, none, some 15⟩,
    ⟨.ident "main", none, none⟩,
    ⟨.keyword .func, some 17, none⟩,
    ⟨.keyword .define, some 18, some 16⟩,
    ⟨.keyword .out, none, some 0⟩,
    ⟨.keyword .stmt, none, some 2⟩,
    ⟨.keyword .stmt, some 21, some 4⟩,
    ⟨.keyword .stmt, some 22, some 20⟩,
    ⟨.keyword .stmt, some 23, some 12⟩,
    ⟨.keyword .stmt, some 24, some 19⟩,
    ⟨.keyword .stmt, none, some 19⟩,
    ⟨.keyword .stmt, some 26, some 2⟩,
    ⟨.keyword .stmt, some 27, some 12⟩,
    ⟨.keyword .stmt, some 28, some 4⟩,
    ⟨.keyword .stmt, some 29, some 20⟩]
  root := some 25

theorem definition_order_irrelevant_twoOrders :
    ∃ p q, Arena.twoOrders.compile = .ok p ∧
      ({ Arena.twoOrders with root := some 30 } : Arena).compile = .ok q ∧ p.Reordered q ∧
      p.functions.map Function.node = [12, 19] ∧ q.functions.map Function.node = [19, 12] := by
  have hsound : Arena.twoOrders.Sound :=
    Arena.sound_of_isOrdered (by decide) (by rintro id ⟨⟩; decide)
  have hfirst : Arena.twoOrders.StatementChain (some 25) [2, 4, 20, 12, 19] :=
    .link rfl (.link rfl (.link rfl (.link rfl (.link rfl .nil))))
  have hsecond : Arena.twoOrders.StatementChain (some 30) [19, 2, 12, 4, 20] :=
    .link rfl (.link rfl (.link rfl (.link rfl (.link rfl .nil))))
  obtain ⟨hiff, hall⟩ := definition_order_irrelevant Arena.twoOrders hsound (some 25) (some 30)
    [2, 4, 20, 12, 19] [19, 2, 12, 4, 20] hfirst hsecond (by decide) (by decide)
  have hok : Arena.twoOrders.compile.isOk = true := by decide +kernel
  cases hp : Arena.twoOrders.compile with
  | error e => simp [hp, Except.isOk, Except.toBool] at hok
  | ok p =>
    obtain ⟨q, hq⟩ := hiff.mp ⟨p, hp⟩
    obtain ⟨hreordered, ⟨hnodes, -⟩, hnodes', -⟩ := hall p q hp hq
    exact ⟨p, q, rfl, hq, hreordered, hnodes, hnodes'⟩

end StackCompiler
