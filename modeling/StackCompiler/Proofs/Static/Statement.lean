import StackCompiler.Proofs.Static.Check
import StackCompiler.Proofs.Lowering.Outcome
import StackCompiler.Proofs.Lowering.Program
import StackCompiler.Proofs.Term.Unfolding

/-!
# Statements that lower

Lowering an expression, an assignment's target or a statement succeeds exactly where the check of
its tree does, and a check that gives an environment describes the scopes that lowering leaves. The
check reads a tree, so nothing here depends on positions; the terms are those without dangling
links.
-/
namespace StackCompiler

namespace Static

open Lowering

/-- The environment knows the names and functions that lowering finds. -/
structure Knows (env : Environment) (table : FunctionTable) (s : Scopes) : Prop where
  isArray? : ∀ name, env.isArray? name = ((s.find? name).map Prod.snd).map Variable.isArray
  arity? : ∀ name, env.arity? name = (table.get? name).map Function.arity

variable {env : Environment} {table : FunctionTable} {s : Scopes}

theorem find?_reserve (s : Scopes) (count : Nat) (name : String) :
    ((s.reserve count).find? name).map Prod.snd = (s.find? name).map Prod.snd := by
  obtain ⟨globals, locals⟩ := s
  cases locals with
  | none =>
    simp only [Scopes.reserve, Scopes.setCurrent, Scopes.current, Scopes.find?, Frame.find?,
      Option.getD_none]
    cases globals.declared.find? (·.name == name) <;> rfl
  | some f =>
    simp only [Scopes.reserve, Scopes.setCurrent, Scopes.current, Scopes.find?, Frame.find?,
      Option.getD_some]
    cases globals.declared.find? (·.name == name) with
    | some v => rfl
    | none => cases f.declared.find? (·.name == name) <;> rfl

theorem Knows.reserve (h : Knows env table s) (count : Nat) : Knows env table (s.reserve count) :=
  ⟨fun name => by rw [h.isArray?, find?_reserve], h.arity?⟩

/-- Lowering `t` as an expression succeeds if its tree is one. -/
def ExpressionAccepted (env : Environment) (table : FunctionTable) (t : Term) : Prop :=
  ∀ s, Knows env table s → t.isAbsent = false →
    (Succeeds (expression table t) s ↔ isExpression env t.toTree = true)

/-- Lowering `t` as arguments succeeds if its tree is a chain of expressions. -/
def ArgumentsAccepted (env : Environment) (table : FunctionTable) (t : Term) : Prop :=
  ∀ s, Knows env table s → ∀ count,
    (arguments? env t.toTree = some count ↔
      t.IsChain .param ∧ t.links.length = count ∧ Succeeds (arguments table t) s)

theorem succeeds_loadShift {index : Term} {code : Lowering (List Instruction)} :
    Succeeds (loadShift index code) s ↔ index.isAbsent = true ∨ Succeeds code s := by
  unfold loadShift
  cases index.isAbsent with
  | true => simp
  | false => simp

theorem succeeds_resolved {id : NodeId} {name : String} {index : Term} (hindex : index.Whole)
    (h : ExpressionAccepted env table index) (hs : Knows env table s) :
    Succeeds (resolved id name index (expression table index)) s ↔
      isExpression env (.ident name index.toTree) = true := by
  have hload : Succeeds (loadShift index (expression table index)) s ↔
      (index.isAbsent || isExpression env index.toTree) = true := by
    rw [succeeds_loadShift]
    cases habsent : index.isAbsent with
    | true => simp
    | false => simp [h s hs habsent]
  simp only [isExpression, hs.isArray?, hindex.isAbsent_toTree, Bool.and_eq_true, beq_iff_eq,
    ← hload]
  unfold resolved
  refine finishes_scopes_bind.trans ?_
  cases s.find? name with
  | none => simp
  | some found =>
    obtain ⟨frame, v⟩ := found
    simp only [finishes_lift_bind, addressOf_eq_ok, finishes_bind_pure, Option.map_some,
      Option.some.injEq]
    constructor
    · rintro ⟨_, ⟨hshape, -⟩, hrun⟩
      exact ⟨hshape, hrun⟩
    · rintro ⟨hshape, hrun⟩
      exact ⟨_, ⟨hshape, rfl⟩, hrun⟩

theorem succeeds_callWith {id : NodeId} {callee args : Term} (hcallee : callee.Whole)
    (hargs : ArgumentsAccepted env table args) (hs : Knows env table s) :
    Succeeds (callWith table id callee args (Lowering.arguments table args)) s ↔
      isExpression env (.keyword .call callee.toTree args.toTree) = true := by
  have hcall : Succeeds (callWith table id callee args (Lowering.arguments table args)) s ↔
      ∃ f, table.resolve id callee = .ok f ∧ arguments? env args.toTree = some f.arity := by
    constructor
    · rintro ⟨code, s', h, -⟩
      obtain ⟨f, staged, s₁, hresolve, hchain, hcount, hstaged, -⟩ := runs_callWith.mp h
      exact ⟨f, hresolve, (hargs s hs _).mpr ⟨hchain, hcount, staged, s₁, hstaged, trivial⟩⟩
    · rintro ⟨f, hresolve, hcount⟩
      obtain ⟨hchain, hlength, staged, s₁, hstaged, -⟩ := (hargs s hs _).mp hcount
      obtain ⟨rfl, -⟩ := (lowers_of_runs table args).2 hchain s staged s₁ hstaged
      exact ⟨_, s, runs_callWith.mpr ⟨f, staged, _, hresolve, hchain, hlength, hstaged,
        runs_release_reserve.mpr rfl, rfl⟩, trivial⟩
  rw [hcall]
  simp only [FunctionTable.resolve_eq_ok]
  cases callee with
  | absent => simp [Term.toTree, isExpression, Keyword.meaning?]
  | dangling id => exact hcallee.elim
  | node calleeId kind left index =>
    cases kind with
    | number n => simp [Term.toTree, isExpression, Keyword.meaning?]
    | keyword tag => simp [Term.toTree, isExpression, Keyword.meaning?]
    | ident name =>
      simp only [Term.toTree, isExpression, hs.arity?]
      cases hget : table.get? name with
      | none => simp [hget]
      | some f => simp [hget]

/-- Nothing is no expression. -/
theorem isAbsent_eq_false {t : Term} (h : isExpression env t.toTree = true) :
    t.isAbsent = false := by
  cases habsent : t.isAbsent with
  | false => rfl
  | true => simp [eq_absent_of_isAbsent habsent, Term.toTree, isExpression] at h

theorem expressionAccepted_keyword {id : NodeId} {tag : Keyword} {left right : Term}
    (hl : left.Whole) (hr : right.Whole) (hleft : ExpressionAccepted env table left)
    (hright : ExpressionAccepted env table right) (hargs : ArgumentsAccepted env table right) :
    ExpressionAccepted env table (.node id (.keyword tag) left right) := by
  intro s hs _
  by_cases hcall : tag = .call
  · subst hcall
    simp only [expression, if_true]
    exact succeeds_callWith hl hargs hs
  have hpresent : ∀ t : Term, t.Whole → ExpressionAccepted env table t →
      (t.isAbsent = false ∧ Succeeds (expression table t) s ↔
        isExpression env t.toTree = true) := by
    intro t ht haccepted
    cases habsent : t.isAbsent with
    | true => simp [eq_absent_of_isAbsent habsent, Term.toTree, isExpression]
    | false => simp [haccepted s hs habsent]
  rw [Term.toTree, isExpression]
  swap
  · exact fun _ _ htag => absurd htag hcall
  simp only [expression, hcall, if_false, Keyword.arity?_eq, Keyword.operation?_eq]
  cases tag.meaning? with
  | none => simp
  | some operator =>
    cases operator with
    | binary operation =>
      simp only [Option.map_some, Operator.arity, Operator.operation, Bool.and_eq_true,
        ← hpresent left hl hleft, ← hpresent right hr hright, finishes_lift_bind,
        Term.require_eq_ok, exists_const]
      rw [and_assoc]
      refine and_congr_right fun hpresentLeft => ?_
      refine (keeps_expression hpresentLeft).finishes_bind fun code => ?_
      simp only [finishes_lift_bind, Term.require_eq_ok, exists_const, finishes_bind_pure]
    | unary operation =>
      simp only [Option.map_some, Operator.arity, Operator.operation, ← hpresent right hr hright,
        finishes_lift_bind, Term.require_eq_ok, finishes_bind_pure, exists_const]
    | input =>
      simp only [Option.map_some, Operator.arity, Operator.operation, Bool.or_eq_true,
        ← hpresent right hr hright, finishes_bind_pure, hr.isAbsent_toTree]
      cases habsent : right.isAbsent with
      | true => simp [eq_absent_of_isAbsent habsent, expression]
      | false => simp

theorem argumentsAccepted_node {id : NodeId} {kind : Kind} {before argument : Term}
    (hbefore : ArgumentsAccepted env table before)
    (haccepted : ExpressionAccepted env table argument) :
    ArgumentsAccepted env table (.node id kind before argument) := by
  intro s hs count
  by_cases hparam : kind = .keyword .param
  swap
  · -- another node is no link of a chain
    have hnone : arguments? env (Term.node id kind before argument).toTree = none := by
      cases kind with
      | number n => rfl
      | ident name => rfl
      | keyword tag =>
        rw [Term.toTree, arguments?]
        · simp
        · simpa using hparam
    have hchain : ¬ (Term.node id kind before argument).IsChain .param := by
      rintro ⟨⟩
      exact hparam rfl
    simp [hnone, hchain]
  subst hparam
  have hsucceeds : before.IsChain .param → argument.isAbsent = false →
      (Succeeds (arguments table (.node id (.keyword .param) before argument)) s ↔
        Succeeds (arguments table before) s ∧ isExpression env argument.toTree = true) := by
    intro hchain hpresent
    simp only [arguments, finishes_bind]
    constructor
    · rintro ⟨staged, s₁, hstaged, value, s₂, hvalue, -⟩
      obtain ⟨rfl, -⟩ := (lowers_of_runs table before).2 hchain s staged s₁ hstaged
      exact ⟨⟨staged, _, hstaged, trivial⟩,
        (haccepted _ (hs.reserve _) hpresent).mp ⟨value, s₂, hvalue, trivial⟩⟩
    · rintro ⟨⟨staged, s₁, hstaged, -⟩, hvalue⟩
      obtain ⟨rfl, -⟩ := (lowers_of_runs table before).2 hchain s staged s₁ hstaged
      obtain ⟨value, s₂, hvalue, -⟩ := (haccepted _ (hs.reserve _) hpresent).mpr hvalue
      exact ⟨staged, _, hstaged, value, s₂, hvalue, _, _, runs_stage.mpr ⟨rfl, rfl⟩,
        finishes_pure.mpr trivial⟩
  rw [Term.toTree, arguments?]
  constructor
  · intro h
    split_ifs at h with hexpression
    obtain ⟨earlier, hearlier, rfl⟩ := Option.map_eq_some_iff.mp h
    obtain ⟨hchain, hlength, hstaged⟩ := (hbefore s hs earlier).mp hearlier
    have hpresent := isAbsent_eq_false hexpression
    refine ⟨.link hchain hpresent, ?_, (hsucceeds hchain hpresent).mpr ⟨hstaged, hexpression⟩⟩
    simp [Term.links, hlength]
  · rintro ⟨_ | ⟨hchain, hpresent⟩, hlength, hrun⟩
    obtain ⟨hstaged, hexpression⟩ := (hsucceeds hchain hpresent).mp hrun
    have hearlier := (hbefore s hs before.links.length).mpr ⟨hchain, rfl, hstaged⟩
    rw [if_pos hexpression, hearlier]
    simpa [Term.links] using hlength

theorem accepted_of_whole {t : Term} (ht : t.Whole) :
    ExpressionAccepted env table t ∧ ArgumentsAccepted env table t := by
  induction t with
  | absent =>
    constructor
    · intro s _ habsent
      cases habsent
    · intro s _ count
      simp [Term.toTree, arguments?, Term.links, Term.IsChain.absent, arguments]
  | dangling id => exact ht.elim
  | node id kind left right ihl ihr =>
    obtain ⟨hl, hr⟩ := ht
    obtain ⟨hleft, hbefore⟩ := ihl hl
    obtain ⟨hright, hargs⟩ := ihr hr
    refine ⟨?_, argumentsAccepted_node hbefore hright⟩
    cases kind with
    | number n =>
      intro s _ _
      simp [expression, Term.toTree, isExpression]
    | ident name =>
      intro s hs _
      simp only [expression, finishes_bind_pure]
      exact succeeds_resolved hr hright hs
    | keyword tag => exact expressionAccepted_keyword hl hr hleft hright hargs

/-- An expression is lowered without fault exactly if it is well-formed. -/
theorem succeeds_expression {t : Term} (ht : t.Whole) (hs : Knows env table s)
    (hpresent : t.isAbsent = false) :
    Succeeds (expression table t) s ↔ isExpression env t.toTree = true :=
  (accepted_of_whole ht).1 s hs hpresent

/-- What a frame tells of its names. -/
def Names.ofFrame (f : Frame) : Names :=
  ⟨f.declared.map fun v => (v.name, v.isArray), f.size⟩

def Environment.ofScopes (table : FunctionTable) (s : Scopes) : Environment :=
  ⟨table.map fun f => (f.name, f.arity), .ofFrame s.globals, s.locals.map .ofFrame⟩

theorem isArray?_ofFrame (f : Frame) (name : String) :
    (Names.ofFrame f).isArray? name = (f.find? name).map Variable.isArray := by
  simp [Names.isArray?, Names.ofFrame, Frame.find?, List.find?_map, Function.comp_def]

theorem isArray?_ofScopes (table : FunctionTable) (s : Scopes) (name : String) :
    (Environment.ofScopes table s).isArray? name =
      ((s.find? name).map Prod.snd).map Variable.isArray := by
  obtain ⟨globals, locals⟩ := s
  simp only [Environment.isArray?, Environment.ofScopes, isArray?_ofFrame, Scopes.find?]
  cases globals.find? name with
  | some v => rfl
  | none =>
    cases locals with
    | none => rfl
    | some f => simp [isArray?_ofFrame, Function.comp_def]

theorem knows_ofScopes (table : FunctionTable) (s : Scopes) :
    Knows (.ofScopes table s) table s where
  isArray? := isArray?_ofScopes table s
  arity? name := by
    simp [Environment.arity?, Environment.ofScopes, FunctionTable.get?, List.find?_map,
      Function.comp_def]

theorem lengthOf?_eq {index : Term} (h : index.Whole) :
    Frame.lengthOf? index = index.toTree.length? := by
  cases index with
  | absent => rfl
  | dangling id => exact h.elim
  | node id kind left right => cases kind <;> rfl

/-- A name is declared in a frame exactly if its names say that it can be. -/
theorem declare_ofFrame {f : Frame} (id : NodeId) {name : String} (left : Term) {index : Term}
    (hindex : index.Whole) {names : Names} :
    (Names.ofFrame f).declare name index.toTree = some names ↔
      ∃ v g, f.declare (.node id (.ident name) left index) = .ok (v, g) ∧ .ofFrame g = names := by
  simp only [Names.declare, ← lengthOf?_eq hindex, isArray?_ofFrame, Option.isNone_map]
  constructor
  · intro h
    cases hlength : Frame.lengthOf? index with
    | none => simp [hlength] at h
    | some length =>
      simp only [hlength] at h
      split_ifs at h with hfits
      cases h
      refine ⟨⟨name, id, f.size, length⟩, _, Frame.declare_eq_ok.mpr ⟨id, name, left, index, length,
        rfl, by simpa using hfits.1, hlength, rfl, hfits.2, rfl⟩, ?_⟩
      simp [Names.ofFrame, Variable.isArray, Variable.size]
  · rintro ⟨v, g, hdeclare, rfl⟩
    obtain ⟨_, _, _, _, length, hterm, hnone, hlength, rfl, hsize, rfl⟩ :=
      Frame.declare_eq_ok.mp hdeclare
    cases hterm
    have hfits : (f.find? name).isNone = true ∧ f.size + length.getD 1 ≤ Frame.maxSize :=
      ⟨by simp [hnone], hsize⟩
    rw [hlength]
    simp only [Names.ofFrame, hfits, and_self, if_true]
    simp [Variable.isArray, Variable.size]

theorem declare_ofScopes (id : NodeId) {name : String} (left : Term) {index : Term}
    (hindex : index.Whole) {env' : Environment} :
    (Environment.ofScopes table s).declare name index.toTree = some env' ↔
      ∃ v frame, s.current.declare (.node id (.ident name) left index) = .ok (v, frame) ∧
        .ofScopes table (s.setCurrent frame) = env' := by
  obtain ⟨globals, locals⟩ := s
  cases locals with
  | none =>
    simp only [Environment.declare, Environment.ofScopes, Option.map_none, Option.map_eq_some_iff,
      declare_ofFrame id left hindex]
    constructor
    · rintro ⟨names, ⟨v, frame, hdeclare, rfl⟩, rfl⟩
      exact ⟨v, frame, hdeclare, rfl⟩
    · rintro ⟨v, frame, hdeclare, rfl⟩
      exact ⟨_, ⟨v, frame, hdeclare, rfl⟩, rfl⟩
  | some f =>
    simp only [Environment.declare, Environment.ofScopes, Option.map_some, Option.map_eq_some_iff,
      declare_ofFrame id left hindex]
    constructor
    · rintro ⟨names, ⟨v, frame, hdeclare, rfl⟩, rfl⟩
      exact ⟨v, frame, hdeclare, rfl⟩
    · rintro ⟨v, frame, hdeclare, rfl⟩
      exact ⟨_, ⟨v, frame, hdeclare, rfl⟩, rfl⟩

/-- The scopes are those that the environment describes. -/
def Describes (table : FunctionTable) (env : Environment) (s : Scopes) : Prop :=
  Environment.ofScopes table s = env

theorem unchanged_eq_some {check : Bool} {env' : Environment} :
    unchanged env check = some env' ↔ check = true ∧ env = env' := by
  unfold unchanged
  cases check <;> simp

theorem succeeds_resolved_ofScopes {id : NodeId} {name : String} {index : Term}
    (hindex : index.Whole) :
    Succeeds (resolved id name index (expression table index)) s ↔
      isExpression (.ofScopes table s) (.ident name index.toTree) = true :=
  succeeds_resolved hindex (accepted_of_whole hindex).1 (knows_ofScopes table s)

theorem finishes_target {t : Term} (ht : t.Whole) {env' : Environment} :
    Finishes (target table t) s (Describes table env') ↔
      target? (.ofScopes table s) t.toTree = some env' := by
  cases t with
  | absent => simp [target, Term.expectIdent, Term.ident?, Term.toTree, target?]
  | dangling id => exact ht.elim
  | node id kind left index =>
    cases kind with
    | number n => simp [target, Term.expectIdent, Term.ident?, Term.toTree, target?]
    | keyword tag => simp [target, Term.expectIdent, Term.ident?, Term.toTree, target?]
    | ident name =>
      simp only [target, Term.expectIdent, Term.ident?, Term.toTree, target?, finishes_lift_bind,
        Except.ok.injEq, exists_eq_left', finishes_scopes_bind, isArray?_ofScopes,
        Option.isSome_map]
      rw [finishes_ite]
      split_ifs with hfound hexpression
      · rw [keeps_resolved.finishes]
        simp [Term.right, succeeds_resolved_ofScopes ht.2, hexpression, Describes]
      · rw [keeps_resolved.finishes]
        simp [Term.right, succeeds_resolved_ofScopes ht.2, hexpression]
      · simp only [finishes_current_bind, finishes_lift_bind, finishes_setCurrent_bind,
          finishes_pure, declare_ofScopes id left ht.2, Prod.exists, Describes]

theorem target?_eq_some_present {t : Term} {env' : Environment}
    (h : target? env t.toTree = some env') : t.isAbsent = false := by
  cases t with
  | absent => cases h
  | dangling id => rfl
  | node id kind left right => rfl

/-- What follows an expression that has to be there. -/
theorem finishes_value_bind {β : Type} {t : Term} (ht : t.Whole) {f : List Instruction → Lowering β}
    {P : Scopes → Prop} {Q : Prop} (hf : ∀ code, Finishes (f code) s P ↔ Q) :
    (t.isAbsent = false ∧ Finishes (expression table t >>= f) s P) ↔
      isExpression (.ofScopes table s) t.toTree = true ∧ Q := by
  constructor
  · rintro ⟨hpresent, hfinishes⟩
    obtain ⟨hvalue, hQ⟩ := ((keeps_expression hpresent).finishes_bind hf).mp hfinishes
    exact ⟨(succeeds_expression ht (knows_ofScopes table s) hpresent).mp hvalue, hQ⟩
  · rintro ⟨hvalue, hQ⟩
    have hpresent := isAbsent_eq_false hvalue
    have hsucceeds := (succeeds_expression ht (knows_ofScopes table s) hpresent).mpr hvalue
    exact ⟨hpresent, ((keeps_expression hpresent).finishes_bind hf).mpr ⟨hsucceeds, hQ⟩⟩

theorem finishes_assignment {id : NodeId} {left right : Term} (hl : left.Whole) (hr : right.Whole)
    {env' : Environment} :
    Finishes (assignment table id left right) s (Describes table env') ↔
      statement? (.ofScopes table s) (.keyword .assign left.toTree right.toTree) = some env' := by
  simp only [assignment, finishes_lift_bind, Term.require_eq_ok, exists_const]
  rw [finishes_value_bind hr fun code => finishes_bind_pure.trans (finishes_target hl), statement?]
  constructor
  · rintro ⟨-, hvalue, htarget⟩
    rwa [if_pos hvalue]
  · intro h
    split_ifs at h with hvalue
    exact ⟨target?_eq_some_present h, hvalue, h⟩

theorem finishes_evaluated {id : NodeId} {right : Term} {what : String} {rest : List Instruction}
    (hr : right.Whole) {env' : Environment} :
    Finishes (evaluated table id right what rest) s (Describes table env') ↔
      unchanged (.ofScopes table s) (isExpression (.ofScopes table s) right.toTree) =
        some env' := by
  simp only [evaluated, finishes_lift_bind, Term.require_eq_ok, exists_const]
  rw [finishes_value_bind hr fun code => finishes_pure, unchanged_eq_some]
  rfl

theorem finishes_display {id : NodeId} {left right : Term} (hl : left.Whole) (hr : right.Whole)
    {env' : Environment} :
    Finishes (display table id left right) s (Describes table env') ↔
      statement? (.ofScopes table s) (.keyword .display left.toTree right.toTree) = some env' := by
  cases left with
  | absent => simp [display, Term.require, Term.isAbsent, Term.toTree, statement?]
  | dangling id => exact hl.elim
  | node shown kind l index =>
    cases kind with
    | number n => simp [display, Term.expectIdent, Term.ident?, Term.toTree, statement?]
    | keyword tag => simp [display, Term.expectIdent, Term.ident?, Term.toTree, statement?]
    | ident name =>
      simp only [display, Term.require_eq_ok, Term.expectIdent, Term.ident?, Term.toTree,
        statement?, finishes_lift_bind, Except.ok.injEq, exists_eq_left', exists_const,
        unchanged_eq_some, Bool.and_eq_true, Term.isAbsent, true_and]
      rw [and_assoc, ← succeeds_resolved_ofScopes hl.2]
      refine keeps_resolved.finishes_bind fun found => ?_
      simp only [finishes_lift_bind, Term.require_eq_ok, exists_const]
      exact finishes_value_bind hr fun code => finishes_pure

theorem finishes_call {id : NodeId} {callee args : Term} (hcallee : callee.Whole)
    (hargs : args.Whole) {env' : Environment} :
    Finishes (statement table (.node id (.keyword .call) callee args)) s (Describes table env') ↔
      statement? (.ofScopes table s) (.keyword .call callee.toTree args.toTree) = some env' := by
  simp only [statement, finishes_bind_pure, statement?, unchanged_eq_some]
  rw [keeps_call.finishes,
    succeeds_callWith hcallee (accepted_of_whole hargs).2 (knows_ofScopes table s)]
  rfl

/-- Lowering `t` as a statement ends in the scopes that the check describes. -/
def StatementAccepted (table : FunctionTable) (t : Term) : Prop :=
  ∀ s env', t.isAbsent = false → (Finishes (statement table t) s (Describes table env') ↔
    statement? (.ofScopes table s) t.toTree = some env')

/-- Lowering `t` as a chain of statements ends in the scopes that the check describes. -/
def BlockAccepted (table : FunctionTable) (t : Term) : Prop :=
  ∀ s env', (t.IsChain .stmt ∧ Finishes (statements table t) s (Describes table env') ↔
    block? (.ofScopes table s) t.toTree = some env')

/-- What follows a step that ends where a check says. `C` is what the check asks for besides. -/
theorem finishes_bind_described {α β : Type} {C : Prop} {x : Lowering α} {f : α → Lowering β}
    {check : Option Environment} {P : Scopes → Prop} {Q : Environment → Prop}
    (hx : ∀ env', C ∧ Finishes x s (Describes table env') ↔ check = some env')
    (hf : ∀ a s', Finishes (f a) s' P ↔ Q (.ofScopes table s')) :
    C ∧ Finishes (x >>= f) s P ↔ ∃ env', check = some env' ∧ Q env' := by
  rw [Lowering.finishes_bind]
  constructor
  · rintro ⟨hC, a, s', hrun, hrest⟩
    exact ⟨_, (hx _).mp ⟨hC, a, s', hrun, rfl⟩, (hf a s').mp hrest⟩
  · rintro ⟨env', hcheck, hQ⟩
    obtain ⟨hC, a, s', hrun, rfl⟩ := (hx env').mpr hcheck
    exact ⟨hC, a, s', hrun, (hf a s').mpr hQ⟩

theorem exists_elements {tag : Keyword} {t : Term} {Q : Prop} :
    (∃ ts, t.elements tag = .ok ts ∧ Q) ↔ t.IsChain tag ∧ Q := by
  simp [Term.elements_eq_ok, and_assoc]

theorem statement?_eq_some_present {t : Term} {env' : Environment}
    (h : statement? env t.toTree = some env') : t.isAbsent = false := by
  cases t with
  | absent => simp [Term.toTree, statement?] at h
  | dangling id => rfl
  | node id kind left right => rfl

theorem blockAccepted_link {id : NodeId} {kind : Kind} {before last : Term}
    (hbefore : BlockAccepted table before) (hlast : StatementAccepted table last) :
    BlockAccepted table (.node id kind before last) := by
  intro s env'
  by_cases hstmt : kind = .keyword .stmt
  swap
  · -- another node is no link of a chain
    have hnone : block? (.ofScopes table s) (Term.node id kind before last).toTree = none := by
      cases kind with
      | number n => rfl
      | ident name => rfl
      | keyword tag =>
        rw [Term.toTree, block?]
        · simp
        · simpa using hstmt
    have hchain : ¬ (Term.node id kind before last).IsChain .stmt := by
      rintro ⟨⟩
      exact hstmt rfl
    simp [hnone, hchain]
  subst hstmt
  rw [Term.toTree, block?, Option.bind_eq_some_iff]
  constructor
  · rintro ⟨_ | ⟨hchain, hpresent⟩, hfinishes⟩
    simp only [statements, Lowering.finishes_bind, finishes_pure] at hfinishes
    obtain ⟨code, s₁, hcode, lastCode, s₂, hlastCode, hdescribes⟩ := hfinishes
    exact ⟨_, (hbefore s _).mp ⟨hchain, code, s₁, hcode, rfl⟩,
      (hlast s₁ env' hpresent).mp ⟨lastCode, s₂, hlastCode, hdescribes⟩⟩
  · rintro ⟨env₁, hblock, hstatement⟩
    obtain ⟨hchain, code, s₁, hcode, rfl⟩ := (hbefore s env₁).mpr hblock
    have hpresent := statement?_eq_some_present hstatement
    obtain ⟨lastCode, s₂, hlastCode, hdescribes⟩ := (hlast s₁ env' hpresent).mpr hstatement
    refine ⟨.link hchain hpresent, ?_⟩
    simp only [statements, Lowering.finishes_bind, finishes_pure]
    exact ⟨code, s₁, hcode, lastCode, s₂, hlastCode, hdescribes⟩

theorem finishes_conditional {id d : NodeId} {condition thenPart elsePart : Term}
    (hcondition : condition.Whole) (hwhole : thenPart.Whole) (hthen : BlockAccepted table thenPart)
    (helse : BlockAccepted table elsePart) {env' : Environment} :
    Finishes (statement table (.node id (.keyword .ifThen) condition
        (.node d (.keyword .decision) thenPart elsePart))) s (Describes table env') ↔
      statement? (.ofScopes table s) (.keyword .ifThen condition.toTree
        (.keyword .decision thenPart.toTree elsePart.toTree)) = some env' := by
  have hbranches : ∀ value : List Instruction, Finishes (do
      let _ ← thenPart.elements .stmt
      let thenCode ← statements table thenPart
      if elsePart.isAbsent then return conditional id value thenCode none
      else
        let _ ← elsePart.elements .stmt
        let elseCode ← statements table elsePart
        return conditional id value thenCode (some elseCode)) s (Describes table env') ↔
      ((block? (.ofScopes table s) thenPart.toTree).bind (block? · elsePart.toTree)) =
        some env' := by
    intro value
    rw [finishes_lift_bind, exists_elements, Option.bind_eq_some_iff]
    refine finishes_bind_described (hthen s) fun thenCode s' => ?_
    rw [finishes_ite, ← helse s' env']
    split_ifs with habsent
    · have hnothing := eq_absent_of_isAbsent habsent
      subst hnothing
      simp [statements, Term.IsChain.absent]
    · rw [finishes_lift_bind, exists_elements, finishes_bind_pure]
  have hdecision : (Term.node d (.keyword .decision) thenPart elsePart).isAbsent = false := rfl
  simp only [statement, finishes_lift_bind, Term.require_eq_ok, exists_const, hdecision, true_and,
    statement?, hwhole.isAbsent_toTree]
  rw [and_left_comm, finishes_value_bind hcondition hbranches]
  cases thenPart.isAbsent <;> simp [Option.ite_none_right_eq_some]

theorem finishes_loop {id : NodeId} {condition body : Term} (hcondition : condition.Whole)
    (hwhole : body.Whole) (hbody : BlockAccepted table body) {env' : Environment} :
    Finishes (statement table (.node id (.keyword .whileLoop) condition body)) s
        (Describes table env') ↔
      statement? (.ofScopes table s) (.keyword .whileLoop condition.toTree body.toTree) =
        some env' := by
  have hrest : ∀ value : List Instruction, Finishes (do
      let _ ← body.elements .stmt
      let code ← statements table body
      return loop id value code) s (Describes table env') ↔
      block? (.ofScopes table s) body.toTree = some env' := by
    intro value
    rw [finishes_lift_bind, exists_elements, finishes_bind_pure, ← hbody s env']
  simp only [statement, finishes_lift_bind, Term.require_eq_ok, exists_const, statement?,
    hwhole.isAbsent_toTree]
  rw [and_left_comm, finishes_value_bind hcondition hrest]
  cases body.isAbsent <;> simp [Option.ite_none_right_eq_some]

/-- A conditional whose right child is no pair of branches. -/
theorem finishes_conditional_other {id : NodeId} {condition decision : Term}
    (hdecision : decision.Whole)
    (hother : decision.keyword? ≠ some .decision) {env' : Environment} :
    Finishes (statement table (.node id (.keyword .ifThen) condition decision)) s
        (Describes table env') ↔
      statement? (.ofScopes table s) (.keyword .ifThen condition.toTree decision.toTree) =
        some env' := by
  cases decision with
  | absent => simp [statement, Term.toTree, statement?, Term.require, Term.isAbsent]
  | dangling d => exact hdecision.elim
  | node d kind left right =>
    cases kind with
    | number n => simp [statement, Term.toTree, statement?]
    | ident name => simp [statement, Term.toTree, statement?]
    | keyword tag =>
      have htag : tag ≠ .decision := by
        rintro rfl
        exact hother rfl
      rw [statement, Term.toTree, statement?]
      · simp
      all_goals simp [htag]

/-- A statement without statements in it. -/
theorem accepted_simple {id : NodeId} {kind : Kind} {left right : Term} (hl : left.Whole)
    (hr : right.Whole) (hif : kind ≠ .keyword .ifThen) (hwhile : kind ≠ .keyword .whileLoop) :
    StatementAccepted table (.node id kind left right) := by
  intro s env' _
  cases kind with
  | number n => simp [statement, Term.toTree, statement?]
  | ident name => simp [statement, Term.toTree, statement?]
  | keyword tag =>
    rw [Term.toTree]
    cases tag with
    | assign => simpa only [statement] using finishes_assignment hl hr
    | ifThen => exact absurd rfl hif
    | whileLoop => exact absurd rfl hwhile
    | ret => simpa only [statement, statement?] using finishes_evaluated hr
    | display => simpa only [statement] using finishes_display hl hr
    | out => simpa only [statement, statement?] using finishes_evaluated hr
    | call => exact finishes_call hl hr
    | _ => simp [statement, statement?]

theorem accepted_statement (t : Term) :
    (t.Whole → StatementAccepted table t) ∧ (t.Whole → BlockAccepted table t) := by
  apply Term.statement_induction (t := t)
  case absent =>
    refine ⟨fun _ s env' habsent => ?_, fun _ s env' => ?_⟩
    · cases habsent
    · simp [statements, Term.toTree, block?, Term.IsChain.absent, Describes]
  case dangling => exact fun id => ⟨False.elim, False.elim⟩
  case conditional =>
    intro id condition d thenPart elsePart hthen helse ht s env' _
    exact finishes_conditional ht.1 ht.2.1 (hthen ht.2.1) (helse ht.2.2)
  case undecided =>
    intro id condition right hother ht s env' _
    exact finishes_conditional_other ht.2 hother
  case loop =>
    intro id condition body hbody ht s env' _
    exact finishes_loop ht.1 ht.2 (hbody ht.2)
  case simple =>
    intro id kind left right hif hwhile ht
    exact accepted_simple ht.1 ht.2 hif hwhile
  case chain =>
    intro id kind before last hbefore hlast ht
    exact blockAccepted_link (hbefore ht.1) (hlast ht.2)

theorem finishes_block {t : Term} (ht : t.Whole) {env' : Environment} :
    Finishes (block table t) s (Describes table env') ↔
      block? (.ofScopes table s) t.toTree = some env' := by
  rw [block, finishes_lift_bind, exists_elements]
  exact (accepted_statement t).2 ht s env'

end Static

end StackCompiler
