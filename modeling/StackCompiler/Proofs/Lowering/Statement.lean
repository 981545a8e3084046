import StackCompiler.Lowering.Statement
import StackCompiler.Proofs.Lowering.Expression

/-!
# What lowering a statement gives

`Compiles` describes, form by form, the code of a statement or of a chain of statements, with the
scopes before and after it. Only an assignment to a new name changes the scopes.
-/
namespace StackCompiler.Lowering

open Instruction

/-- The address of an assignment's target, the load of its element shift, and the scopes after it.
-/
inductive Targets (table : FunctionTable) (s : Scopes) :
    Term → Address → List Instruction → Scopes → Prop
  | declared {id : NodeId} {name : String} {left index : Term} {frame : Frame} {v : Variable}
      {load : List Instruction} :
      s.find? name = some (frame, v) → v.isArray = (!index.isAbsent) →
      Lowers table .shift s index load →
      Targets table s (.node id (.ident name) left index) (frame.address v) load s
  | fresh {id : NodeId} {name : String} {left index : Term} {v : Variable} {frame : Frame} :
      s.find? name = none →
      s.current.declare (.node id (.ident name) left index) = .ok (v, frame) →
      Targets table s (.node id (.ident name) left index) (frame.address v)
        [.push (.number (.ofNat 0)), .pop (some (.register .hx))] (s.setCurrent frame)

/-- A single statement or a chain of them. -/
inductive Form where
  | statement
  | chain

/-- The code of a term that is a statement or a chain, from the scopes before it to those after. -/
inductive Compiles (table : FunctionTable) : Form → Scopes → Term → Code → Scopes → Prop
  | assign {s s' : Scopes} {id : NodeId} {left right : Term} {value load : List Instruction}
      {address : Address} :
      Lowers table .value s right value → Targets table s left address load s' →
      Compiles table .statement s (.node id (.keyword .assign) left right)
        (.ofInstructions (value ++ load ++ [.pop (some (.memory address))])) s'
  | ifThen {s s' : Scopes} {id d : NodeId} {condition thenPart : Term} {test : List Instruction}
      {thenCode : Code} :
      Lowers table .value s condition test → thenPart.isAbsent = false →
      Compiles table .chain s thenPart thenCode s' →
      Compiles table .statement s
        (.node id (.keyword .ifThen) condition (.node d (.keyword .decision) thenPart .absent))
        (conditional id test thenCode none) s'
  | ifElse {s s' s'' : Scopes} {id d : NodeId} {condition thenPart elsePart : Term}
      {test : List Instruction} {thenCode elseCode : Code} :
      Lowers table .value s condition test → thenPart.isAbsent = false → elsePart.isAbsent = false →
      Compiles table .chain s thenPart thenCode s' →
      Compiles table .chain s' elsePart elseCode s'' →
      Compiles table .statement s
        (.node id (.keyword .ifThen) condition (.node d (.keyword .decision) thenPart elsePart))
        (conditional id test thenCode (some elseCode)) s''
  | whileLoop {s s' : Scopes} {id : NodeId} {condition body : Term} {test : List Instruction}
      {bodyCode : Code} :
      Lowers table .value s condition test → body.isAbsent = false →
      Compiles table .chain s body bodyCode s' →
      Compiles table .statement s (.node id (.keyword .whileLoop) condition body)
        (loop id test bodyCode) s'
  | ret {s : Scopes} {id : NodeId} {left right : Term} {value : List Instruction} :
      Lowers table .value s right value →
      Compiles table .statement s (.node id (.keyword .ret) left right)
        (.ofInstructions (value ++ [.pop (some (.register .ax)), .plain .ret])) s
  | display {s : Scopes} {id shown : NodeId} {name : String} {left index right : Term}
      {frame : Frame} {v : Variable} {load value : List Instruction} :
      s.find? name = some (frame, v) → v.isArray = (!index.isAbsent) →
      Lowers table .shift s index load → Lowers table .value s right value →
      Compiles table .statement s
        (.node id (.keyword .display) (.node shown (.ident name) left index) right)
        (.ofInstructions (load ++ [.push (.address (frame.address v))] ++ value ++ [.plain .shw])) s
  | out {s : Scopes} {id : NodeId} {left right : Term} {value : List Instruction} :
      Lowers table .value s right value →
      Compiles table .statement s (.node id (.keyword .out) left right)
        (.ofInstructions (value ++ [.plain .out])) s
  | call {s : Scopes} {id : NodeId} {callee args : Term} {value : List Instruction} :
      Lowers table .value s (.node id (.keyword .call) callee args) value →
      Compiles table .statement s (.node id (.keyword .call) callee args)
        (.ofInstructions (value ++ [.pop none])) s
  | nil {s : Scopes} : Compiles table .chain s .absent [] s
  | cons {s s' s'' : Scopes} {id : NodeId} {before last : Term} {code lastCode : Code} :
      Compiles table .chain s before code s' → Compiles table .statement s' last lastCode s'' →
      Compiles table .chain s (.node id (.keyword .stmt) before last) (code ++ lastCode) s''

theorem expectIdent_eq_ok {t : Term} {name : String} :
    t.expectIdent = .ok name ↔ ∃ id left right, t = .node id (.ident name) left right := by
  cases t with
  | absent => simp [Term.expectIdent, Term.ident?]
  | dangling id => simp [Term.expectIdent, Term.ident?]
  | node id kind left right => cases kind <;> simp [Term.expectIdent, Term.ident?]

theorem targets_of_runs {table : FunctionTable} {t : Term} {s s' : Scopes} {address : Address}
    {load : List Instruction} (h : Runs (target table t) s (address, load) s') :
    Targets table s t address load s' := by
  unfold target at h
  simp only [runs_bind, runs_lift, runs_scopes, expectIdent_eq_ok] at h
  obtain ⟨name, _, ⟨⟨id, left, index, rfl⟩, rfl⟩, _, _, ⟨rfl, rfl⟩, h⟩ := h
  rw [runs_ite] at h
  split_ifs at h with hfound
  · obtain ⟨rfl, frame, v, hfind, harray, rfl, hload⟩ := lowers_of_runs_resolved h
    exact .declared hfind harray hload
  · simp only [runs_bind, runs_lift, runs_current, runs_setCurrent, runs_pure] at h
    obtain ⟨_, _, ⟨rfl, rfl⟩, ⟨v, frame⟩, _, ⟨hdeclare, rfl⟩, _, _, rfl, hpair, rfl⟩ := h
    obtain ⟨rfl, rfl⟩ := Prod.mk.inj hpair
    exact .fresh (by simpa using hfound) hdeclare

theorem compiles_assignment {table : FunctionTable} {id : NodeId} {left right : Term}
    {s s' : Scopes} {code : Code} (h : Runs (assignment table id left right) s code s') :
    Compiles table .statement s (.node id (.keyword .assign) left right) code s' := by
  unfold assignment at h
  simp only [runs_bind, runs_lift, runs_pure, Term.require_eq_ok] at h
  obtain ⟨_, _, ⟨-, rfl⟩, _, _, ⟨hright, rfl⟩, value, _, hvalue, ⟨address, load⟩, _, htarget, rfl,
    rfl⟩ := h
  obtain ⟨rfl, hlowers⟩ := lowers_of_runs_expression hvalue hright
  exact .assign hlowers (targets_of_runs htarget)

theorem compiles_display {table : FunctionTable} {id : NodeId} {left right : Term}
    {s s' : Scopes} {code : Code} (h : Runs (display table id left right) s code s') :
    Compiles table .statement s (.node id (.keyword .display) left right) code s' := by
  unfold display at h
  simp only [runs_bind, runs_lift, runs_pure, Term.require_eq_ok, expectIdent_eq_ok] at h
  obtain ⟨_, _, ⟨-, rfl⟩, name, _, ⟨⟨shown, l, index, rfl⟩, rfl⟩, ⟨address, load⟩, _, hresolved,
    _, _, ⟨hright, rfl⟩, value, _, hvalue, rfl, rfl⟩ := h
  obtain ⟨rfl, frame, v, hfind, harray, rfl, hload⟩ := lowers_of_runs_resolved hresolved
  obtain ⟨rfl, hlowers⟩ := lowers_of_runs_expression hvalue hright
  exact .display hfind harray hload hlowers

theorem lowers_of_runs_evaluated {table : FunctionTable} {id : NodeId} {right : Term}
    {what : String} {rest : List Instruction} {s s' : Scopes} {code : Code}
    (h : Runs (evaluated table id right what rest) s code s') :
    s' = s ∧ ∃ value, Lowers table .value s right value ∧
      code = .ofInstructions (value ++ rest) := by
  unfold evaluated at h
  simp only [runs_bind, runs_lift, runs_pure, Term.require_eq_ok] at h
  obtain ⟨_, _, ⟨hright, rfl⟩, value, _, hvalue, rfl, rfl⟩ := h
  obtain ⟨rfl, hlowers⟩ := lowers_of_runs_expression hvalue hright
  exact ⟨rfl, value, hlowers, rfl⟩

theorem eq_absent_of_isAbsent {t : Term} (h : t.isAbsent = true) : t = .absent := by
  cases t <;> simp_all [Term.isAbsent]

/-- The code of `t` as a statement is one that `Compiles` describes. -/
def StatementCompiles (table : FunctionTable) (t : Term) : Prop :=
  t.isAbsent = false → ∀ s code s', Runs (statement table t) s code s' →
    Compiles table .statement s t code s'

/-- So is the code of `t` as a chain. -/
def ChainCompiles (table : FunctionTable) (t : Term) : Prop :=
  t.IsChain .stmt → ∀ s code s', Runs (statements table t) s code s' →
    Compiles table .chain s t code s'

theorem compiles_conditional {table : FunctionTable} {id d : NodeId}
    {condition thenPart elsePart : Term} (hthen : ChainCompiles table thenPart)
    (helse : ChainCompiles table elsePart) :
    StatementCompiles table
      (.node id (.keyword .ifThen) condition (.node d (.keyword .decision) thenPart elsePart)) := by
  intro _ s code s' h
  simp only [statement, runs_bind, runs_lift, runs_ite, runs_pure, Term.require_eq_ok,
    Term.elements_eq_ok] at h
  obtain ⟨_, _, ⟨hcondition, rfl⟩, _, _, ⟨-, rfl⟩, _, _, ⟨hpresent, rfl⟩, test, _, htest, _, _,
    ⟨⟨hchain, -⟩, rfl⟩, thenCode, s₁, hthenRun, h⟩ := h
  obtain ⟨rfl, hlowers⟩ := lowers_of_runs_expression htest hcondition
  have hthenCode := hthen hchain _ _ _ hthenRun
  split_ifs at h with habsent
  · obtain ⟨rfl, rfl⟩ := h
    obtain rfl := eq_absent_of_isAbsent habsent
    exact .ifThen hlowers hpresent hthenCode
  · obtain ⟨_, _, ⟨⟨hchain', -⟩, rfl⟩, elseCode, _, helseRun, rfl, rfl⟩ := h
    exact .ifElse hlowers hpresent (by simpa using habsent) hthenCode (helse hchain' _ _ _ helseRun)

theorem compiles_loop {table : FunctionTable} {id : NodeId} {condition body : Term}
    (hbody : ChainCompiles table body) :
    StatementCompiles table (.node id (.keyword .whileLoop) condition body) := by
  intro _ s code s' h
  simp only [statement, runs_bind, runs_lift, runs_pure, Term.require_eq_ok,
    Term.elements_eq_ok] at h
  obtain ⟨_, _, ⟨hcondition, rfl⟩, _, _, ⟨hpresent, rfl⟩, test, _, htest, _, _, ⟨⟨hchain, -⟩, rfl⟩,
    bodyCode, _, hrun, rfl, rfl⟩ := h
  obtain ⟨rfl, hlowers⟩ := lowers_of_runs_expression htest hcondition
  exact .whileLoop hlowers hpresent (hbody hchain _ _ _ hrun)

theorem compiles_of_runs (table : FunctionTable) (t : Term) :
    StatementCompiles table t ∧ ChainCompiles table t := by
  apply Term.statement_induction (t := t)
  case absent =>
    constructor
    · rintro ⟨⟩
    · intro _ s code s' h
      simp only [statements, runs_pure] at h
      obtain ⟨rfl, rfl⟩ := h
      exact .nil
  case dangling =>
    intro id
    constructor
    · intro _ s code s' h
      simp [statement] at h
    · rintro ⟨⟩
  case conditional =>
    intro id condition d thenPart elsePart hthen helse
    exact compiles_conditional hthen helse
  case undecided =>
    intro id condition right hright _ s code s' h
    simp [statement_conditional_other hright] at h
  case loop =>
    intro id condition body hbody
    exact compiles_loop hbody
  case simple =>
    intro id kind left right hif hwhile _ s code s' h
    cases kind with
    | number n => simp [statement] at h
    | ident name => simp [statement] at h
    | keyword tag =>
      cases tag with
      | assign => exact compiles_assignment (by simpa only [statement] using h)
      | ifThen => exact absurd rfl hif
      | whileLoop => exact absurd rfl hwhile
      | ret =>
        simp only [statement] at h
        obtain ⟨rfl, value, hlowers, rfl⟩ := lowers_of_runs_evaluated h
        exact .ret hlowers
      | display => exact compiles_display (by simpa only [statement] using h)
      | out =>
        simp only [statement] at h
        obtain ⟨rfl, value, hlowers, rfl⟩ := lowers_of_runs_evaluated h
        exact .out hlowers
      | call =>
        simp only [statement, runs_bind, runs_pure] at h
        obtain ⟨value, _, hcall, rfl, rfl⟩ := h
        obtain ⟨rfl, hlowers⟩ := lowers_of_runs_call hcall
        exact .call hlowers
      | _ => simp [statement] at h
  case chain =>
    intro id kind before last hbefore hlast hchain s code s' h
    obtain _ | ⟨hlinks, hpresent⟩ := hchain
    simp only [statements, runs_bind, runs_pure] at h
    obtain ⟨code, s₁, hcode, lastCode, _, hlastCode, rfl, rfl⟩ := h
    exact .cons (hbefore hlinks _ _ _ hcode) (hlast hpresent _ _ _ hlastCode)

theorem compiles_of_runs_block {table : FunctionTable} {t : Term} {s s' : Scopes} {code : Code}
    (h : Runs (block table t) s code s') : Compiles table .chain s t code s' := by
  unfold block at h
  simp only [runs_bind, runs_lift, Term.elements_eq_ok] at h
  obtain ⟨_, _, ⟨⟨hchain, -⟩, rfl⟩, h⟩ := h
  exact (compiles_of_runs table t).2 hchain _ _ _ h

end StackCompiler.Lowering
