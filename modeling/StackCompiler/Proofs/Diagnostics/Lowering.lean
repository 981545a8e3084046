import StackCompiler.Proofs.Diagnostics.Blame

/-!
# Errors of statements and functions

Every error of lowering is thrown for a node at a place that explains it. The lemmas follow the
functions of lowering, and one induction over terms puts them together. Where an error depends on
what was declared before, the frame and the function table are described by the parameters and
definitions they come from.
-/
namespace StackCompiler

/-- The table holds the functions that are defined at the top level. -/
structure Arena.Lists (a : Arena) (table : FunctionTable) : Prop where
  signature : ∀ f ∈ table, ∃ sig ∈ a.signatures, sig.name = f.name ∧ sig.params.IsChain .param ∧
    sig.params.links = f.params
  complete : ∀ sig ∈ a.signatures, ∃ f ∈ table, f.name = sig.name

namespace Lowering

open Arena

variable {a : Arena} {place : Place} {id : NodeId} {table : FunctionTable} {s : Scopes} {t : Term}

theorem name_of_find? {name : String} {frame : Frame} {v : Variable}
    (h : s.find? name = some (frame, v)) : v.name = name := by
  have hname : ∀ {f : Frame} {w : Variable}, f.find? name = some w → w.name = name := by
    intro f w hw
    simpa using List.find?_some hw
  unfold Scopes.find? at h
  cases hglobal : s.globals.find? name with
  | some w =>
    simp only [hglobal, Option.some.injEq, Prod.mk.injEq] at h
    exact h.2 ▸ hname hglobal
  | none =>
    cases hlocals : s.locals with
    | none => simp [hglobal, hlocals] at h
    | some f =>
      simp only [hglobal, hlocals, Option.map_eq_some_iff, Prod.mk.injEq] at h
      obtain ⟨w, hw, -, rfl⟩ := h
      exact hname hw

theorem blames_loadShift {J : CompileError → Prop} {index : Term}
    {code : Lowering (List Instruction)}
    (hcode : Blames J code s) : Blames J (loadShift index code) s := by
  unfold loadShift
  cases index.isAbsent with
  | true => simp
  | false => simpa using hcode

theorem blames_resolved {name : String} {index left : Term} {code : Lowering (List Instruction)}
    (h : a.At place (.node id (.ident name) left index)) (hcode : Blames a.Explains code s) :
    Blames a.Explains (resolved id name index code) s := by
  unfold resolved
  rw [blames_scopes_bind]
  cases hfind : s.find? name with
  | none => exact blames_throw.mpr (h.node.explains rfl h.isIdent)
  | some found =>
    obtain ⟨frame, v⟩ := found
    refine blames_lift_bind.mpr ⟨fun e he => ?_, fun address _ => ?_⟩
    · unfold Scopes.addressOf at he
      split_ifs at he
      cases he
      rw [name_of_find? hfind]
      exact h.node.explains rfl h.isIdent
    · exact blames_bind_pure.mpr (blames_loadShift hcode)

theorem blames_release (J : CompileError → Prop) (count : Nat) : Blames J (release count) s := by
  induction count generalizing s with
  | zero => simp [release]
  | succ count ih =>
    unfold release
    rw [blames_current_bind]
    cases s.current.release with
    | none => exact ih
    | some released => exact blames_setCurrent_bind.mpr ih

theorem explains_resolve (hT : a.Lists table) {callee args : Term}
    (h : a.At place (.node id (.keyword .call) callee args))
    (hplace : place.children (.keyword .call) = Place.statementChildren .call) {e : CompileError}
    (he : table.resolve id callee = .error e) : a.Explains e := by
  have hcallee : a.At .callee callee := h.left (by rw [hplace]; rfl)
  unfold FunctionTable.resolve at he
  rcases error_of_bind he with hrequire | ⟨_, hrequire, he⟩
  · exact h.explains_left (by rw [hplace]; rfl) hrequire
  rcases error_of_bind he with hident | ⟨name, hident, he⟩
  · exact hcallee.explains_expectIdent (Term.require_eq_ok.mp hrequire) rfl hident
  obtain ⟨calleeId, l, r, rfl⟩ := expectIdent_eq_ok.mp hident
  cases hget : table.get? name with
  | some f => simp [hget, pure, Except.pure] at he
  | none =>
    simp only [hget] at he
    cases he
    refine hcallee.node.explains rfl ⟨hcallee.node, hcallee.isIdent, fun sig hsig hname => ?_⟩
    obtain ⟨f, hf, hfname⟩ := hT.complete sig hsig
    have hnot := List.find?_eq_none.mp hget f hf
    simp [hfname, hname] at hnot

theorem blames_callWith (ha : a.Sound) (hT : a.Lists table) {callee args : Term}
    {staging : Lowering (List Instruction)} (h : a.At place (.node id (.keyword .call) callee args))
    (hplace : place.children (.keyword .call) = Place.statementChildren .call)
    (hstaging : args.IsChain .param → Blames a.Explains staging s) :
    Blames a.Explains (callWith table id callee args staging) s := by
  have hargs : a.At .arguments args := h.right (by rw [hplace]; rfl)
  unfold callWith
  refine blames_lift_bind.mpr ⟨fun e he => explains_resolve hT h hplace he, fun f hresolve => ?_⟩
  refine blames_lift_bind.mpr ⟨fun e he => hargs.explains_elements rfl he, fun ts helements => ?_⟩
  obtain ⟨hchain, rfl⟩ := Term.elements_eq_ok.mp helements
  rw [blames_ite]
  split_ifs with hcount
  · rw [blames_throw_bind]
    refine h.node.explains rfl ⟨⟨callee, args, ?_, ?_, hchain, rfl⟩, ?_, hcount.symm⟩
    · exact h.holds.termOf_id? ha
    · obtain ⟨_, name, _, _, rfl, hget⟩ := FunctionTable.resolve_eq_ok.mp hresolve
      rw [(FunctionTable.get?_eq_some hget).2]
      rfl
    · obtain ⟨sig, hsig, hname, hparams, hlinks⟩ :=
        hT.signature f (FunctionTable.mem_of_resolve hresolve)
      exact ⟨sig, hsig, hname, hparams, congrArg List.length hlinks⟩
  · refine blames_bind.mpr ⟨hstaging hchain, fun staged s' _ => ?_⟩
    refine blames_bind.mpr ⟨blames_release _ _, fun _ s'' _ => ?_⟩
    simp only [blames_current_bind, blames_emit_bind, blames_pure]

theorem children_of_meaning {tag : Keyword} {operator : Operator} (hcall : tag ≠ .call)
    (h : tag.meaning? = some operator) :
    Place.children .expression (.keyword tag) =
      match operator with
      | .binary _ => (.required .expression "left operand", .required .expression "right operand")
      | .unary _ => (.ignored, .required .expression "operand")
      | .input => (.ignored, .optional .expression) := by
  simp only [Place.children, Place.chain?, Place.operandChildren, if_neg hcall, h]
  cases operator <;> rfl

theorem blames_expression (ha : a.Sound) (hT : a.Lists table) (t : Term) :
    (a.At .expression t → ∀ s, Blames a.Explains (expression table t) s) ∧
      (a.At .arguments t → t.IsChain .param → ∀ s, Blames a.Explains (arguments table t) s) := by
  induction t with
  | absent =>
    refine ⟨fun _ s => ?_, fun _ _ s => ?_⟩
    · simp [expression]
    · simp [arguments]
  | dangling id => exact ⟨fun h => h.holds.elim, fun h => h.holds.elim⟩
  | node id kind l r ihl ihr =>
    constructor
    · intro h s
      cases kind with
      | number n => simp [expression]
      | ident name =>
        simp only [expression, blames_bind_pure]
        exact blames_resolved h (ihr.1 (h.right rfl) s)
      | keyword tag =>
        by_cases hcall : tag = .call
        · subst hcall
          simp only [expression, if_true]
          exact blames_callWith ha hT h rfl fun hchain => ihr.2 (h.right rfl) hchain s
        simp only [expression, hcall, if_false, Keyword.arity?_eq, Keyword.operation?_eq]
        cases hmeaning : tag.meaning? with
        | none =>
          refine blames_throw.mpr (h.explains_unexpected ?_ rfl)
          simp [Place.admits, Place.chain?, hcall, hmeaning]
        | some operator =>
          have hchildren := children_of_meaning hcall hmeaning
          cases operator with
          | binary operation =>
            have hl := ihl.1 (h.left (by rw [hchildren]; rfl))
            have hr := ihr.1 (h.right (by rw [hchildren]; rfl))
            refine blames_lift_bind.mpr
              ⟨fun e => h.explains_left (by rw [hchildren]; rfl), fun _ _ => ?_⟩
            refine blames_bind.mpr ⟨hl s, fun _ s' _ => ?_⟩
            refine blames_lift_bind.mpr
              ⟨fun e => h.explains_right (by rw [hchildren]; rfl), fun _ _ => ?_⟩
            exact blames_bind_pure.mpr (hr s')
          | unary operation =>
            have hr := ihr.1 (h.right (by rw [hchildren]; rfl))
            refine blames_lift_bind.mpr
              ⟨fun e => h.explains_right (by rw [hchildren]; rfl), fun _ _ => ?_⟩
            exact blames_bind_pure.mpr (hr s)
          | input =>
            exact blames_bind_pure.mpr (ihr.1 (h.right (by rw [hchildren]; rfl)) s)
    · rintro h (_ | ⟨hchain, hpresent⟩) s
      simp only [arguments]
      refine blames_bind.mpr ⟨ihl.2 (h.left rfl) hchain s, fun _ s' _ => ?_⟩
      refine blames_bind.mpr ⟨ihr.1 (h.right rfl) s', fun _ s'' _ => ?_⟩
      simp [stage]

theorem current_find?_eq_none {name : String} (h : s.find? name = none) :
    s.current.find? name = none := by
  obtain ⟨globals, locals⟩ := s
  unfold Scopes.find? at h
  cases hglobal : globals.find? name with
  | some v => simp [hglobal] at h
  | none =>
    cases locals with
    | none => exact hglobal
    | some f => simpa [hglobal, Scopes.current] using h

theorem declare_eq_error {f : Frame} {name : String} {l index : Term} {e : CompileError}
    (h : f.declare (.node id (.ident name) l index) = .error e) :
    (f.find? name).isSome = true ∧ e = .duplicateVariable id name ∨
      e = .invalidDeclaration id name := by
  simp only [Frame.declare, Term.expectIdent, Term.ident?, Term.right] at h
  rcases error_of_bind h with hident | ⟨_, hident, h⟩
  · cases hident
  cases hident
  split_ifs at h with hfound
  · cases h
    exact .inl ⟨hfound, rfl⟩
  cases hlength : Frame.lengthOf? index with
  | none =>
    simp only [hlength] at h
    cases h
    exact .inr rfl
  | some length =>
    simp only [hlength] at h
    split_ifs at h
    · cases h
      exact .inr rfl
    · cases h

/-- A target fails as a variable does, or because it cannot be declared. It is looked up before it
is declared, so it is never declared twice. -/
theorem blames_target (ha : a.Sound) (hT : a.Lists table) (h : a.At .target t)
    (hpresent : t.isAbsent = false) : Blames a.Explains (target table t) s := by
  unfold target
  refine blames_lift_bind.mpr ⟨fun e => h.explains_expectIdent hpresent rfl, fun name hname => ?_⟩
  obtain ⟨id, l, index, rfl⟩ := expectIdent_eq_ok.mp hname
  rw [blames_scopes_bind, blames_ite]
  split_ifs with hfound
  · exact blames_resolved h ((blames_expression ha hT index).1 (h.right rfl) s)
  · rw [blames_current_bind]
    refine blames_lift_bind.mpr ⟨fun e he => ?_, fun p _ => ?_⟩
    · rcases declare_eq_error he with ⟨hdeclared, -⟩ | rfl
      · rw [current_find?_eq_none (by simpa using hfound)] at hdeclared
        cases hdeclared
      · exact h.node.explains rfl h.isIdent
    · simp

theorem blames_assignment (ha : a.Sound) (hT : a.Lists table) {l r : Term}
    (h : a.At place (.node id (.keyword .assign) l r))
    (hplace : place.children (.keyword .assign) = Place.statementChildren .assign) :
    Blames a.Explains (assignment table id l r) s := by
  have hl : a.At .target l := h.left (by rw [hplace]; rfl)
  have hr : a.At .expression r := h.right (by rw [hplace]; rfl)
  unfold assignment
  refine blames_lift_bind.mpr ⟨fun e => h.explains_left (by rw [hplace]; rfl), fun _ hpresent => ?_⟩
  refine blames_lift_bind.mpr ⟨fun e => h.explains_right (by rw [hplace]; rfl), fun _ _ => ?_⟩
  refine blames_bind.mpr ⟨(blames_expression ha hT r).1 hr s, fun _ s' _ => ?_⟩
  refine blames_bind_pure.mpr ?_
  exact blames_target ha hT hl (Term.require_eq_ok.mp hpresent)

theorem blames_display (ha : a.Sound) (hT : a.Lists table) {l r : Term}
    (h : a.At .statement (.node id (.keyword .display) l r)) :
    Blames a.Explains (display table id l r) s := by
  have hl : a.At .target l := h.left rfl
  unfold display
  refine blames_lift_bind.mpr ⟨fun e => h.explains_left rfl, fun _ hpresent => ?_⟩
  refine blames_lift_bind.mpr
    ⟨fun e => hl.explains_expectIdent (Term.require_eq_ok.mp hpresent) rfl, fun name hname => ?_⟩
  obtain ⟨shown, l', index, rfl⟩ := expectIdent_eq_ok.mp hname
  have hindex := (blames_expression ha hT index).1 (hl.right rfl)
  refine blames_bind.mpr ⟨blames_resolved hl (hindex s), fun p s' _ => ?_⟩
  refine blames_lift_bind.mpr ⟨fun e => h.explains_right rfl, fun _ _ => ?_⟩
  exact blames_bind_pure.mpr ((blames_expression ha hT r).1 (h.right rfl) s')

theorem blames_evaluated (ha : a.Sound) (hT : a.Lists table) {tag : Keyword} {l r : Term}
    {what : String} {rest : List Instruction} (h : a.At .statement (.node id (.keyword tag) l r))
    (htag : Place.statementChildren tag = (.ignored, .required .expression what)) :
    Blames a.Explains (evaluated table id r what rest) s := by
  have hchildren : Place.children .statement (.keyword tag) =
      (.ignored, .required .expression what) := htag
  unfold evaluated
  refine blames_lift_bind.mpr ⟨fun e => h.explains_right (by rw [hchildren]; rfl), fun _ _ => ?_⟩
  exact blames_bind_pure.mpr ((blames_expression ha hT r).1 (h.right (by rw [hchildren]; rfl)) s)

/-- A chain of statements fails only with errors that are explained. -/
def ChainBlames (a : Arena) (table : FunctionTable) (t : Term) : Prop :=
  a.At .block t → t.IsChain .stmt → ∀ s, Blames a.Explains (statements table t) s

theorem ChainBlames.bind {β : Type} (hchain : ChainBlames a table t) (h : a.At .block t)
    {f : Code → Lowering β} (hf : ∀ code s', Blames a.Explains (f code) s') :
    Blames a.Explains (do let _ ← t.elements .stmt; let code ← statements table t; f code) s := by
  refine blames_lift_bind.mpr ⟨fun e => h.explains_elements rfl, fun ts helements => ?_⟩
  refine blames_bind.mpr ⟨hchain h (Term.elements_eq_ok.mp helements).1 s, fun code s' _ => ?_⟩
  exact hf code s'

theorem blames_conditional (ha : a.Sound) (hT : a.Lists table) {d : NodeId}
    {condition thenPart elsePart : Term}
    (h : a.At .statement
      (.node id (.keyword .ifThen) condition (.node d (.keyword .decision) thenPart elsePart)))
    (hthen : ChainBlames a table thenPart) (helse : ChainBlames a table elsePart) :
    Blames a.Explains (statement table
      (.node id (.keyword .ifThen) condition
        (.node d (.keyword .decision) thenPart elsePart))) s := by
  have hdecision : a.At .branches (.node d (.keyword .decision) thenPart elsePart) := h.right rfl
  simp only [statement]
  refine blames_lift_bind.mpr ⟨fun e => h.explains_left rfl, fun _ _ => ?_⟩
  refine blames_lift_bind.mpr ⟨fun e => h.explains_right rfl, fun _ _ => ?_⟩
  refine blames_lift_bind.mpr ⟨fun e => hdecision.explains_left rfl, fun _ _ => ?_⟩
  refine blames_bind.mpr ⟨(blames_expression ha hT condition).1 (h.left rfl) s, fun _ s₁ _ => ?_⟩
  refine hthen.bind (hdecision.left rfl) fun thenCode s₂ => ?_
  rw [blames_ite]
  split_ifs
  · exact blames_pure
  · exact helse.bind (hdecision.right rfl) fun elseCode s₃ => blames_pure

/-- The right child of a conditional is no pair of branches. -/
theorem blames_undecided {condition right : Term}
    (h : a.At .statement (.node id (.keyword .ifThen) condition right))
    (hother : right.keyword? ≠ some .decision) :
    Blames a.Explains (statement table (.node id (.keyword .ifThen) condition right)) s := by
  have hright : a.At .branches right := h.right rfl
  rw [statement_conditional_other hother]
  refine blames_lift_bind.mpr ⟨fun e => h.explains_left rfl, fun _ _ => ?_⟩
  refine blames_lift_bind.mpr ⟨fun e => h.explains_right rfl, fun _ hpresent => ?_⟩
  rw [blames_throw]
  cases right with
  | absent => cases hpresent
  | dangling d => exact hright.holds.elim
  | node d kind l r =>
    refine hright.explains_unexpected ?_ rfl
    cases kind with
    | number n => rfl
    | ident name => rfl
    | keyword tag =>
      cases tag with
      | decision => exact absurd rfl hother
      | _ => rfl

theorem blames_loop (ha : a.Sound) (hT : a.Lists table) {condition body : Term}
    (h : a.At .statement (.node id (.keyword .whileLoop) condition body))
    (hbody : ChainBlames a table body) :
    Blames a.Explains (statement table (.node id (.keyword .whileLoop) condition body)) s := by
  simp only [statement]
  refine blames_lift_bind.mpr ⟨fun e => h.explains_left rfl, fun _ _ => ?_⟩
  refine blames_lift_bind.mpr ⟨fun e => h.explains_right rfl, fun _ _ => ?_⟩
  refine blames_bind.mpr ⟨(blames_expression ha hT condition).1 (h.left rfl) s, fun _ s₁ _ => ?_⟩
  exact hbody.bind (h.right rfl) fun code s₂ => blames_pure

/-- A statement without statements in it. -/
theorem blames_simple (ha : a.Sound) (hT : a.Lists table) {kind : Kind} {l r : Term}
    (hif : kind ≠ .keyword .ifThen) (hwhile : kind ≠ .keyword .whileLoop)
    (h : a.At .statement (.node id kind l r)) :
    Blames a.Explains (statement table (.node id kind l r)) s := by
  cases kind with
  | number n =>
    simp only [statement, blames_throw]
    exact h.explains_unexpected rfl rfl
  | ident name =>
    simp only [statement, blames_throw]
    exact h.explains_unexpected rfl rfl
  | keyword tag =>
    cases tag with
    | assign =>
      simp only [statement]
      exact blames_assignment ha hT h rfl
    | ifThen => exact absurd rfl hif
    | whileLoop => exact absurd rfl hwhile
    | ret =>
      simp only [statement]
      exact blames_evaluated ha hT h rfl
    | display =>
      simp only [statement]
      exact blames_display ha hT h
    | out =>
      simp only [statement]
      exact blames_evaluated ha hT h rfl
    | call =>
      simp only [statement, blames_bind_pure]
      exact blames_callWith ha hT h rfl fun hchain =>
        (blames_expression ha hT r).2 (h.right rfl) hchain s
    | define =>
      simp only [statement, blames_throw]
      exact h.node.explains rfl ⟨h.node, h.node.inBody rfl, _, h.holds.1, rfl⟩
    | _ =>
      simp only [statement, blames_throw]
      exact h.explains_unexpected rfl rfl

theorem blames_statement (ha : a.Sound) (hT : a.Lists table) (t : Term) :
    (a.At .statement t → ∀ s, Blames a.Explains (statement table t) s) ∧ ChainBlames a table t := by
  apply Term.statement_induction (t := t)
  case absent =>
    refine ⟨fun _ s => ?_, fun _ _ s => ?_⟩
    · simp [statement]
    · simp [statements]
  case dangling => exact fun id => ⟨fun h => h.holds.elim, fun h => h.holds.elim⟩
  case conditional =>
    intro id condition d thenPart elsePart hthen helse h s
    exact blames_conditional ha hT h hthen helse
  case undecided =>
    intro id condition right hother h s
    exact blames_undecided h hother
  case loop =>
    intro id condition body hbody h s
    exact blames_loop ha hT h hbody
  case simple =>
    intro id kind l r hif hwhile h s
    exact blames_simple ha hT hif hwhile h
  case chain =>
    intro id kind before last hbefore hlast h hchain s
    obtain _ | ⟨hlinks, -⟩ := hchain
    simp only [statements]
    refine blames_bind.mpr ⟨hbefore (h.left rfl) hlinks s, fun _ s' _ => ?_⟩
    exact blames_bind_pure.mpr (hlast (h.right rfl) s')

theorem blames_block (ha : a.Sound) (hT : a.Lists table) (h : a.At .block t) :
    Blames a.Explains (block table t) s := by
  unfold block
  refine blames_lift_bind.mpr ⟨fun e => h.explains_elements rfl, fun ts helements => ?_⟩
  exact (blames_statement ha hT t).2 h (Term.elements_eq_ok.mp helements).1 s

/-- The names that a frame holds are those of the parameters before, and those of the globals. -/
theorem blames_parameters {sig : Signature} (hsig : sig ∈ a.signatures) {globals frame : Frame}
    {before ts : List Term} (hparams : sig.params.links = before ++ ts)
    (hat : ∀ t ∈ ts, a.At .parameter t ∧ t.isAbsent = false)
    (hglobals : ∀ v ∈ globals.declared, v.name ∈ a.globalNames)
    (hframe : ∀ v ∈ frame.declared, ∃ q ∈ before, q.ident? = some v.name) :
    Blames a.Explains (parameters ts) ⟨globals, some frame⟩ := by
  induction ts generalizing before frame with
  | nil => exact blames_pure
  | cons t rest ih =>
    obtain ⟨ht, hpresent⟩ := hat t List.mem_cons_self
    unfold parameters
    refine blames_lift_bind.mpr
      ⟨fun e => ht.explains_expectIdent hpresent rfl, fun name hname => ?_⟩
    obtain ⟨id, l, index, rfl⟩ := expectIdent_eq_ok.mp hname
    have hduplicate : ((∃ q ∈ before, q.ident? = some name) ∨ name ∈ a.globalNames) →
        a.Explains (.duplicateVariable id name) := fun hnamed =>
      ht.node.explains rfl ⟨sig, hsig, before, _, rest, hparams, rfl, rfl, hnamed⟩
    rw [blames_ite]
    split_ifs
    · rw [blames_throw_bind]
      exact ht.node.explains rfl ht.isIdent
    rw [blames_scopes_bind, blames_ite]
    split_ifs with hglobal
    · rw [blames_throw_bind]
      obtain ⟨v, hv⟩ := Option.isSome_iff_exists.mp hglobal
      obtain rfl : v.name = name := by simpa using List.find?_some hv
      exact hduplicate (.inr (hglobals v (List.mem_of_find?_eq_some hv)))
    rw [blames_current_bind]
    refine blames_lift_bind.mpr ⟨fun e he => ?_, fun p hp => ?_⟩
    · rcases declare_eq_error he with ⟨hdeclared, rfl⟩ | rfl
      · obtain ⟨v, hv⟩ := Option.isSome_iff_exists.mp hdeclared
        obtain rfl : v.name = name := by simpa using List.find?_some hv
        exact hduplicate (.inl (hframe v (List.mem_of_find?_eq_some hv)))
      · exact ht.node.explains rfl ht.isIdent
    · rw [blames_setCurrent_bind]
      obtain ⟨v, frame'⟩ := p
      obtain ⟨_, _, _, _, length, hterm, -, -, rfl, -, rfl⟩ := Frame.declare_eq_ok.mp hp
      cases hterm
      have hsplit : sig.params.links = (before ++ [.node id (.ident name) l index]) ++ rest := by
        simpa using hparams
      refine ih hsplit (fun t ht => hat t (List.mem_cons_of_mem _ ht)) ?_
      intro w hw
      rcases List.mem_append.mp hw with hw | hw
      · obtain ⟨q, hq, hname⟩ := hframe w hw
        exact ⟨q, List.mem_append_left _ hq, hname⟩
      · rw [List.mem_singleton.mp hw]
        exact ⟨_, List.mem_append_right _ List.mem_cons_self, rfl⟩

theorem blames_definition (ha : a.Sound) (hT : a.Lists table) {f : Function} {globals : Frame}
    {header nameId : NodeId} {left index params : Term} (hparams : f.params = params.links)
    (h : a.At .topLevel (.node f.node (.keyword .define)
      (.node header (.keyword .func) (.node nameId (.ident f.name) left index) params) f.body))
    (hsig : ⟨nameId, f.name, params⟩ ∈ a.signatures) (hchain : params.IsChain .param)
    (hglobals : ∀ v ∈ globals.declared, v.name ∈ a.globalNames) :
    Blames a.Explains (definition table f) ⟨globals, none⟩ := by
  unfold definition
  refine blames_lift_bind.mpr ⟨fun e => h.explains_right rfl, fun _ _ => ?_⟩
  refine blames_bind.mpr ⟨blames_withLocals.mpr ?_, fun p s' _ => ?_⟩
  · have hheader : a.At .parameters params := (h.left rfl).right rfl
    refine blames_bind.mpr ⟨?_, fun _ s' _ => blames_block ha hT (h.right rfl)⟩
    exact blames_parameters hsig (by rw [hparams, List.nil_append])
      (fun t ht => hheader.links rfl hchain (hparams ▸ ht)) hglobals nofun
  · simp

end Lowering

end StackCompiler
