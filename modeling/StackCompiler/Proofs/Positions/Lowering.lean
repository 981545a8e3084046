import StackCompiler.Proofs.Operators
import StackCompiler.Proofs.Positions.Alike
import StackCompiler.Proofs.Term.Chain

/-!
# Lowering does not read positions

Functions and statements that are alike lower alike, one step of lowering after another. Positions
come out at three places only: in errors, in the declarations of a frame, and in generated labels.
Without the positions the lines of code are the same.
-/
namespace StackCompiler

variable {R : NodeId → NodeId → Prop} {t u : Term}

theorem alike_require {m n : NodeId} (h : t.Alike R u) (hR : R m n) (what : String) :
    ResultsAlike R Eq (t.require m what) (u.require n what) := by
  unfold Term.require
  rw [h.isAbsent_eq]
  cases u.isAbsent with
  | true => exact ⟨rfl, .some hR⟩
  | false => exact rfl

theorem alike_expectIdent (h : t.AlikeNodes R u) :
    ResultsAlike R Eq t.expectIdent u.expectIdent := by
  have hid := h.id
  obtain ⟨halike, hpresent⟩ := h
  cases halike with
  | absent => cases hpresent
  | number _ => exact ⟨rfl, .some hid⟩
  | ident _ _ => exact rfl
  | keyword _ _ _ => exact ⟨rfl, .some hid⟩

theorem alike_elements (tag : Keyword) (h : t.Alike R u) :
    ResultsAlike R (List.Forall₂ (Term.AlikeNodes R)) (t.elements tag) (u.elements tag) := by
  induction h with
  | absent => exact .nil
  | number hR => exact ⟨rfl, .some hR⟩
  | ident hR _ _ => exact ⟨rfl, .some hR⟩
  | @keyword m n found l l' r r' hR hl hr ihl ihr =>
    by_cases hfound : found = tag
    swap
    · have hkind : Kind.keyword found ≠ .keyword tag := by simpa using hfound
      simp only [Term.elements, if_pos hkind]
      exact ⟨rfl, .some hR⟩
    subst hfound
    simp only [Term.elements, ne_eq, not_true_eq_false, if_false]
    cases hpresent : r.isAbsent with
    | true =>
      have hpresent' := hr.isAbsent_eq.symm.trans hpresent
      simp only [Term.require, hpresent, hpresent', if_true]
      exact ⟨rfl, .some hR⟩
    | false =>
      refine (alike_require hr hR _).bind fun _ _ _ => ?_
      refine ihl.bind fun before before' hbefore => ?_
      exact List.rel_append hbefore (.cons ⟨hr, hpresent⟩ .nil)

/-- Chains of one tag have as many links, and these are alike. -/
theorem alike_links (tag : Keyword) (h : t.Alike R u) :
    ResultsAlike R (fun ts us => List.Forall₂ (Term.AlikeNodes R) ts us ∧ t.IsChain tag)
      (t.elements tag) (u.elements tag) := by
  rcases (alike_elements tag h).cases with ⟨ts, us, ht, hu, hrel⟩ | ⟨e, e', ht, hu, herror⟩
  · rw [ht, hu]
    exact ⟨hrel, (Term.elements_eq_ok.mp ht).1⟩
  · rw [ht, hu]
    exact herror

theorem lengthOf?_eq_of_alike (h : t.Alike R u) : Frame.lengthOf? t = Frame.lengthOf? u := by
  have hnumber : t.number? = u.number? := by
    cases h <;> rfl
  unfold Frame.lengthOf?
  rw [h.isAbsent_eq, hnumber]

theorem alike_declare {f g : Frame} (hfg : f.anonymous = g.anonymous) (h : t.AlikeNodes R u) :
    ResultsAlike R (fun p q => p.1.anonymous = q.1.anonymous ∧ p.2.anonymous = q.2.anonymous)
      (f.declare t) (g.declare u) := by
  have hid := h.id
  obtain ⟨halike, hpresent⟩ := h
  cases halike with
  | absent => cases hpresent
  | number _ => exact ⟨rfl, .some hid⟩
  | keyword _ _ _ => exact ⟨rfl, .some hid⟩
  | @ident m n name l l' index index' _ hindex =>
    obtain ⟨hbase, hsize, hstaged⟩ := Frame.layout_eq hfg
    have hlength : Frame.lengthOf? index = Frame.lengthOf? index' := lengthOf?_eq_of_alike hindex
    have hfound := Frame.isSome_find?_eq hfg name
    have hdeclared := Frame.declared_eq hfg
    simp only [Frame.declare, Term.expectIdent, Term.ident?, Term.right, hlength, hsize]
    refine ResultsAlike.ite (by rw [hfound]) (fun _ => ⟨rfl, .some hid⟩) fun _ => ?_
    cases Frame.lengthOf? index' with
    | none => exact ⟨rfl, .some hid⟩
    | some length =>
      refine ResultsAlike.ite Iff.rfl (fun _ => ⟨rfl, .some hid⟩) fun _ => ⟨rfl, ?_⟩
      simp [Frame.anonymous, hdeclared, hbase, hstaged, Variable.anonymous, Variable.size]

theorem Term.Alike.right_of_ident {name : String} (h : t.Alike R u)
    (hname : t.expectIdent = .ok name) : t.right.Alike R u.right := by
  cases h with
  | absent => cases hname
  | number _ => cases hname
  | ident _ hindex => exact hindex
  | keyword _ _ _ => cases hname

/-- Functions that differ in positions only. -/
structure Function.Alike (R : NodeId → NodeId → Prop) (f g : Function) : Prop where
  name : f.name = g.name
  node : R f.node g.node
  params : List.Forall₂ (Term.AlikeNodes R) f.params g.params
  body : f.body.Alike R g.body

theorem Function.Alike.arity {f g : Function} (h : f.Alike R g) : f.arity = g.arity :=
  h.params.length_eq

def FunctionTable.Alike (R : NodeId → NodeId → Prop) : FunctionTable → FunctionTable → Prop :=
  List.Forall₂ (Function.Alike R)

variable {table table' : FunctionTable}

theorem FunctionTable.Alike.get? (h : table.Alike R table') (name : String) :
    Option.Rel (Function.Alike R) (table.get? name) (table'.get? name) := by
  induction h with
  | nil => exact .none
  | @cons f g fs gs hfg _ ih =>
    simp only [FunctionTable.get?, List.find?_cons, ← hfg.name]
    cases f.name == name with
    | true => exact .some hfg
    | false => exact ih

theorem FunctionTable.Alike.isSome_get?_eq (h : table.Alike R table') (name : String) :
    (table.get? name).isSome = (table'.get? name).isSome := by
  have hget := h.get? name
  generalize table.get? name = found, table'.get? name = found' at hget ⊢
  cases hget <;> rfl

theorem alike_resolve {m n : NodeId} (htable : table.Alike R table') (hR : R m n)
    (h : t.Alike R u) :
    ResultsAlike R (Function.Alike R) (table.resolve m t) (table'.resolve n u) := by
  unfold FunctionTable.resolve
  refine (alike_require h hR _).and_eq.bind fun _ _ hpresent => ?_
  have hnodes : t.AlikeNodes R u := ⟨h, Term.require_eq_ok.mp hpresent.2.1⟩
  refine (alike_expectIdent hnodes).bind fun name _ hname => ?_
  subst hname
  have hget := htable.get? name
  generalize table.get? name = found, table'.get? name = found' at hget ⊢
  cases hget with
  | none => exact ⟨rfl, .some hnodes.id⟩
  | some hfg => exact hfg

/-- The kinds of labels that carry a position. -/
def generatedLabels : List String :=
  ["if_fail", "if_end", "while", "while_end"]

/-- A label without the position that it carries, if it is generated. -/
def stem (label : String) : String :=
  let kind := String.ofList (label.toList.takeWhile (· ≠ '.'))
  if kind ∈ generatedLabels ∧ '.' ∈ label.toList then kind ++ "." else label

theorem stem_label (id : NodeId) {kind : String} (hkind : kind ∈ generatedLabels) :
    stem (id.label kind) = kind ++ "." := by
  have hpoint : ∀ kind ∈ generatedLabels, kind.toList.takeWhile (· ≠ '.') = kind.toList := by decide
  have hchars : (id.label kind).toList = kind.toList ++ '.' :: Nat.toDigits 16 id := by
    simp [NodeId.label]
  have hstart : String.ofList ((id.label kind).toList.takeWhile (· ≠ '.')) = kind := by
    rw [hchars, List.takeWhile_append, hpoint kind hkind]
    simp
  rw [stem, hstart, if_pos ⟨hkind, by simp [hchars]⟩]

/-- The line with the stem of its label. -/
def Line.stemmed (line : Line) : Line :=
  match line.item with
  | .instruction (.transfer transfer label) =>
    { line with item := .instruction (.transfer transfer (stem label)) }
  | .label name => { line with item := .label (stem name) }
  | _ => line

namespace Code

/-- The lines without the positions that generated labels carry. -/
def stemmed (code : Code) : Code :=
  code.map Line.stemmed

@[simp] theorem stemmed_append (a b : Code) : stemmed (a ++ b) = stemmed a ++ stemmed b := by
  simp [stemmed]

@[simp] theorem stemmed_indented (code : Code) :
    stemmed (indented code) = indented (stemmed code) := by
  simp only [stemmed, indented, List.map_map]
  refine List.map_congr_left fun line _ => ?_
  obtain ⟨depth, item⟩ := line
  cases item with
  | instruction i => cases i <;> rfl
  | label name => rfl
  | comment text => rfl

def SameLines (a b : Code) : Prop :=
  a.stemmed = b.stemmed

end Code

namespace Lowering

open Instruction

theorem alike_loadShift {index index' : Term} {code code' : Lowering (List Instruction)}
    (hindex : index.Alike R index') (hcode : code.Alike R Eq code') :
    (loadShift index code).Alike R Eq (loadShift index' code') := by
  unfold loadShift
  rw [hindex.isAbsent_eq]
  have hrest : ∀ value value' : List Instruction, value = value' →
      (pure (value ++ [.pop (some (.register .hx))]) : Lowering _).Alike R Eq
        (pure (value' ++ [.pop (some (.register .hx))])) := by
    intro value value' hvalue
    exact alike_pure (by rw [hvalue])
  exact alike_ite Iff.rfl (fun _ => (alike_pure rfl).bind hrest) fun _ => hcode.bind hrest

theorem alike_resolved {m n : NodeId} (hR : R m n) (name : String) {index index' : Term}
    {code code' : Lowering (List Instruction)} (hindex : index.Alike R index')
    (hcode : code.Alike R Eq code') :
    (resolved m name index code).Alike R Eq (resolved n name index' code') := by
  unfold resolved
  refine alike_scopes.bind fun s s' hs => ?_
  have hfind := Scopes.find?_rel hs name
  generalize s.find? name = found, s'.find? name = found' at hfind ⊢
  cases hfind with
  | none => exact alike_throw ⟨rfl, .some hR⟩
  | @some p q hpq =>
    obtain ⟨hbase, -, -⟩ := Frame.layout_eq hpq.1
    obtain ⟨hname, hshift, hshape⟩ := Variable.fields_eq hpq.2
    have haddress : ResultsAlike R Eq (Scopes.addressOf p.1 p.2 m !index.isAbsent)
        (Scopes.addressOf q.1 q.2 n !index'.isAbsent) := by
      unfold Scopes.addressOf Frame.address
      rw [hbase, hname, hshift, hshape, hindex.isAbsent_eq]
      exact ResultsAlike.ite Iff.rfl (fun _ => rfl) fun _ => ⟨rfl, .some hR⟩
    refine (alike_lift haddress).bind fun address _ heq => ?_
    subst heq
    refine (alike_loadShift hindex hcode).bind fun load _ heq => ?_
    subst heq
    exact alike_pure rfl

theorem alike_stage : stage.Alike R Eq stage := by
  unfold stage
  refine alike_current.bind fun f g hfg => ?_
  obtain ⟨hbase, hsize, hstaged⟩ := Frame.layout_eq hfg
  have hnext : f.stage.2.anonymous = g.stage.2.anonymous := by
    simp [Frame.stage, Frame.anonymous, Frame.declared_eq hfg, hbase, hsize, hstaged]
  refine (alike_setCurrent hnext).bind fun _ _ _ => alike_pure ?_
  simp [Frame.slot, hbase, hsize]

theorem alike_release (count : Nat) : (release count).Alike R Eq (release count) := by
  induction count with
  | zero => exact alike_pure rfl
  | succ count ih =>
    unfold release
    refine alike_current.bind fun f g hfg => ?_
    obtain ⟨hbase, hsize, hstaged⟩ := Frame.layout_eq hfg
    unfold Frame.release
    rw [hstaged]
    by_cases hnone : g.staged = 0
    · simp only [hnone, if_true]
      exact ih
    · simp only [hnone, if_false]
      refine Alike.bind (alike_setCurrent ?_) fun _ _ _ => ih
      simp [Frame.anonymous, Frame.declared_eq hfg, hbase, hsize]

theorem alike_callWith {m n : NodeId} {callee callee' args args' : Term}
    {staging staging' : Lowering (List Instruction)} (htable : table.Alike R table') (hR : R m n)
    (hcallee : callee.Alike R callee') (hargs : args.Alike R args')
    (hstaging : args.IsChain .param → staging.Alike R Eq staging') :
    (callWith table m callee args staging).Alike R Eq
      (callWith table' n callee' args' staging') := by
  unfold callWith
  refine (alike_lift (alike_resolve htable hR hcallee)).bind fun f g hfg => ?_
  refine (alike_lift (alike_links .param hargs)).bind fun ts us hlinks => ?_
  have hcount := hlinks.1.length_eq
  rw [hcount, hfg.arity, hfg.name]
  refine alike_ite Iff.rfl (fun _ => alike_throw_bind ⟨rfl, .some hR⟩) fun _ => ?_
  refine (hstaging hlinks.2).bind fun staged _ heq => ?_
  subst heq
  refine (alike_release us.length).bind fun _ _ _ => ?_
  refine alike_current.bind fun frame frame' hframe => ?_
  obtain ⟨hbase, hsize, -⟩ := Frame.layout_eq hframe
  rw [hbase, hsize]
  exact (alike_emit _ _).bind fun _ _ _ => alike_pure rfl

/-- Expressions that are alike have the same code, and so have chains of arguments. -/
theorem alike_expression (htable : table.Alike R table') (h : t.Alike R u) :
    (expression table t).Alike R Eq (expression table' u) ∧
      (t.IsChain .param → (arguments table t).Alike R Eq (arguments table' u)) := by
  induction h with
  | absent =>
    simp only [expression, arguments]
    exact ⟨alike_pure rfl, fun _ => alike_pure rfl⟩
  | number hR =>
    simp only [expression]
    exact ⟨alike_pure rfl, nofun⟩
  | @ident m n name l l' index index' hR hindex ih =>
    refine ⟨?_, nofun⟩
    simp only [expression]
    refine (alike_resolved hR name hindex ih.1).bind fun found _ heq => ?_
    subst heq
    exact alike_pure rfl
  | @keyword m n tag l l' r r' hR hl hr ihl ihr =>
    constructor
    · simp only [expression, Keyword.arity?_eq, Keyword.operation?_eq]
      refine alike_ite Iff.rfl (fun _ => alike_callWith htable hR hl hr ihr.2) fun _ => ?_
      cases tag.meaning? with
      | none => exact alike_throw ⟨rfl, .some hR⟩
      | some operator =>
        cases operator with
        | binary operation =>
          refine (alike_lift (alike_require hl hR _)).bind fun _ _ _ => ?_
          refine ihl.1.bind fun a _ ha => ?_
          refine (alike_lift (alike_require hr hR _)).bind fun _ _ _ => ?_
          refine ihr.1.bind fun b _ hb => ?_
          exact alike_pure (by rw [ha, hb])
        | unary operation =>
          refine (alike_lift (alike_require hr hR _)).bind fun _ _ _ => ?_
          exact ihr.1.bind fun a _ ha => alike_pure (by rw [ha])
        | input => exact ihr.1.bind fun a _ ha => alike_pure (by rw [ha])
    · rintro (_ | ⟨hchain, hpresent⟩)
      simp only [arguments]
      refine (ihl.2 hchain).bind fun staged _ hstaged => ?_
      refine ihr.1.bind fun value _ hvalue => ?_
      refine alike_stage.bind fun slot _ hslot => ?_
      exact alike_pure (by rw [hstaged, hvalue, hslot])

theorem stemmed_label {id : NodeId} {kind : String} (hkind : kind ∈ generatedLabels) :
    Code.stemmed (.label (id.label kind)) = .label (kind ++ ".") := by
  simp [Code.stemmed, Code.label, Line.stemmed, stem_label id hkind]

theorem stemmed_jump {transfer : Transfer} {id : NodeId} {kind : String}
    (hkind : kind ∈ generatedLabels) :
    Code.stemmed (.ofInstructions [.transfer transfer (id.label kind)]) =
      .ofInstructions [.transfer transfer (kind ++ ".")] := by
  simp [Code.stemmed, Code.ofInstructions, Line.stemmed, stem_label id hkind]

theorem sameLines_test {m n : NodeId} {kind : String} (hkind : kind ∈ generatedLabels)
    (condition : List Instruction) :
    (test condition (m.label kind)).SameLines (test condition (n.label kind)) := by
  have hsplit : ∀ id : NodeId, test condition (id.label kind) =
      Code.ofInstructions (condition ++ [.push (.number (.ofNat 0))]) ++
        Code.ofInstructions [.transfer .jumpEq (id.label kind)] := by
    intro id
    simp [test, Code.ofInstructions]
  rw [Code.SameLines, hsplit, hsplit, Code.stemmed_append, Code.stemmed_append, stemmed_jump hkind,
    stemmed_jump hkind]

theorem sameLines_conditional (m n : NodeId) (condition : List Instruction)
    {thenCode thenCode' : Code}
    {elseCode elseCode' : Option Code} (hthen : thenCode.SameLines thenCode')
    (helse : Option.Rel Code.SameLines elseCode elseCode') :
    (conditional m condition thenCode elseCode).SameLines
      (conditional n condition thenCode' elseCode') := by
  have hfail : "if_fail" ∈ generatedLabels := by decide
  have hend : "if_end" ∈ generatedLabels := by decide
  have htest : (test condition (m.label "if_fail")).stemmed =
      (test condition (n.label "if_fail")).stemmed :=
    sameLines_test hfail condition
  replace hthen : thenCode.stemmed = thenCode'.stemmed := hthen
  cases helse with
  | none =>
    simp only [Code.SameLines, conditional, Code.stemmed_append, Code.stemmed_indented, htest,
      hthen, stemmed_label hfail]
  | some helse =>
    replace helse : Code.stemmed _ = Code.stemmed _ := helse
    simp only [Code.SameLines, conditional, Code.stemmed_append, Code.stemmed_indented, htest,
      hthen, stemmed_label hfail, stemmed_label hend, stemmed_jump hend, helse]

theorem sameLines_loop (m n : NodeId) (condition : List Instruction) {body body' : Code}
    (hbody : body.SameLines body') :
    (loop m condition body).SameLines (loop n condition body') := by
  have htop : "while" ∈ generatedLabels := by decide
  have hend : "while_end" ∈ generatedLabels := by decide
  have htest : (test condition (m.label "while_end")).stemmed =
      (test condition (n.label "while_end")).stemmed :=
    sameLines_test hend condition
  replace hbody : body.stemmed = body'.stemmed := hbody
  simp only [Code.SameLines, loop, Code.stemmed_append, Code.stemmed_indented, htest, hbody,
    stemmed_label htop, stemmed_label hend, stemmed_jump htop]

theorem alike_target (htable : table.Alike R table') (h : t.AlikeNodes R u) :
    (target table t).Alike R Eq (target table' u) := by
  unfold target
  refine (alike_lift (alike_expectIdent h).and_eq).bind fun name _ hname => ?_
  obtain ⟨rfl, hident, -⟩ := hname
  have hright := h.alike.right_of_ident hident
  refine alike_scopes.bind fun s s' hs => ?_
  refine alike_ite (by rw [Scopes.isSome_find?_eq hs name]) (fun _ => ?_) fun _ => ?_
  · exact alike_resolved h.id name hright (alike_expression htable hright).1
  · refine alike_current.bind fun f g hfg => ?_
    refine (alike_lift (alike_declare hfg h)).bind fun p q hpq => ?_
    refine (alike_setCurrent hpq.2).bind fun _ _ _ => alike_pure ?_
    obtain ⟨hbase, -, -⟩ := Frame.layout_eq hpq.2
    obtain ⟨-, hshift, -⟩ := Variable.fields_eq hpq.1
    simp [Frame.address, hbase, hshift]

theorem alike_assignment {m n : NodeId} {l l' r r' : Term} (htable : table.Alike R table')
    (hR : R m n) (hl : l.Alike R l') (hr : r.Alike R r') :
    (assignment table m l r).Alike R Code.SameLines (assignment table' n l' r') := by
  unfold assignment
  refine (alike_lift (alike_require hl hR _).and_eq).bind fun _ _ hpresent => ?_
  refine (alike_lift (alike_require hr hR _)).bind fun _ _ _ => ?_
  refine (alike_expression htable hr).1.bind fun value _ hvalue => ?_
  have htarget := alike_target htable ⟨hl, Term.require_eq_ok.mp hpresent.2.1⟩
  refine htarget.bind fun p _ hp => ?_
  subst hvalue hp
  exact alike_pure rfl

theorem alike_display {m n : NodeId} {l l' r r' : Term} (htable : table.Alike R table') (hR : R m n)
    (hl : l.Alike R l') (hr : r.Alike R r') :
    (display table m l r).Alike R Code.SameLines (display table' n l' r') := by
  unfold display
  refine (alike_lift (alike_require hl hR _).and_eq).bind fun _ _ hpresent => ?_
  have hnodes : l.AlikeNodes R l' := ⟨hl, Term.require_eq_ok.mp hpresent.2.1⟩
  refine (alike_lift (alike_expectIdent hnodes).and_eq).bind fun name _ hname => ?_
  obtain ⟨rfl, hident, -⟩ := hname
  have hindex := hl.right_of_ident hident
  have hcode := (alike_expression htable hindex).1
  refine (alike_resolved hnodes.id name hindex hcode).bind fun p _ hp => ?_
  refine (alike_lift (alike_require hr hR _)).bind fun _ _ _ => ?_
  refine (alike_expression htable hr).1.bind fun value _ hvalue => ?_
  subst hvalue hp
  exact alike_pure rfl

theorem alike_evaluated {m n : NodeId} {r r' : Term} (htable : table.Alike R table') (hR : R m n)
    (hr : r.Alike R r') (what : String) (rest : List Instruction) :
    (evaluated table m r what rest).Alike R Code.SameLines (evaluated table' n r' what rest) := by
  unfold evaluated
  refine (alike_lift (alike_require hr hR _)).bind fun _ _ _ => ?_
  refine (alike_expression htable hr).1.bind fun value _ hvalue => ?_
  subst hvalue
  exact alike_pure rfl

/-- Chains of statements that are alike have the same lines. -/
def ChainsAlike (R : NodeId → NodeId → Prop) (table table' : FunctionTable) (t u : Term) : Prop :=
  t.IsChain .stmt → (statements table t).Alike R Code.SameLines (statements table' u)

/-- A chain that is checked before it is lowered. -/
theorem ChainsAlike.bind {β β' : Type} {W : β → β' → Prop} {f : Code → Lowering β}
    {g : Code → Lowering β'} (hchains : ChainsAlike R table table' t u) (h : t.Alike R u)
    (hfg : ∀ code code', code.SameLines code' → (f code).Alike R W (g code')) :
    (do let _ ← t.elements .stmt; let code ← statements table t; f code : Lowering β).Alike R W
      (do let _ ← u.elements .stmt; let code ← statements table' u; g code) := by
  refine (alike_lift (alike_links .stmt h)).bind fun _ _ hlinks => ?_
  exact (hchains hlinks.2).bind hfg

theorem alike_conditional {m n d d' : NodeId} {condition condition' thenPart thenPart' elsePart
    elsePart' : Term} (htable : table.Alike R table') (hR : R m n) (hD : R d d')
    (hcondition : condition.Alike R condition') (hthen : thenPart.Alike R thenPart')
    (helse : elsePart.Alike R elsePart')
    (hthenChains : ChainsAlike R table table' thenPart thenPart')
    (helseChains : ChainsAlike R table table' elsePart elsePart') :
    (statement table (.node m (.keyword .ifThen) condition
      (.node d (.keyword .decision) thenPart elsePart))).Alike R Code.SameLines
      (statement table' (.node n (.keyword .ifThen) condition'
        (.node d' (.keyword .decision) thenPart' elsePart'))) := by
  simp only [statement]
  refine (alike_lift (alike_require hcondition hR _)).bind fun _ _ _ => ?_
  refine (alike_lift (alike_require (.keyword hD hthen helse) hR _)).bind fun _ _ _ => ?_
  refine (alike_lift (alike_require hthen hD _)).bind fun _ _ _ => ?_
  refine (alike_expression htable hcondition).1.bind fun value _ hvalue => ?_
  subst hvalue
  refine hthenChains.bind hthen fun thenCode thenCode' hthenCode => ?_
  refine alike_ite (by rw [helse.isAbsent_eq]) (fun _ => ?_) fun _ => ?_
  · exact alike_pure (sameLines_conditional m n value hthenCode .none)
  · refine helseChains.bind helse fun elseCode elseCode' helseCode => ?_
    exact alike_pure (sameLines_conditional m n value hthenCode (.some helseCode))

theorem alike_loop {m n : NodeId} {condition condition' body body' : Term}
    (htable : table.Alike R table') (hR : R m n) (hcondition : condition.Alike R condition')
    (hbody : body.Alike R body') (hchains : ChainsAlike R table table' body body') :
    (statement table (.node m (.keyword .whileLoop) condition body)).Alike R Code.SameLines
      (statement table' (.node n (.keyword .whileLoop) condition' body')) := by
  simp only [statement]
  refine (alike_lift (alike_require hcondition hR _)).bind fun _ _ _ => ?_
  refine (alike_lift (alike_require hbody hR _)).bind fun _ _ _ => ?_
  refine (alike_expression htable hcondition).1.bind fun value _ hvalue => ?_
  subst hvalue
  refine hchains.bind hbody fun code code' hcode => ?_
  exact alike_pure (sameLines_loop m n value hcode)

theorem alike_undecided {m n : NodeId} {l l' r r' : Term} (hR : R m n) (hl : l.Alike R l')
    (hr : r.Alike R r') (hother : r.keyword? ≠ some .decision) :
    (statement table (.node m (.keyword .ifThen) l r)).Alike R Code.SameLines
      (statement table' (.node n (.keyword .ifThen) l' r')) := by
  rw [statement_conditional_other hother, statement_conditional_other (hr.keyword?_eq ▸ hother)]
  refine (alike_lift (alike_require hl hR _)).bind fun _ _ _ => ?_
  refine (alike_lift (alike_require hr hR _).and_eq).bind fun _ _ hpresent => ?_
  have hnodes : r.AlikeNodes R r' := ⟨hr, Term.require_eq_ok.mp hpresent.2.1⟩
  exact alike_throw ⟨rfl, .some hnodes.id⟩

/-- A statement without statements in it. -/
theorem alike_simple {id : NodeId} {kind : Kind} {left right : Term} (htable : table.Alike R table')
    (hif : kind ≠ .keyword .ifThen) (hwhile : kind ≠ .keyword .whileLoop)
    (h : (Term.node id kind left right).Alike R u) :
    (statement table (.node id kind left right)).Alike R Code.SameLines (statement table' u) := by
  cases h with
  | number hR =>
    simp only [statement]
    exact alike_throw ⟨rfl, .some hR⟩
  | ident hR _ =>
    simp only [statement]
    exact alike_throw ⟨rfl, .some hR⟩
  | @keyword _ _ tag _ _ _ _ hR hl hr =>
    cases tag with
    | assign =>
      simp only [statement]
      exact alike_assignment htable hR hl hr
    | ifThen => exact absurd rfl hif
    | whileLoop => exact absurd rfl hwhile
    | ret =>
      simp only [statement]
      exact alike_evaluated htable hR hr _ _
    | display =>
      simp only [statement]
      exact alike_display htable hR hl hr
    | out =>
      simp only [statement]
      exact alike_evaluated htable hR hr _ _
    | call =>
      simp only [statement]
      have hargs := (alike_expression htable hr).2
      refine (alike_callWith htable hR hl hr hargs).bind fun code _ heq => ?_
      subst heq
      exact alike_pure rfl
    | _ =>
      simp only [statement]
      exact alike_throw ⟨rfl, .some hR⟩

theorem alike_statement (htable : table.Alike R table') (t : Term) :
    (∀ u, t.Alike R u → (statement table t).Alike R Code.SameLines (statement table' u)) ∧
      ∀ u, t.Alike R u → ChainsAlike R table table' t u := by
  apply Term.statement_induction (t := t)
  case absent =>
    constructor
    · rintro _ ⟨⟩
      exact alike_pure rfl
    · rintro _ ⟨⟩ _
      exact alike_pure rfl
  case dangling => exact fun id => ⟨nofun, nofun⟩
  case conditional =>
    rintro id condition d thenPart elsePart hthenChains helseChains _
      (_ | _ | _ | ⟨hR, hl, hdecision⟩)
    obtain _ | _ | _ | ⟨hD, hthen, helse⟩ := hdecision
    exact alike_conditional htable hR hD hl hthen helse (hthenChains _ hthen) (helseChains _ helse)
  case undecided =>
    rintro id condition right hother _ (_ | _ | _ | ⟨hR, hl, hr⟩)
    exact alike_undecided hR hl hr hother
  case loop =>
    rintro id condition body hchains _ (_ | _ | _ | ⟨hR, hl, hbody⟩)
    exact alike_loop htable hR hl hbody (hchains _ hbody)
  case simple =>
    intro id kind left right hif hwhile u h
    exact alike_simple htable hif hwhile h
  case chain =>
    intro id kind before last hbefore hlast u h hchain
    obtain _ | ⟨hlinks, -⟩ := hchain
    obtain _ | _ | _ | ⟨hR, hl, hr⟩ := h
    simp only [statements]
    refine (hbefore _ hl hlinks).bind fun code code' hcode => ?_
    refine (hlast _ hr).bind fun last last' hlines => alike_pure ?_
    rw [Code.SameLines, Code.stemmed_append, Code.stemmed_append, hcode, hlines]

theorem alike_block (htable : table.Alike R table') (h : t.Alike R u) :
    (block table t).Alike R Code.SameLines (block table' u) := by
  unfold block
  refine (alike_lift (alike_links .stmt h)).bind fun _ _ hlinks => ?_
  exact (alike_statement htable t).2 u h hlinks.2

theorem alike_parameters {ts us : List Term} (h : List.Forall₂ (Term.AlikeNodes R) ts us) :
    (parameters ts).Alike R Eq (parameters us) := by
  induction h with
  | nil => exact alike_pure rfl
  | @cons t u ts us htu _ ih =>
    unfold parameters
    refine (alike_lift (alike_expectIdent htu).and_eq).bind fun name _ hname => ?_
    obtain ⟨rfl, hident, -⟩ := hname
    rw [(htu.alike.right_of_ident hident).isAbsent_eq]
    refine alike_ite Iff.rfl (fun _ => alike_throw_bind ⟨rfl, .some htu.id⟩) fun _ => ?_
    refine alike_scopes.bind fun s s' hs => ?_
    have hglobals : s.globals.anonymous = s'.globals.anonymous := congrArg Scopes.globals hs
    refine alike_ite (by rw [Frame.isSome_find?_eq hglobals name])
      (fun _ => alike_throw_bind ⟨rfl, .some htu.id⟩) fun _ => ?_
    refine alike_current.bind fun f g hfg => ?_
    refine (alike_lift (alike_declare hfg htu)).bind fun p q hpq => ?_
    exact (alike_setCurrent hpq.2).bind fun _ _ _ => ih

/-- Code with the same lines, and frames that are equal up to positions. -/
def SameFunction (p q : Code × Frame) : Prop :=
  p.1.SameLines q.1 ∧ p.2.anonymous = q.2.anonymous

theorem alike_definition {f g : Function} (htable : table.Alike R table') (h : f.Alike R g) :
    (definition table f).Alike R SameFunction (definition table' g) := by
  unfold definition
  refine (alike_lift (alike_require h.body h.node _)).bind fun _ _ _ => ?_
  have hlocals : (do parameters f.params; block table f.body : Lowering Code).Alike R Code.SameLines
      (do parameters g.params; block table' g.body) :=
    (alike_parameters h.params).bind fun _ _ _ => alike_block htable h.body
  refine (alike_withLocals hlocals).bind fun p q hpq => ?_
  refine (alike_emit _ _).bind fun _ _ _ => alike_pure ⟨?_, hpq.2⟩
  have hlines : Code.stemmed p.1 = Code.stemmed q.1 := hpq.1
  simp only [Code.SameLines, Code.stemmed_append, Code.stemmed_indented, hlines, h.name]

end Lowering

end StackCompiler
