import StackCompiler.Program
import StackCompiler.Proofs.Lowering.Scope

/-!
# What compiling a program gives

The code of a compiled program is its initializers, the preamble and one block for each function.
`Anatomy` names these parts and says how each comes from the chain at the root. `Parts` says the
same by the steps that lower them, and a program compiles exactly if it has such parts.
-/
namespace StackCompiler

namespace FunctionTable

/-- The functions that the definitions among some statements add to a table. -/
inductive Collects : FunctionTable → List Term → FunctionTable → Prop
  | nil {table : FunctionTable} : Collects table [] table
  | define {table table' : FunctionTable} {id header nameId : NodeId} {name : String}
      {left index params body : Term} {rest : List Term} :
      Function.isName name = true → table.get? name = none → params.IsChain .param →
      Collects (table ++ [⟨name, id, params.links, body⟩]) rest table' →
      Collects table (.node id (.keyword .define)
        (.node header (.keyword .func) (.node nameId (.ident name) left index) params) body :: rest)
        table'
  | other {table table' : FunctionTable} {t : Term} {rest : List Term} :
      t.keyword? ≠ some .define → Collects table rest table' → Collects table (t :: rest) table'

theorem expectKeyword_eq_ok {t : Term} {tag : Keyword} {u : Unit} :
    t.expectKeyword tag = .ok u ↔ ∃ id left right, t = .node id (.keyword tag) left right := by
  rw [← Term.keyword?_eq_some]
  unfold Term.expectKeyword
  split_ifs with h <;> simp [h]

theorem requireLeft_eq_ok {t u : Term} {what : String} :
    t.requireLeft what = .ok u ↔ t.left.isAbsent = false ∧ u = t.left := by
  unfold Term.requireLeft
  cases h : t.left.require t.id what with
  | error e =>
    have hnot : ¬ t.left.isAbsent = false := fun hleft => by
      rw [Term.require_eq_ok (u := ()) |>.mpr hleft] at h
      cases h
    simp [hnot, bind, Except.bind]
  | ok v => simp [Term.require_eq_ok.mp h, bind, Except.bind, pure, Except.pure, eq_comm]

/-- A sequence of checks succeeds if both parts do. -/
theorem ok_of_bind {α β : Type} {x : Except CompileError α} {f : α → Except CompileError β} {b : β}
    (h : (x >>= f) = .ok b) : ∃ a, x = .ok a ∧ f a = .ok b := by
  cases x with
  | error e => cases h
  | ok a => exact ⟨a, rfl, h⟩

theorem functionOf_eq_ok {table : FunctionTable} {t : Term} {f : Function}
    (h : table.functionOf t = .ok f) :
    ∃ id header nameId name left index params body,
      t = .node id (.keyword .define)
        (.node header (.keyword .func) (.node nameId (.ident name) left index) params) body ∧
      Function.isName name = true ∧ table.get? name = none ∧ params.IsChain .param ∧
      f = ⟨name, id, params.links, body⟩ := by
  obtain ⟨_, hdefine, h₁⟩ := ok_of_bind h
  obtain ⟨id, headerTerm, body, rfl⟩ := expectKeyword_eq_ok.mp hdefine
  obtain ⟨_, hheader, h₂⟩ := ok_of_bind h₁
  obtain ⟨-, rfl⟩ := requireLeft_eq_ok.mp hheader
  obtain ⟨_, hfunc, h₃⟩ := ok_of_bind h₂
  obtain ⟨header, nameTerm, params, rfl⟩ := expectKeyword_eq_ok.mp hfunc
  obtain ⟨_, hname, h₄⟩ := ok_of_bind h₃
  obtain ⟨-, rfl⟩ := requireLeft_eq_ok.mp hname
  obtain ⟨name, hident, h₅⟩ := ok_of_bind h₄
  obtain ⟨nameId, left, index, rfl⟩ := Lowering.expectIdent_eq_ok.mp hident
  dsimp only at h₅
  split_ifs at h₅ with hvalid hfound hfound
  · cases h₅
  · cases h₅
  · cases h₅
  · obtain ⟨_, helements, h₆⟩ := ok_of_bind h₅
    obtain ⟨hchain, rfl⟩ := Term.elements_eq_ok.mp helements
    cases h₆
    exact ⟨id, header, nameId, name, left, index, params, body, rfl, by simpa using hvalid,
      by simpa using hfound, hchain, rfl⟩

theorem functionOf_define {table : FunctionTable} {id header nameId : NodeId} {name : String}
    {left index params body : Term} (hname : Function.isName name = true)
    (hget : table.get? name = none) (hchain : params.IsChain .param) :
    table.functionOf (.node id (.keyword .define)
      (.node header (.keyword .func) (.node nameId (.ident name) left index) params) body) =
      .ok ⟨name, id, params.links, body⟩ := by
  have helements := Term.elements_eq_ok.mpr ⟨hchain, rfl⟩
  simp [functionOf, Term.expectKeyword, Term.keyword?, Term.requireLeft, Term.require, Term.left,
    Term.right, Term.isAbsent, Term.expectIdent, Term.ident?, Term.id, Term.id?, hname, hget,
    helements, bind, Except.bind, pure, Except.pure]

theorem collects_of_declareAll {table table' : FunctionTable} {ts : List Term}
    (h : declareAll table ts = .ok table') : Collects table ts table' := by
  induction ts generalizing table with
  | nil =>
    cases h
    exact .nil
  | cons t rest ih =>
    unfold declareAll at h
    split_ifs at h with hdefine
    · obtain ⟨⟨_, _⟩, hdeclare, hrest⟩ := ok_of_bind h
      obtain ⟨f, hf, hpair⟩ := ok_of_bind hdeclare
      cases hpair
      obtain ⟨id, header, nameId, name, left, index, params, body, rfl, hname, hget, hchain, rfl⟩ :=
        functionOf_eq_ok hf
      exact .define hname hget hchain (ih hrest)
    · exact .other hdefine (ih h)

/-- The functions of a chain of statements are those that its links define. -/
theorem build_eq_ok {t : Term} {table : FunctionTable} :
    build t = .ok table ↔ t.IsChain .stmt ∧ declareAll [] t.links = .ok table := by
  constructor
  · intro h
    obtain ⟨_, helements, hdeclare⟩ := ok_of_bind h
    obtain ⟨hchain, rfl⟩ := Term.elements_eq_ok.mp helements
    exact ⟨hchain, hdeclare⟩
  · rintro ⟨hchain, hdeclare⟩
    rw [build, Term.elements_eq_ok.mpr ⟨hchain, rfl⟩]
    exact hdeclare

/-- Where a function of the table comes from. -/
theorem Collects.origin {table table' : FunctionTable} {ts : List Term}
    (h : Collects table ts table') {f : Function} (hf : f ∈ table') :
    f ∈ table ∨ ∃ header nameId left index params, f.params = params.links ∧
      .node f.node (.keyword .define)
        (.node header (.keyword .func) (.node nameId (.ident f.name) left index) params)
        f.body ∈ ts := by
  induction h with
  | nil => exact .inl hf
  | define _ _ _ _ ih =>
    rcases ih hf with hf | ⟨header, nameId, left, index, params, hparams, hmem⟩
    · rcases List.mem_append.mp hf with hf | hf
      · exact .inl hf
      · obtain rfl := List.mem_singleton.mp hf
        exact .inr ⟨_, _, _, _, _, rfl, List.mem_cons_self⟩
    · exact .inr ⟨header, nameId, left, index, params, hparams, List.mem_cons_of_mem _ hmem⟩
  | other _ _ ih =>
    rcases ih hf with hf | ⟨header, nameId, left, index, params, hparams, hmem⟩
    · exact .inl hf
    · exact .inr ⟨header, nameId, left, index, params, hparams, List.mem_cons_of_mem _ hmem⟩

/-- Names are valid and distinct. -/
structure WellNamed (table : FunctionTable) : Prop where
  isName : ∀ f ∈ table, Function.isName f.name = true
  nodup : (table.map Function.name).Nodup

theorem Collects.wellNamed {table table' : FunctionTable} {ts : List Term}
    (h : Collects table ts table') (ht : table.WellNamed) : table'.WellNamed := by
  induction h with
  | nil => exact ht
  | @define table _ _ _ _ name _ _ _ _ _ hname hget _ _ ih =>
    apply ih
    have hnew : ∀ f ∈ table, f.name ≠ name := by
      intro f hf
      simpa using List.find?_eq_none.mp hget f hf
    constructor
    · intro f hf
      rcases List.mem_append.mp hf with hf | hf
      · exact ht.isName f hf
      · rw [List.mem_singleton.mp hf]
        exact hname
    · rw [List.map_append, List.nodup_append]
      refine ⟨ht.nodup, by simp, ?_⟩
      intro x hx y hy
      obtain ⟨f, hf, rfl⟩ := List.mem_map.mp hx
      rw [List.map_singleton, List.mem_singleton] at hy
      subst hy
      exact hnew f hf
  | other _ _ ih => exact ih ht

theorem get?_eq_some {table : FunctionTable} {name : String} {f : Function}
    (h : table.get? name = some f) : f ∈ table ∧ f.name = name :=
  ⟨List.mem_of_find?_eq_some h, by simpa using List.find?_some h⟩

/-- A call resolves to the function that its callee names. -/
theorem resolve_eq_ok {table : FunctionTable} {id : NodeId} {callee : Term} {f : Function} :
    table.resolve id callee = .ok f ↔
      ∃ calleeId name left index, callee = .node calleeId (.ident name) left index ∧
        table.get? name = some f := by
  constructor
  · intro h
    obtain ⟨_, -, hident⟩ := ok_of_bind h
    obtain ⟨name, hname, hget⟩ := ok_of_bind hident
    obtain ⟨calleeId, left, index, rfl⟩ := Lowering.expectIdent_eq_ok.mp hname
    refine ⟨calleeId, name, left, index, rfl, ?_⟩
    cases hfound : table.get? name with
    | none => simp [hfound] at hget
    | some g =>
      simp only [hfound] at hget
      cases hget
      rfl
  · rintro ⟨calleeId, name, left, index, rfl, hget⟩
    simp [resolve, Term.require, Term.isAbsent, Term.expectIdent, Term.ident?, hget,
      bind, Except.bind, pure, Except.pure]

/-- What a call resolves to is found under its name. -/
theorem get?_of_resolve {table : FunctionTable} {id : NodeId} {callee : Term} {f : Function}
    (h : table.resolve id callee = .ok f) : table.get? f.name = some f := by
  obtain ⟨_, -, h₁⟩ := ok_of_bind h
  obtain ⟨name, -, h₂⟩ := ok_of_bind h₁
  cases hget : table.get? name with
  | none => simp [hget] at h₂
  | some g =>
    simp only [hget] at h₂
    cases h₂
    rwa [(get?_eq_some hget).2]

/-- What a call resolves to is a function of the table. -/
theorem mem_of_resolve {table : FunctionTable} {id : NodeId} {callee : Term} {f : Function}
    (h : table.resolve id callee = .ok f) : f ∈ table :=
  (get?_eq_some (get?_of_resolve h)).1

end FunctionTable

namespace Lowering

variable {table : FunctionTable} {globals : Frame}

/-- The frame after some parameters are declared in it. -/
inductive Declares (globals : Frame) : Frame → List Term → Frame → Prop
  | nil {f : Frame} : Declares globals f [] f
  | cons {f g h : Frame} {v : Variable} {id : NodeId} {name : String} {left : Term}
      {rest : List Term} :
      globals.find? name = none → f.declare (.node id (.ident name) left .absent) = .ok (v, g) →
      Declares globals g rest h →
      Declares globals f (.node id (.ident name) left .absent :: rest) h

/-- The code of a function's block and its final frame. -/
structure Defines (table : FunctionTable) (globals : Frame) (f : Function) (code : Code)
    (frame : Frame) : Prop where
  body_present : f.body.isAbsent = false
  lowered : ∃ start body, Declares globals (.empty .bx) f.params start ∧
    Compiles table .chain ⟨globals, some start⟩ f.body body ⟨globals, some frame⟩ ∧
    code = .label f.name ++ Code.indented body

/-- The blocks of some functions, one after another, and their frames. -/
inductive DefinesAll (table : FunctionTable) (globals : Frame) :
    List Function → Code → List (String × Frame) → Prop
  | nil : DefinesAll table globals [] [] []
  | cons {f : Function} {rest : List Function} {code more : Code} {frame : Frame}
      {frames : List (String × Frame)} :
      Defines table globals f code frame → DefinesAll table globals rest more frames →
      DefinesAll table globals (f :: rest) (code ++ more) ((f.name, frame) :: frames)

/-- The code of the initializers among some statements. -/
inductive Initializes (table : FunctionTable) : Scopes → List Term → Code → Scopes → Prop
  | nil {s : Scopes} : Initializes table s [] [] s
  | assign {s s' s'' : Scopes} {id : NodeId} {left right : Term} {rest : List Term}
      {code more : Code} :
      Compiles table .statement s (.node id (.keyword .assign) left right) code s' →
      Initializes table s' rest more s'' →
      Initializes table s (.node id (.keyword .assign) left right :: rest) (code ++ more) s''
  | other {s s' : Scopes} {t : Term} {rest : List Term} {code : Code} :
      t.keyword? ≠ some .assign → Initializes table s rest code s' →
      Initializes table s (t :: rest) code s'

theorem Declares.extends {f g : Frame} {ts : List Term} (h : Declares globals f ts g) :
    f.Extends g := by
  induction h with
  | nil => exact .refl _
  | cons _ hdeclare _ ih => exact (Frame.extends_of_declare hdeclare).trans ih

/-- A parameter's variable is declared by its identifier. -/
theorem Declares.node_mem {f g : Frame} {ts : List Term} (h : Declares globals f ts g)
    {v : Variable} (hv : v ∈ g.declared) : v ∈ f.declared ∨ v.node ∈ ts.flatMap Term.ids := by
  induction h with
  | nil => exact .inl hv
  | cons _ hdeclare _ ih =>
    rcases ih hv with hv | hv
    · obtain ⟨_, _, _, _, _, hterm, -, -, rfl, -, rfl⟩ := Frame.declare_eq_ok.mp hdeclare
      cases hterm
      rcases List.mem_append.mp hv with hv | hv
      · exact .inl hv
      · rw [List.mem_singleton.mp hv]
        exact .inr (by simp [Term.ids])
    · exact .inr (by simp [hv])

theorem declares_of_runs {ts : List Term} {f : Frame} {u : Unit} {s' : Scopes}
    (h : Runs (parameters ts) ⟨globals, some f⟩ u s') :
    ∃ g, s' = ⟨globals, some g⟩ ∧ Declares globals f ts g := by
  induction ts generalizing f with
  | nil =>
    simp only [parameters, runs_pure] at h
    exact ⟨f, h.2, .nil⟩
  | cons t rest ih =>
    simp only [parameters, runs_bind, runs_lift, runs_ite, runs_scopes, runs_current,
      runs_setCurrent, not_runs_throw, expectIdent_eq_ok, false_and, exists_false,
      if_false_left] at h
    obtain ⟨name, _, ⟨⟨id, left, index, rfl⟩, rfl⟩, hplain, _, _, ⟨rfl, rfl⟩, hglobal, _, _,
      ⟨rfl, rfl⟩, ⟨v, f'⟩, _, ⟨hdeclare, rfl⟩, _, _, rfl, hrest⟩ := h
    obtain ⟨g, rfl, hg⟩ := ih hrest
    obtain rfl : index = .absent := eq_absent_of_isAbsent (by simpa [Term.right] using hplain)
    exact ⟨g, rfl, .cons (by simpa using hglobal) hdeclare hg⟩

theorem defines_of_runs {f : Function} {code : Code} {frame : Frame} {s s' : Scopes}
    (h : Runs (definition table f) s (code, frame) s') :
    s' = ⟨s.globals, none⟩ ∧ Defines table s.globals f code frame := by
  unfold definition at h
  simp only [runs_bind, runs_lift, runs_emit, runs_pure, Term.require_eq_ok] at h
  obtain ⟨_, _, ⟨hbody, rfl⟩, ⟨body, frame'⟩, _, hlocals, _, _, rfl, hpair, rfl⟩ := h
  obtain ⟨rfl, rfl⟩ := Prod.mk.inj hpair
  obtain ⟨t, hrun, rfl, rfl⟩ := runs_withLocals.mp hlocals
  obtain ⟨_, s₁, hparams, hblock⟩ := runs_bind.mp hrun
  obtain ⟨start, rfl, hdeclares⟩ := declares_of_runs hparams
  have hcompiles := compiles_of_runs_block hblock
  obtain ⟨frame, rfl, -⟩ := hcompiles.extends.local
  exact ⟨rfl, hbody, start, body, hdeclares, hcompiles, rfl⟩

theorem initializes_of_runs {ts : List Term} {s s' : Scopes} {code : Code}
    (h : Runs (initializers table ts) s code s') : Initializes table s ts code s' := by
  induction ts generalizing s code with
  | nil =>
    simp only [initializers, runs_pure] at h
    obtain ⟨rfl, rfl⟩ := h
    exact .nil
  | cons t rest ih =>
    unfold initializers at h
    split at h
    · simp only [runs_bind, runs_pure] at h
      obtain ⟨code, s₁, hcode, more, _, hmore, rfl, rfl⟩ := h
      exact .assign (compiles_assignment hcode) (ih hmore)
    · exact .other (by simp [Term.keyword?]) (ih h)
    · rename_i hassign _
      simp only [runs_bind, runs_emit] at h
      obtain ⟨_, _, rfl, h⟩ := h
      refine .other ?_ (ih h)
      intro hkeyword
      obtain ⟨id, left, right, rfl⟩ := Term.keyword?_eq_some.mp hkeyword
      exact hassign id left right rfl

/-- The parts of a compiled program: the code of the initializers `start`, the preamble, and the
blocks of the functions. -/
structure Anatomy (t : Term) (p : Program) (start bodies : Code) : Prop where
  chain : t.IsChain .stmt
  collects : FunctionTable.Collects [] t.links p.functions
  initializes : Initializes p.functions ⟨.empty .cx, none⟩ t.links start ⟨p.globals, none⟩
  definesAll : DefinesAll p.functions p.globals p.functions bodies p.frames
  code : p.code = start ++ preamble p.globals.size ++ bodies

theorem Initializes.extends {s s' : Scopes} {ts : List Term} {code : Code}
    (h : Initializes table s ts code s') : s.Extends s' := by
  induction h with
  | nil => exact .refl _
  | assign hcompiles _ ih => exact hcompiles.extends.trans ih
  | other _ _ ih => exact ih

/-- A global is declared by an identifier of an assignment at the top level. -/
theorem Initializes.node_mem {s s' : Scopes} {ts : List Term} {code : Code}
    (h : Initializes table s ts code s') {v : Variable} (hv : v ∈ s'.current.declared) :
    v ∈ s.current.declared ∨ ∃ t ∈ ts, t.keyword? = some .assign ∧ v.node ∈ t.ids := by
  induction h with
  | nil => exact .inl hv
  | assign hassign _ ih =>
    rcases ih hv with hv | ⟨t, ht, hkeyword, hid⟩
    · rcases hassign.node_mem hv with hv | hid
      · exact .inl hv
      · exact .inr ⟨_, List.mem_cons_self, rfl, hid⟩
    · exact .inr ⟨t, List.mem_cons_of_mem _ ht, hkeyword, hid⟩
  | other _ _ ih =>
    rcases ih hv with hv | ⟨t, ht, hkeyword, hid⟩
    · exact .inl hv
    · exact .inr ⟨t, List.mem_cons_of_mem _ ht, hkeyword, hid⟩

theorem runs_emit_bind {α : Type} {e : Event} {f : Unit → Lowering α} {s s' : Scopes} {a : α} :
    Runs (emit e >>= f) s a s' ↔ Runs (f ()) s a s' := by
  simp [Unique.exists_iff]

/-- The block and the frame that a function gives when it is lowered by itself. -/
def unitOf (table : FunctionTable) (globals : Frame) (f : Function) : Code × Frame :=
  (function table globals f).result.toOption.getD ([], .empty .bx)

theorem unitOf_eq {f : Function} {r : Code × Frame} {s' : Scopes}
    (h : Runs (definition table f) ⟨globals, none⟩ r s') : unitOf table globals f = r := by
  rw [unitOf, function, h.1]
  rfl

/-- Functions are lowered one by one, each from the same scopes. -/
theorem runs_definitions {fs : List Function} {r : Code × List (String × Frame)} {s' : Scopes} :
    Runs (definitions table fs) ⟨globals, none⟩ r s' ↔
      (∀ f ∈ fs,
          Runs (definition table f) ⟨globals, none⟩ (unitOf table globals f) ⟨globals, none⟩) ∧
        r = (fs.flatMap fun f => (unitOf table globals f).1,
          fs.map fun f => (f.name, (unitOf table globals f).2)) ∧
        s' = ⟨globals, none⟩ := by
  induction fs generalizing r with
  | nil => simp [definitions]
  | cons f rest ih =>
    simp only [definitions, runs_bind, runs_pure, List.forall_mem_cons]
    constructor
    · rintro ⟨⟨code, frame⟩, s₁, hfirst, ⟨more, frames⟩, _, hrest, rfl, rfl⟩
      obtain ⟨rfl, -⟩ := defines_of_runs hfirst
      obtain ⟨hall, hpair, rfl⟩ := ih.mp hrest
      obtain ⟨rfl, rfl⟩ := Prod.mk.inj hpair
      have hunit := unitOf_eq hfirst
      simp only [List.flatMap_cons, List.map_cons, hunit, and_true]
      exact ⟨hfirst, hall⟩
    · rintro ⟨⟨hfirst, hall⟩, rfl, rfl⟩
      exact ⟨unitOf table globals f, _, hfirst, _, _, ih.mpr ⟨hall, rfl, rfl⟩, rfl, rfl⟩

theorem definesAll_unitOf {fs : List Function}
    (h : ∀ f ∈ fs,
      Runs (definition table f) ⟨globals, none⟩ (unitOf table globals f) ⟨globals, none⟩) :
    DefinesAll table globals fs (fs.flatMap fun f => (unitOf table globals f).1)
      (fs.map fun f => (f.name, (unitOf table globals f).2)) := by
  induction fs with
  | nil => exact .nil
  | cons f rest ih =>
    rw [List.forall_mem_cons] at h
    exact .cons (defines_of_runs h.1).2 (ih h.2)

/-- What a program is compiled to: the functions are collected, the initializers of the globals are
lowered, and then each function by itself. -/
structure Parts (t : Term) (p : Program) (start : Code) : Prop where
  present : t.isAbsent = false
  chain : t.IsChain .stmt
  declares : FunctionTable.declareAll [] t.links = .ok p.functions
  initializes : Runs (initializers p.functions t.links) ⟨.empty .cx, none⟩ start ⟨p.globals, none⟩
  defines : ∀ f ∈ p.functions,
    Runs (definition p.functions f) ⟨p.globals, none⟩ (unitOf p.functions p.globals f)
      ⟨p.globals, none⟩
  code : p.code = start ++ preamble p.globals.size ++
    p.functions.flatMap fun f => (unitOf p.functions p.globals f).1
  frames : p.frames = p.functions.map fun f => (f.name, (unitOf p.functions p.globals f).2)

theorem runs_programOf {ts : List Term} {s s' : Scopes} {p : Program} :
    Runs (programOf table ts) s p s' ↔
      ∃ start s₁ r, Runs (initializers table ts) s start s₁ ∧
        Runs (definitions table table) s₁ r s' ∧
        p = ⟨start ++ preamble s₁.globals.size ++ r.1, table, s'.globals, r.2⟩ := by
  simp [programOf, ↓runs_emit_bind, and_assoc]

theorem compile_eq_ok_iff {a : Arena} {p : Program} :
    a.compile = .ok p ↔ ∃ start, Parts a.rootTerm p start := by
  have hruns : a.compile = .ok p ↔ ∃ s', Runs (program a.rootTerm) ⟨.empty .cx, none⟩ p s' :=
    ⟨fun h => ⟨_, h, rfl⟩, fun ⟨_, h, _⟩ => h⟩
  rw [hruns]
  unfold program
  simp only [↓runs_emit_bind, runs_bind, runs_lift, runs_ite, not_runs_throw, false_and,
    exists_false, if_false_left, ite_self, Term.elements_eq_ok, FunctionTable.build_eq_ok,
    runs_programOf]
  constructor
  · rintro ⟨_, hpresent, table, _, ⟨⟨hchain, hdeclares⟩, rfl⟩, _, _, ⟨⟨-, rfl⟩, rfl⟩, start, s₁,
      ⟨bodies, frames⟩, hstart, hbodies, rfl⟩
    obtain ⟨globals, rfl, -⟩ := (initializes_of_runs hstart).extends.global
    obtain ⟨hdefines, hpair, rfl⟩ := runs_definitions.mp hbodies
    obtain ⟨rfl, rfl⟩ := Prod.mk.inj hpair
    exact ⟨start, by simpa using hpresent, hchain, hdeclares, hstart, hdefines, rfl, rfl⟩
  · rintro ⟨start, h⟩
    refine ⟨_, by simpa using h.present, p.functions, _, ⟨⟨h.chain, h.declares⟩, rfl⟩, _, _,
      ⟨⟨h.chain, rfl⟩, rfl⟩, start, _, _, h.initializes,
      runs_definitions.mpr ⟨h.defines, rfl, rfl⟩, ?_⟩
    rw [← h.code, ← h.frames]

theorem Parts.anatomy {t : Term} {p : Program} {start : Code} (h : Parts t p start) :
    Anatomy t p start (p.functions.flatMap fun f => (unitOf p.functions p.globals f).1) where
  chain := h.chain
  collects := FunctionTable.collects_of_declareAll h.declares
  initializes := initializes_of_runs h.initializes
  definesAll := by
    rw [h.frames]
    exact definesAll_unitOf h.defines
  code := h.code

theorem anatomy_of_compile {a : Arena} {p : Program} (h : a.compile = .ok p) :
    ∃ start bodies, Anatomy a.rootTerm p start bodies := by
  obtain ⟨start, hparts⟩ := compile_eq_ok_iff.mp h
  exact ⟨start, _, hparts.anatomy⟩

end Lowering

end StackCompiler
