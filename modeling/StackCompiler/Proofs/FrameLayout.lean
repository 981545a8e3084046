import StackCompiler.SymbolMap
import StackCompiler.Proofs.Blocks
import Mathlib.Data.List.Chain

/-!
# The layout of frames

In a finished frame the variables stand side by side in the order of their declarations, from slot
zero to the end of the frame. A declaration keeps this so long as no slots are reserved for
arguments, and between statements none are: the slots of a call are free again before control is
passed. Parameters are declared first, and no local has the name of a global. The symbol map repeats
these tables.
-/
namespace StackCompiler

namespace Frame

/-- The variables fill the frame without gaps, in the order of their declarations. -/
structure Tiled (f : Frame) : Prop where
  first : ∀ v, f.declared.head? = some v → v.shift = 0
  next : f.declared.IsChain fun v w => w.shift = v.shift + v.size
  positive : ∀ v ∈ f.declared, 1 ≤ v.size
  last : f.size = (f.declared.getLast?.map fun v => v.shift + v.size).getD 0
  bounded : f.size ≤ maxSize
  distinct : (f.declared.map Variable.name).Nodup

theorem Tiled.empty (base : Register) : (Frame.empty base).Tiled :=
  ⟨by simp [Frame.empty], .nil, by simp [Frame.empty], rfl, Nat.zero_le _, List.nodup_nil⟩

/-- A declared length is at least one. -/
theorem one_le_of_lengthOf? {index : Term} {length : Option Nat}
    (h : lengthOf? index = some length) : 1 ≤ length.getD 1 := by
  unfold lengthOf? at h
  split_ifs at h with habsent
  · cases h
    exact Nat.le_refl 1
  · split at h
    · split_ifs at h with hbounds
      cases h
      exact hbounds.1
    · cases h

/-- A declared length is written as a literal, or left out. -/
theorem literal_of_lengthOf? {index : Term} {length : Option Nat}
    (h : lengthOf? index = some length) :
    index = .absent ∨ ∃ id n left right, index = .node id (.number n) left right := by
  unfold lengthOf? at h
  cases index with
  | absent => exact .inl rfl
  | dangling id => simp [Term.isAbsent, Term.number?] at h
  | node id kind left right =>
    cases kind with
    | number n => exact .inr ⟨id, n, left, right, rfl⟩
    | ident name => simp [Term.isAbsent, Term.number?] at h
    | keyword tag => simp [Term.isAbsent, Term.number?] at h

theorem find?_eq_none {f : Frame} {name : String} :
    f.find? name = none ↔ name ∉ f.declared.map Variable.name := by
  unfold Frame.find?
  rw [List.find?_eq_none]
  simp

/-- A declaration puts its variable at the end. -/
theorem Tiled.declare {f g : Frame} {t : Term} {v : Variable} (hf : f.Tiled)
    (h : f.declare t = .ok (v, g)) : g.Tiled := by
  obtain ⟨id, name, left, index, length, rfl, hnone, hlength, hv, hsize, rfl⟩ := declare_eq_ok.mp h
  have hshift : v.shift = f.size := by rw [hv]
  constructor
  · intro w hw
    cases hdeclared : f.declared with
    | nil =>
      have hempty : f.size = 0 := by simpa [hdeclared] using hf.last
      obtain rfl : v = w := by simpa [hdeclared] using hw
      rw [hshift, hempty]
    | cons u rest =>
      apply hf.first w
      simpa [hdeclared] using hw
  · rw [List.isChain_append]
    refine ⟨hf.next, List.isChain_singleton v, ?_⟩
    intro u hu w hw
    obtain rfl : v = w := by simpa using hw
    have hlast := hf.last
    rw [Option.mem_def.mp hu] at hlast
    rw [hshift, hlast]
    rfl
  · intro w hw
    rcases List.mem_append.mp hw with hw | hw
    · exact hf.positive w hw
    · obtain rfl : w = v := List.mem_singleton.mp hw
      rw [hv]
      exact one_le_of_lengthOf? hlength
  · rw [List.getLast?_concat, Option.map_some, Option.getD_some, hshift]
  · exact hsize
  · rw [List.map_append, List.map_singleton, List.nodup_append]
    refine ⟨hf.distinct, by simp, ?_⟩
    intro x hx y hy
    obtain rfl : y = v.name := List.mem_singleton.mp hy
    rintro rfl
    rw [hv] at hx
    exact find?_eq_none.mp hnone hx

/-- How many slots some variables take. -/
def slots : List Variable → Nat
  | [] => 0
  | v :: vs => v.size + slots vs

@[simp] theorem slots_nil : slots [] = 0 := rfl

@[simp] theorem slots_cons (v : Variable) (vs : List Variable) :
    slots (v :: vs) = v.size + slots vs := rfl

@[simp] theorem slots_append (vs ws : List Variable) : slots (vs ++ ws) = slots vs + slots ws := by
  induction vs with
  | nil => simp
  | cons v vs ih => rw [List.cons_append, slots_cons, slots_cons, ih, Nat.add_assoc]

/-- A variable lies behind those declared before it. -/
theorem Tiled.shift_eq {f : Frame} (hf : f.Tiled) {before after : List Variable} {v : Variable}
    (h : f.declared = before ++ v :: after) : v.shift = slots before := by
  induction before using List.reverseRecOn generalizing v after with
  | nil => exact hf.first v (by simp [h])
  | append_singleton before u ih =>
    have hsplit : f.declared = before ++ u :: v :: after := by simp [h]
    have hu : u.shift = slots before := ih hsplit
    have hnext := hf.next
    rw [h, List.append_assoc, List.isChain_append] at hnext
    have hchain := hnext.2.1
    rw [List.singleton_append, List.isChain_cons_cons] at hchain
    rw [hchain.1, hu, slots_append, slots_cons, slots_nil, Nat.add_zero]

theorem Tiled.size_eq {f : Frame} (hf : f.Tiled) : f.size = slots f.declared := by
  cases hdeclared : f.declared using List.reverseRecOn with
  | nil => simpa [hdeclared] using hf.last
  | append_singleton before v =>
    have hlast := hf.last
    have hshift : v.shift = slots before := hf.shift_eq hdeclared
    rw [hdeclared, List.getLast?_concat, Option.map_some, Option.getD_some, hshift] at hlast
    simpa using hlast

/-- A variable among the first ones ends where they end, at the latest. -/
theorem Tiled.limit_le {f : Frame} (hf : f.Tiled) {first : List Variable}
    (hfirst : first <+: f.declared) {v : Variable} (hv : v ∈ first) :
    v.shift + v.size ≤ slots first := by
  obtain ⟨after, hafter⟩ := hfirst
  obtain ⟨a, b, rfl⟩ := List.append_of_mem hv
  rw [List.append_assoc, List.cons_append] at hafter
  rw [hf.shift_eq hafter.symm]
  simp only [slots_append, slots_cons]
  omega

theorem Tiled.limit_le_maxSize {f : Frame} (hf : f.Tiled) {v : Variable} (hv : v ∈ f.declared) :
    v.shift + v.size ≤ maxSize := by
  have hle := hf.limit_le List.prefix_rfl hv
  have hsize := hf.size_eq
  have hbounded := hf.bounded
  omega

/-- A variable that is not among the first ones starts where they end, at the earliest. -/
theorem Tiled.le_shift {f : Frame} (hf : f.Tiled) {first : List Variable}
    (hfirst : first <+: f.declared) {v : Variable} (hv : v ∈ f.declared) (hnot : v ∉ first) :
    slots first ≤ v.shift := by
  obtain ⟨after, hafter⟩ := hfirst
  rw [← hafter, List.mem_append] at hv
  obtain ⟨a, b, rfl⟩ := List.append_of_mem (hv.resolve_left hnot)
  rw [← List.append_assoc] at hafter
  rw [hf.shift_eq hafter.symm]
  simp only [slots_append]
  omega

/-- The place of a variable tells it from the others. -/
theorem Tiled.eq_of_shift {f : Frame} (hf : f.Tiled) {v w : Variable} (hv : v ∈ f.declared)
    (hw : w ∈ f.declared) (h : v.shift = w.shift) : v = w := by
  obtain ⟨before, after, hsplit⟩ := List.append_of_mem hv
  have hshift : v.shift = slots before := hf.shift_eq hsplit
  have hthrough : before ++ [v] <+: f.declared := ⟨after, by simp [hsplit]⟩
  by_cases hmem : w ∈ before ++ [v]
  · rcases List.mem_append.mp hmem with hmem | hmem
    · have hlimit := hf.limit_le ((List.prefix_append _ _).trans hthrough) hmem
      have hpositive := hf.positive w hw
      omega
    · exact (List.mem_singleton.mp hmem).symm
  · have hle := hf.le_shift hthrough hw hmem
    have hpositive := hf.positive v hv
    simp only [slots_append, slots_cons, slots_nil] at hle
    omega

end Frame

namespace Scopes

theorem globals_find?_eq_none {s : Scopes} {name : String} (h : s.find? name = none) :
    s.globals.find? name = none := by
  cases hglobal : s.globals.find? name with
  | none => rfl
  | some v => simp [Scopes.find?, hglobal] at h

/-- The registers that frames are relative to. -/
structure Based (s : Scopes) : Prop where
  globals : s.globals.base = .cx
  locals : ∀ f, s.locals = some f → f.base = .bx

theorem Based.setCurrent {s : Scopes} (hs : s.Based) {f : Frame} (hf : f.base = s.current.base) :
    (s.setCurrent f).Based := by
  obtain ⟨globals, locals⟩ := s
  cases locals with
  | none => exact ⟨hf.trans hs.globals, by rintro g ⟨⟩⟩
  | some g =>
    refine ⟨hs.globals, ?_⟩
    rintro g' ⟨⟩
    exact hf.trans (hs.locals g rfl)

theorem Based.mono {s s' : Scopes} (hs : s.Based) (h : s.Extends s') : s'.Based := by
  obtain ⟨f, rfl, hf⟩ := h
  exact hs.setCurrent hf.base

/-- Scopes between statements: both frames are tiled, and no local hides behind a global. -/
structure Laid (s : Scopes) : Prop extends s.Based where
  tiled : s.globals.Tiled
  localsTiled : ∀ f, s.locals = some f → f.Tiled
  apart : ∀ f, s.locals = some f → ∀ v ∈ f.declared, s.globals.find? v.name = none

theorem Laid.empty : Laid ⟨.empty .cx, none⟩ where
  globals := rfl
  locals := by simp
  tiled := .empty .cx
  localsTiled := by simp
  apart := by simp

theorem Laid.current_tiled {s : Scopes} (h : s.Laid) : s.current.Tiled := by
  unfold Scopes.current
  cases hlocals : s.locals with
  | none => exact h.tiled
  | some f => exact h.localsTiled f hlocals

/-- A function starts with an empty frame. -/
theorem Laid.enter {globals : Frame} (h : Laid ⟨globals, none⟩) :
    Laid ⟨globals, some (.empty .bx)⟩ where
  globals := h.globals
  locals := by
    rintro f ⟨⟩
    rfl
  tiled := h.tiled
  localsTiled := by
    rintro f ⟨⟩
    exact .empty .bx
  apart := by
    rintro f ⟨⟩ v hv
    cases hv

/-- The declaration of a new name keeps the frames in order. -/
theorem Laid.declare {s : Scopes} (h : s.Laid) {t : Term} {v : Variable} {frame : Frame}
    (hdeclare : s.current.declare t = .ok (v, frame)) (hglobal : s.globals.find? v.name = none) :
    (s.setCurrent frame).Laid := by
  have htiled := h.current_tiled.declare hdeclare
  have hbase := (Frame.extends_of_declare hdeclare).base
  obtain ⟨globals, locals⟩ := s
  cases locals with
  | none =>
    exact ⟨⟨hbase.trans h.globals, by rintro f ⟨⟩⟩, htiled, by rintro f ⟨⟩, by rintro f ⟨⟩⟩
  | some f =>
    refine ⟨⟨h.globals, ?_⟩, h.tiled, ?_, ?_⟩
    · rintro g ⟨⟩
      exact hbase.trans (h.locals f rfl)
    · rintro g ⟨⟩
      exact htiled
    · rintro g ⟨⟩ w hw
      obtain ⟨_, _, _, _, _, -, -, -, -, -, hframe⟩ := Frame.declare_eq_ok.mp hdeclare
      rw [hframe] at hw
      rcases List.mem_append.mp hw with hw | hw
      · exact h.apart f rfl w hw
      · rw [List.mem_singleton.mp hw]
        exact hglobal

end Scopes

namespace Lowering

variable {table : FunctionTable} {globals : Frame}

theorem Targets.laid {s s' : Scopes} {t : Term} {address : Address} {load : List Instruction}
    (h : Targets table s t address load s') (hs : s.Laid) : s'.Laid := by
  cases h with
  | declared => exact hs
  | fresh hnone hdeclare =>
    refine hs.declare hdeclare ?_
    obtain ⟨_, _, _, _, _, hterm, -, -, rfl, -, -⟩ := Frame.declare_eq_ok.mp hdeclare
    cases hterm
    exact Scopes.globals_find?_eq_none hnone

/-- Statements keep the frames in order. -/
theorem Compiles.laid {form : Form} {s s' : Scopes} {t : Term} {code : Code}
    (h : Compiles table form s t code s') (hs : s.Laid) : s'.Laid := by
  induction h with
  | assign _ htarget => exact htarget.laid hs
  | ifThen _ _ _ ih => exact ih hs
  | ifElse _ _ _ _ _ ihthen ihelse => exact ihelse (ihthen hs)
  | whileLoop _ _ _ ih => exact ih hs
  | ret => exact hs
  | display => exact hs
  | out => exact hs
  | call => exact hs
  | nil => exact hs
  | cons _ _ ih ihlast => exact ihlast (ih hs)

theorem Initializes.laid {s s' : Scopes} {ts : List Term} {code : Code}
    (h : Initializes table s ts code s') (hs : s.Laid) : s'.Laid := by
  induction h with
  | nil => exact hs
  | assign hassign _ ih => exact ih (hassign.laid hs)
  | other _ _ ih => exact ih hs

theorem Declares.laid {f g : Frame} {ts : List Term} (h : Declares globals f ts g)
    (hf : Scopes.Laid ⟨globals, some f⟩) : Scopes.Laid ⟨globals, some g⟩ := by
  induction h with
  | nil => exact hf
  | cons hglobal hdeclare _ ih =>
    refine ih (hf.declare hdeclare ?_)
    obtain ⟨_, _, _, _, _, hterm, -, -, rfl, -, -⟩ := Frame.declare_eq_ok.mp hdeclare
    cases hterm
    exact hglobal

/-- What a parameter's variable is: one slot, under the parameter's name. -/
structure IsParameter (t : Term) (v : Variable) : Prop where
  name : t.ident? = some v.name
  node : v.node = t.id
  size : v.size = 1

/-- Parameters are declared one after another. -/
theorem Declares.parameters {f g : Frame} {ts : List Term} (h : Declares globals f ts g) :
    ∃ vs, g.declared = f.declared ++ vs ∧ List.Forall₂ IsParameter ts vs := by
  induction h with
  | nil => exact ⟨[], by simp, .nil⟩
  | cons _ hdeclare _ ih =>
    obtain ⟨vs, hdeclared, hall⟩ := ih
    obtain ⟨_, _, _, _, length, hterm, -, hlength, rfl, -, rfl⟩ := Frame.declare_eq_ok.mp hdeclare
    cases hterm
    cases hlength
    rw [List.append_assoc, List.singleton_append] at hdeclared
    exact ⟨_, hdeclared, .cons ⟨rfl, rfl, rfl⟩ hall⟩

/-- The final frame of a function. -/
theorem Defines.laid {f : Function} {code : Code} {frame : Frame}
    (h : Defines table globals f code frame) (hglobals : Scopes.Laid ⟨globals, none⟩) :
    Scopes.Laid ⟨globals, some frame⟩ := by
  obtain ⟨-, start, body, hdeclares, hbody, -⟩ := h
  exact hbody.laid (hdeclares.laid hglobals.enter)

/-- The variables of the parameters are the first of a frame that grew from them. -/
theorem Declares.take_eq {base : Register} {start frame : Frame} {ts : List Term}
    (h : Declares globals (.empty base) ts start) (hframe : start.declared <+: frame.declared) :
    frame.declared.take ts.length = start.declared := by
  obtain ⟨vs, hstart, hall⟩ := h.parameters
  obtain ⟨more, hmore⟩ := hframe
  have hlength : ts.length = start.declared.length := by
    rw [hstart, hall.length_eq]
    rfl
  rw [← hmore, hlength, List.take_left]

/-- A function's frame starts with its parameters. -/
theorem Defines.parameters {f : Function} {code : Code} {frame : Frame}
    (h : Defines table globals f code frame) :
    List.Forall₂ IsParameter f.params (frame.declared.take f.arity) := by
  obtain ⟨-, start, body, hdeclares, hbody, -⟩ := h
  obtain ⟨vs, hstart, hall⟩ := hdeclares.parameters
  have htake : frame.declared.take f.arity = start.declared :=
    hdeclares.take_eq hbody.extends.current.declared
  rw [htake, hstart]
  exact hall

theorem Anatomy.laid {t : Term} {p : Program} {start bodies : Code}
    (h : Anatomy t p start bodies) : Scopes.Laid ⟨p.globals, none⟩ :=
  h.initializes.laid .empty

theorem DefinesAll.frames {fs : List Function} {code : Code} {frames : List (String × Frame)}
    (h : DefinesAll table globals fs code frames) :
    List.Forall₂ (fun f entry => entry.1 = f.name ∧ ∃ block, Defines table globals f block entry.2)
      fs frames := by
  induction h with
  | nil => exact .nil
  | cons hdefines _ ih => exact .cons ⟨rfl, _, hdefines⟩ ih

end Lowering

namespace FunctionTable

/-- The function that a definition gives. -/
structure IsDefinedBy (f : Function) (t : Term) : Prop where
  name : t.left.left.ident? = some f.name
  node : f.node = t.id
  params : f.params = t.left.right.links
  body : f.body = t.right

/-- Whether a term is a definition. -/
def isDefinition (t : Term) : Bool :=
  t.keyword? == some .define

/-- The functions of a table come from the definitions, in their order. -/
theorem Collects.definitions {table table' : FunctionTable} {ts : List Term}
    (h : Collects table ts table') :
    ∃ fs, table' = table ++ fs ∧
      List.Forall₂ IsDefinedBy fs (ts.filter isDefinition) := by
  induction h with
  | nil => exact ⟨[], by simp, .nil⟩
  | define _ _ _ _ ih =>
    obtain ⟨fs, htable, hall⟩ := ih
    refine ⟨_ :: fs, by rw [htable, List.append_assoc, List.singleton_append], ?_⟩
    rw [List.filter_cons_of_pos rfl]
    exact .cons ⟨rfl, rfl, rfl, rfl⟩ hall
  | other hother _ ih =>
    obtain ⟨fs, htable, hall⟩ := ih
    refine ⟨fs, htable, ?_⟩
    rw [List.filter_cons_of_neg (by simpa [isDefinition] using hother)]
    exact hall

end FunctionTable

/-- What a symbol map says of a function with the given frame. -/
def Frame.symbols (frame : Frame) (arity : Nat) : FunctionSymbols :=
  ⟨arity, frame.size, frame.declared.map fun v => (v.name, ⟨v.shift, v.size⟩)⟩

open Lowering in
/-- The symbol map has an entry for each function, from its frame. -/
theorem Lowering.Anatomy.symbols {t : Term} {p : Program} {start bodies : Code}
    (h : Anatomy t p start bodies) :
    List.Forall₂
      (fun definition entry => definition.left.left.ident? = some entry.1 ∧
        ∃ frame, p.frame? entry.1 = some frame ∧
          entry.2 = frame.symbols definition.left.right.links.length)
      (t.links.filter FunctionTable.isDefinition) (SymbolMap.ofProgram p).functions := by
  obtain ⟨fs, hfs, hdefinitions⟩ := h.collects.definitions
  obtain rfl : p.functions = fs := by simpa using hfs
  have hframes : ∀ f ∈ p.functions, ∃ frame, p.frame? f.name = some frame := by
    intro f hf
    obtain ⟨-, -, frame, -, -, hframe⟩ := h.blocks.2 f hf
    exact ⟨frame, hframe⟩
  have hall := ((List.forall₂_and_left _ _).mpr ⟨hframes, hdefinitions⟩).flip
  rw [SymbolMap.ofProgram, ← List.filterMap_some (l := t.links.filter FunctionTable.isDefinition)]
  refine List.rel_filterMap ?_ hall
  rintro definition f ⟨⟨frame, hframe⟩, hdefined⟩
  have hsymbols : SymbolMap.symbols? p f = some (f.name, frame.symbols f.arity) := by
    rw [SymbolMap.symbols?, hframe]
    rfl
  rw [hsymbols]
  refine .some ⟨hdefined.name, frame, hframe, ?_⟩
  rw [Function.arity, hdefined.params]

open Lowering in
/-- The layout of a compiled program. The globals and the locals of each function fill their frames
without gaps; locals are not named like globals, and the first of them are the parameters. The
symbol map has an entry for each definition at the top level, in their order, with the function's
arity and its frame, and lists the globals. -/
theorem frames_tiled_and_mapped (a : Arena) (p : Program) (h : a.compile = .ok p) :
    p.globals.Tiled ∧
      List.Forall₂
        (fun f entry => entry.1 = f.name ∧ entry.2.Tiled ∧
          (∀ v ∈ entry.2.declared, ∀ g ∈ p.globals.declared, v.name ≠ g.name) ∧
          List.Forall₂ IsParameter f.params (entry.2.declared.take f.arity))
        p.functions p.frames ∧
      List.Forall₂
        (fun definition entry => definition.left.left.ident? = some entry.1 ∧
          ∃ frame, p.frame? entry.1 = some frame ∧
            entry.2 = frame.symbols definition.left.right.links.length)
        (a.rootTerm.links.filter FunctionTable.isDefinition) (SymbolMap.ofProgram p).functions ∧
      (SymbolMap.ofProgram p).globals =
        p.globals.declared.map fun v => (v.name, ⟨v.shift, v.size⟩) := by
  obtain ⟨start, bodies, hanatomy⟩ := anatomy_of_compile h
  have hlaid := hanatomy.laid
  refine ⟨hlaid.tiled, ?_, hanatomy.symbols, rfl⟩
  refine hanatomy.definesAll.frames.imp ?_
  rintro f ⟨name, frame⟩ ⟨hname, block, hdefines⟩
  have hlocals := hdefines.laid hlaid
  refine ⟨hname, hlocals.localsTiled frame rfl, ?_, hdefines.parameters⟩
  intro v hv g hg heq
  have hnone := Frame.find?_eq_none.mp (hlocals.apart frame rfl v hv)
  exact hnone (heq ▸ List.mem_map_of_mem hg)

/-- Two globals, one of them an array, and a function with a parameter whose locals are declared
around a call. -/
def Tree.ledger : Tree :=
  let rate : Tree := .ident "rate" .absent
  let x : Tree := .ident "x" .absent
  let y : Tree := .ident "y" .absent
  let sum (n : Nat) : Tree := .keyword .call (.ident "sum" .absent)
    (.chain .param [.number (.ofNat n), rate])
  .chain .stmt
    [.keyword .assign (.ident "log" (.number (.ofNat 3))) (.number (.ofNat 0)),
      .keyword .assign rate (.number (.ofNat 2)),
      .keyword .define
        (.keyword .func (.ident "sum" .absent) (.chain .param [x, .ident "z" .absent]))
        (.chain .stmt
          [.keyword .assign (.ident "a" (.number (.ofNat 4))) x,
            .keyword .assign y (.keyword .add x (.ident "z" .absent)),
            .keyword .ret .absent y]),
      .keyword .define (.keyword .func (.ident "main" .absent) .absent)
        (.chain .stmt
          [.keyword .assign x (sum 5), .keyword .assign y (sum 6), .keyword .ret .absent y])]

theorem frames_tiled_and_mapped_ledger :
    (Arena.ofTree .ledger).compile = .ok (.ofTree .ledger) ∧
      (Program.ofTree .ledger).globals.Tiled ∧
      (SymbolMap.ofProgram (.ofTree .ledger)).functions =
        [("sum", ⟨2, 7, [("x", ⟨0, 1⟩), ("z", ⟨1, 1⟩), ("a", ⟨2, 4⟩), ("y", ⟨6, 1⟩)]⟩),
          ("main", ⟨0, 2, [("x", ⟨0, 1⟩), ("y", ⟨1, 1⟩)]⟩)] ∧
      (SymbolMap.ofProgram (.ofTree .ledger)).globals = [("log", ⟨0, 3⟩), ("rate", ⟨3, 1⟩)] := by
  have hcompile : (Arena.ofTree .ledger).compile = .ok (.ofTree .ledger) :=
    compile_ofTree (by decide +kernel)
  exact ⟨hcompile, (frames_tiled_and_mapped _ _ hcompile).1, by decide +kernel, by decide +kernel⟩

end StackCompiler
