import StackCompiler.Proofs.Diagnostics.Lowering

/-!
# Diagnostics are sound

When a program does not compile, the error names a node of it, and what the error says about the
node is true.
-/
namespace StackCompiler

open Arena Lowering

variable {a : Arena} {table table' : FunctionTable} {ts : List Term}

theorem signature?_eq_none {t : Term} (h : t.keyword? ≠ some .define) : t.signature? = none := by
  unfold Term.signature?
  split
  · exact absurd rfl h
  · rfl

namespace FunctionTable

theorem Collects.subset (h : Collects table ts table') : table ⊆ table' := by
  induction h with
  | nil => exact List.Subset.refl _
  | define _ _ _ _ ih => exact fun f hf => ih (List.mem_append_left _ hf)
  | other _ _ ih => exact ih

/-- Every definition has a well-formed chain of parameters, and its name is in the table. -/
theorem Collects.signature (h : Collects table ts table') {sig : Signature}
    (hsig : sig ∈ ts.filterMap Term.signature?) :
    sig.params.IsChain .param ∧ ∃ f ∈ table', f.name = sig.name := by
  induction h with
  | nil => cases hsig
  | @define table table' id header nameId name left index params body rest _ _ hchain hrest ih =>
    simp only [List.filterMap_cons, Term.signature?, List.mem_cons] at hsig
    rcases hsig with rfl | hsig
    · exact ⟨hchain, _, hrest.subset (List.mem_append_right _ List.mem_cons_self), rfl⟩
    · exact ih hsig
  | @other _ _ t _ hother _ ih =>
    rw [List.filterMap_cons_none (signature?_eq_none hother)] at hsig
    exact ih hsig

end FunctionTable

theorem lists_of_collects (h : FunctionTable.Collects [] a.rootTerm.links table) :
    a.Lists table where
  signature f hf := by
    rcases h.origin hf with hmem | ⟨header, nameId, left, index, params, hparams, hmem⟩
    · cases hmem
    · have hsig : ⟨nameId, f.name, params⟩ ∈ a.signatures := List.mem_filterMap.mpr ⟨_, hmem, rfl⟩
      exact ⟨_, hsig, rfl, (h.signature hsig).1, hparams.symm⟩
  complete sig hsig := (h.signature hsig).2

/-- A child on the left that is required is there, or its absence is explained. -/
theorem requireLeft_cases {place : Place} {id : NodeId} {kind : Kind} {l r : Term} {what : String}
    {β : Type} {f : Term → Except CompileError β} {e : CompileError}
    (h : a.At place (.node id kind l r)) (hneeded : (place.children kind).1.needed? = some what)
    (he : ((Term.node id kind l r).requireLeft what >>= f) = .error e) :
    a.Explains e ∨ l.isAbsent = false ∧ f l = .error e := by
  rcases error_of_bind he with hleft | ⟨u, hleft, hrest⟩
  · rcases error_of_bind hleft with hrequire | ⟨_, -, hpure⟩
    · exact .inl (h.explains_left hneeded hrequire)
    · cases hpure
  · obtain ⟨hpresent, hu⟩ := FunctionTable.requireLeft_eq_ok.mp hleft
    rw [hu] at hrest
    exact .inr ⟨hpresent, hrest⟩

theorem explains_expectFunc {header : Term} (h : a.At .header header)
    (hpresent : header.isAbsent = false)
    {e : CompileError} (he : header.expectKeyword .func = .error e) : a.Explains e := by
  cases header with
  | absent => cases hpresent
  | dangling id => exact h.holds.elim
  | node id kind l r =>
    unfold Term.expectKeyword at he
    split_ifs at he with hfunc
    cases he
    refine h.explains_unexpected ?_ rfl
    cases kind with
    | number n => rfl
    | ident name => rfl
    | keyword tag =>
      cases tag with
      | func => exact absurd rfl hfunc
      | _ => rfl

/-- A definition fails only with errors that are explained. The names in the table are those of the
definitions before. -/
theorem explains_functionOf {t : Term} {before after : List Term} (h : a.At .topLevel t)
    (hdefine : t.keyword? = some .define) (hlinks : a.rootTerm.links = before ++ t :: after)
    (hnames : ∀ f ∈ table, ∃ sig ∈ before.filterMap Term.signature?, sig.name = f.name)
    {e : CompileError} (he : table.functionOf t = .error e) : a.Explains e := by
  obtain ⟨id, header, body, rfl⟩ := Term.keyword?_eq_some.mp hdefine
  have hheader : a.At .header header := h.left rfl
  rcases error_of_bind he with hkeyword | ⟨_, -, he⟩
  · simp [Term.expectKeyword, hdefine] at hkeyword
  rcases requireLeft_cases h rfl he with hexplains | ⟨hpresent, he⟩
  · exact hexplains
  rcases error_of_bind he with hkeyword | ⟨_, hkeyword, he⟩
  · exact explains_expectFunc hheader hpresent hkeyword
  obtain ⟨headerId, nameTerm, params, rfl⟩ := FunctionTable.expectKeyword_eq_ok.mp hkeyword
  have hname : a.At .functionName nameTerm := hheader.left rfl
  rcases requireLeft_cases hheader rfl he with hexplains | ⟨hpresent, he⟩
  · exact hexplains
  rcases error_of_bind he with hident | ⟨name, hident, he⟩
  · exact hname.explains_expectIdent hpresent rfl hident
  obtain ⟨nameId, l, index, rfl⟩ := expectIdent_eq_ok.mp hident
  dsimp only at he
  split_ifs at he with hvalid hfound hfound
  · cases he
    exact hname.node.explains rfl hname.isIdent
  · cases he
    exact hname.node.explains rfl hname.isIdent
  · cases he
    obtain ⟨f, hf⟩ := Option.isSome_iff_exists.mp hfound
    obtain ⟨hmem, rfl⟩ := FunctionTable.get?_eq_some hf
    refine hname.node.explains rfl ⟨before.filterMap Term.signature?, ⟨nameId, f.name, params⟩,
      after.filterMap Term.signature?, ?_, rfl, rfl, hnames f hmem⟩
    rw [signatures, hlinks, List.filterMap_append]
    rfl
  · rcases error_of_bind he with helements | ⟨_, -, hpure⟩
    · have hparams : a.At .parameters params := hheader.right rfl
      exact hparams.explains_elements rfl helements
    · cases hpure

theorem explains_declareAll {before : List Term} (hlinks : a.rootTerm.links = before ++ ts)
    (hat : ∀ t ∈ ts, a.At .topLevel t)
    (hnames : ∀ f ∈ table, ∃ sig ∈ before.filterMap Term.signature?, sig.name = f.name)
    {e : CompileError} (he : table.declareAll ts = .error e) : a.Explains e := by
  induction ts generalizing table before with
  | nil => cases he
  | cons t rest ih =>
    have hrest : a.rootTerm.links = (before ++ [t]) ++ rest := by simpa using hlinks
    have hatRest : ∀ t ∈ rest, a.At .topLevel t := fun t ht => hat t (List.mem_cons_of_mem _ ht)
    have hold : ∀ f ∈ table, ∃ sig ∈ (before ++ [t]).filterMap Term.signature?,
        sig.name = f.name := by
      intro f hf
      obtain ⟨sig, hsig, hname⟩ := hnames f hf
      rw [List.filterMap_append]
      exact ⟨sig, List.mem_append_left _ hsig, hname⟩
    unfold FunctionTable.declareAll at he
    split_ifs at he with hdefine
    · rcases error_of_bind he with hdeclare | ⟨_, hdeclare, he⟩
      · rcases error_of_bind hdeclare with hfunction | ⟨_, -, hpure⟩
        · exact explains_functionOf (hat t List.mem_cons_self) hdefine hlinks hnames hfunction
        · cases hpure
      · obtain ⟨f, hfunction, hpair⟩ := FunctionTable.ok_of_bind hdeclare
        cases hpair
        obtain ⟨id, header, nameId, name, left, index, params, body, rfl, -, -, -, rfl⟩ :=
          FunctionTable.functionOf_eq_ok hfunction
        refine ih hrest hatRest ?_ he
        intro g hg
        rcases List.mem_append.mp hg with hg | hg
        · exact hold g hg
        · rw [List.mem_singleton.mp hg, List.filterMap_append]
          exact ⟨_, List.mem_append_right _ List.mem_cons_self, rfl⟩
    · exact ih hrest hatRest hold he

namespace Lowering

/-- A global has the name of a target at the top level. -/
theorem Initializes.assigned {s s' : Scopes} {code : Code} (h : Initializes table s ts code s')
    {v : Variable} (hv : v ∈ s'.current.declared) :
    v ∈ s.current.declared ∨ v.name ∈ ts.filterMap Term.assigned? := by
  induction h with
  | nil => exact .inl hv
  | @assign s s₁ s₂ id left right rest code more hassign _ ih =>
    have hfirst : ∀ name, left.ident? = some name →
        name ∈ (Term.node id (.keyword .assign) left right :: rest).filterMap Term.assigned? := by
      intro name hname
      exact List.mem_filterMap.mpr ⟨_, List.mem_cons_self, hname⟩
    rcases ih hv with hv | hmem
    · cases hassign with
      | assign _ htarget =>
        cases htarget with
        | declared _ _ _ => exact .inl hv
        | fresh _ hdeclare =>
          obtain ⟨_, _, _, _, _, hterm, -, -, rfl, -, rfl⟩ := Frame.declare_eq_ok.mp hdeclare
          cases hterm
          rw [Scopes.current_setCurrent, List.mem_append, List.mem_singleton] at hv
          rcases hv with hv | rfl
          · exact .inl hv
          · exact .inr (hfirst _ rfl)
    · obtain ⟨t, ht, hname⟩ := List.mem_filterMap.mp hmem
      exact .inr (List.mem_filterMap.mpr ⟨t, List.mem_cons_of_mem _ ht, hname⟩)
  | @other s s' t rest code hother _ ih =>
    rcases ih hv with hv | hmem
    · exact .inl hv
    · obtain ⟨t, ht, hname⟩ := List.mem_filterMap.mp hmem
      exact .inr (List.mem_filterMap.mpr ⟨t, List.mem_cons_of_mem _ ht, hname⟩)

theorem blames_initializers (ha : a.Sound) (hT : a.Lists table) (hat : ∀ t ∈ ts, a.At .topLevel t)
    (s : Scopes) : Blames a.Explains (initializers table ts) s := by
  induction ts generalizing s with
  | nil => exact blames_pure
  | cons t rest ih =>
    have hrest := ih fun t ht => hat t (List.mem_cons_of_mem _ ht)
    have ht := hat t List.mem_cons_self
    unfold initializers
    split
    · refine blames_bind.mpr ⟨blames_assignment ha hT ht rfl, fun _ s' _ => ?_⟩
      exact blames_bind_pure.mpr (hrest s')
    · exact hrest s
    · exact blames_emit_bind.mpr (hrest s)

theorem blames_definitions {J : CompileError → Prop} {fs : List Function} {globals : Frame}
    (hfs : ∀ f ∈ fs, Blames J (definition table f) ⟨globals, none⟩) :
    Blames J (definitions table fs) ⟨globals, none⟩ := by
  induction fs with
  | nil => exact blames_pure
  | cons f rest ih =>
    unfold definitions
    refine blames_bind.mpr ⟨hfs f List.mem_cons_self, fun p s' hrun => ?_⟩
    obtain ⟨rfl, -⟩ := defines_of_runs hrun
    exact blames_bind_pure.mpr (ih fun g hg => hfs g (List.mem_cons_of_mem _ hg))

/-- A function of the table comes from a definition at the top level. -/
theorem blames_defined (ha : a.Sound) (hcollects : FunctionTable.Collects [] a.rootTerm.links table)
    (hat : ∀ t ∈ a.rootTerm.links, a.At .topLevel t) {globals : Frame}
    (hglobals : ∀ v ∈ globals.declared, v.name ∈ a.globalNames) {f : Function} (hf : f ∈ table) :
    Blames a.Explains (definition table f) ⟨globals, none⟩ := by
  rcases hcollects.origin hf with hmem | ⟨header, nameId, left, index, params, hparams, hmem⟩
  · cases hmem
  · have hsig : ⟨nameId, f.name, params⟩ ∈ a.signatures := List.mem_filterMap.mpr ⟨_, hmem, rfl⟩
    exact blames_definition ha (lists_of_collects hcollects) hparams (hat _ hmem) hsig
      (hcollects.signature hsig).1 hglobals

theorem blames_programOf (ha : a.Sound)
    (hcollects : FunctionTable.Collects [] a.rootTerm.links table)
    (hat : ∀ t ∈ a.rootTerm.links, a.At .topLevel t) :
    Blames a.Explains (programOf table a.rootTerm.links) ⟨.empty .cx, none⟩ := by
  unfold programOf
  refine blames_bind.mpr
    ⟨blames_initializers ha (lists_of_collects hcollects) hat _, fun start s' hrun => ?_⟩
  have hinitializes := initializes_of_runs hrun
  obtain ⟨globals, rfl, -⟩ := hinitializes.extends.global
  have hglobals : ∀ v ∈ globals.declared, v.name ∈ a.globalNames := by
    intro v hv
    rcases hinitializes.assigned hv with hempty | hmem
    · cases hempty
    · exact hmem
  simp only [blames_scopes_bind, blames_emit_bind]
  refine blames_bind.mpr ⟨?_, fun p s' _ => ?_⟩
  · exact blames_definitions fun f hf => blames_defined ha hcollects hat hglobals hf
  · simp

theorem blames_program (ha : a.Sound) :
    Blames a.Explains (program a.rootTerm) ⟨.empty .cx, none⟩ := by
  have hid : a.rootTerm.id? = a.root := ha.id?_termOf ha.root
  have hroot : a.At .program a.rootTerm :=
    ⟨ha.holds_rootTerm, fun id hroot => .root (by rw [← hid, hroot])⟩
  unfold program
  rw [blames_ite]
  split_ifs with habsent
  · rw [blames_throw_bind]
    exact ⟨by rw [Justifies, ← hid, id?_eq_none habsent], nofun⟩
  refine blames_lift_bind.mpr ⟨fun e he => ?_, fun table hbuild => ?_⟩
  · rcases error_of_bind he with helements | ⟨ts, helements, hdeclare⟩
    · exact hroot.explains_elements rfl helements
    · obtain ⟨hchain, rfl⟩ := Term.elements_eq_ok.mp helements
      exact explains_declareAll (List.nil_append _).symm
        (fun t ht => (hroot.links rfl hchain ht).1) (by simp) hdeclare
  obtain ⟨ts, helements, hdeclare⟩ := FunctionTable.ok_of_bind hbuild
  obtain ⟨hchain, rfl⟩ := Term.elements_eq_ok.mp helements
  have hprogram := blames_programOf ha (FunctionTable.collects_of_declareAll hdeclare)
    fun t ht => (hroot.links rfl hchain ht).1
  simp only [blames_emit_bind, blames_ite, ite_self, blames_lift_bind, helements, Except.ok.injEq,
    reduceCtorEq, false_implies, implies_true, true_and, forall_eq']
  exact hprogram

end Lowering

/-- The error of a program that does not compile names a node of the program that justifies it,
unless there is no program. It is never one of files or documents. -/
theorem diagnostics_sound (a : Arena) (ha : a.Sound) (e : CompileError) (h : a.compile = .error e) :
    (e = .emptyProgram ↔ a.root = none) ∧ (∀ error, e ≠ .io error) ∧ e ≠ .yaml ∧
      (e ≠ .emptyProgram → ∃ id, e.node? = some id ∧ a.Reaches id) ∧ a.Justifies e := by
  have hexplains : a.Explains e := blames_program ha e h
  have hio : ∀ error, e ≠ .io error := by
    rintro error rfl
    exact hexplains.justified
  have hyaml : e ≠ .yaml := by
    rintro rfl
    exact hexplains.justified
  refine ⟨⟨?_, ?_⟩, hio, hyaml, ?_, hexplains.justified⟩
  · rintro rfl
    exact hexplains.justified
  · intro hroot
    have hempty : a.compile = .error .emptyProgram := by
      have habsent : a.rootTerm = .absent := by rw [rootTerm, hroot]; rfl
      rw [compile, lower, habsent]
      rfl
    exact Except.error.inj (h.symm.trans hempty)
  · intro hnonempty
    cases hnode : e.node? with
    | none => cases e <;> simp [CompileError.node?] at hnode hnonempty hio hyaml
    | some id => exact ⟨id, rfl, hexplains.reaches id hnode⟩

/-- A function of one parameter is called with two arguments: `f(x) { return x }`,
`main() { out f(7, 7) }`. -/
def Arena.extraArgument : Arena where
  nodes := #[
    ⟨.number (.ofNat 7), none, none⟩,
    ⟨.ident "x", none, none⟩,
    ⟨.keyword .param, none, some 1⟩,
    ⟨.ident "f", none, none⟩,
    ⟨.keyword .func, some 3, some 2⟩,
    ⟨.keyword .ret, none, some 1⟩,
    ⟨.keyword .stmt, none, some 5⟩,
    ⟨.keyword .define, some 4, some 6⟩,
    ⟨.keyword .param, none, some 0⟩,
    ⟨.keyword .param, some 8, some 0⟩,
    ⟨.keyword .call, some 3, some 9⟩,
    ⟨.keyword .out, none, some 10⟩,
    ⟨.keyword .stmt, none, some 11⟩,
    ⟨.ident "main", none, none⟩,
    ⟨.keyword .func, some 13, none⟩,
    ⟨.keyword .define, some 14, some 12⟩,
    ⟨.keyword .stmt, none, some 7⟩,
    ⟨.keyword .stmt, some 16, some 15⟩]
  root := some 17

theorem diagnostics_sound_extraArgument :
    Arena.extraArgument.Sound ∧
      Arena.extraArgument.compile = .error (.arityMismatch 10 "f" 1 2) ∧
      Arena.extraArgument.Reaches 10 ∧
      Arena.extraArgument.Justifies (.arityMismatch 10 "f" 1 2) := by
  have hsound : Arena.extraArgument.Sound :=
    Arena.sound_of_isOrdered (by decide) (by rintro id ⟨⟩; decide)
  have hcompile : Arena.extraArgument.compile = .error (.arityMismatch 10 "f" 1 2) := by
    decide +kernel
  obtain ⟨-, -, -, hnode, hjustifies⟩ := diagnostics_sound _ hsound _ hcompile
  obtain ⟨id, hid, hreaches⟩ := hnode nofun
  cases hid
  exact ⟨hsound, hcompile, hreaches, hjustifies⟩

end StackCompiler
