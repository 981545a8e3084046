import StackCompiler.Proofs.Static.Statement

/-!
# Compilation accepts the well-formed programs

Every failure of compilation is one that the check of the tree sees, and the check refuses nothing
that compiles. The parts of a program are taken in the order of compilation: the functions that are
defined, the initializers, and then each function over the final globals.
-/
namespace StackCompiler

open Lowering

theorem Term.items?_toTree {tag : Keyword} {t : Term} (ht : t.Whole) {items : List Tree} :
    t.toTree.items? tag = some items ↔ t.IsChain tag ∧ items = t.links.map Term.toTree := by
  induction t generalizing items with
  | absent => simp [Term.toTree, Tree.items?, Term.links, IsChain.absent, eq_comm]
  | dangling id => exact ht.elim
  | node id kind before item ih _ =>
    constructor
    · intro h
      cases kind with
      | number n => cases h
      | ident name => cases h
      | keyword found =>
        rw [Term.toTree, Tree.items?, ht.2.isAbsent_toTree] at h
        split_ifs at h with hlink
        obtain ⟨rfl, hpresent⟩ := hlink
        obtain ⟨earlier, hearlier, rfl⟩ := Option.map_eq_some_iff.mp h
        obtain ⟨hchain, rfl⟩ := (ih ht.1).mp hearlier
        exact ⟨.link hchain hpresent, by simp [Term.links]⟩
    · rintro ⟨_ | ⟨hchain, hpresent⟩, rfl⟩
      have hearlier := (ih ht.1).mpr ⟨hchain, rfl⟩
      simp [Term.toTree, Tree.items?, ht.2.isAbsent_toTree, hpresent, hearlier, Term.links]

/-- What a function's entry in the table says. -/
def Function.header (f : Function) : Static.Header :=
  ⟨f.name, f.params.map Term.toTree, f.body.toTree⟩

namespace Static

variable {table : FunctionTable} {globals : Frame} {s : Scopes}

theorem parameters?_indexed {known names : Names} {name : String} {index : Tree} {rest : List Tree}
    (h : index.isAbsent = false) : parameters? known names (.ident name index :: rest) = none := by
  cases index with
  | absent => cases h
  | number n => rfl
  | ident name index => rfl
  | keyword tag left right => rfl

/-- The frame of a function after its parameters is the one that the check describes. -/
theorem finishes_parameters {ts : List Term} (hts : ∀ t ∈ ts, t.Whole) {f : Frame}
    {env' : Environment} :
    Finishes (parameters ts) ⟨globals, some f⟩ (Describes table env') ↔
      ∃ names, parameters? (.ofFrame globals) (.ofFrame f) (ts.map Term.toTree) = some names ∧
        { Environment.ofScopes table ⟨globals, none⟩ with locals := some names } = env' := by
  induction ts generalizing f with
  | nil => simp [parameters, parameters?, Describes, Environment.ofScopes]
  | cons t rest ih =>
    have ht := hts t List.mem_cons_self
    replace ih := fun f => @ih (fun t ht => hts t (List.mem_cons_of_mem _ ht)) f
    rw [List.map_cons]
    cases t with
    | absent => simp [parameters, Term.expectIdent, Term.ident?, Term.toTree, parameters?]
    | dangling id => exact ht.elim
    | node id kind left index =>
      cases kind with
      | number n => simp [parameters, Term.expectIdent, Term.ident?, Term.toTree, parameters?]
      | keyword tag => simp [parameters, Term.expectIdent, Term.ident?, Term.toTree, parameters?]
      | ident name =>
        cases hindex : index.isAbsent with
        | false =>
          have hpresent : index.toTree.isAbsent = false := by rw [ht.2.isAbsent_toTree, hindex]
          simp [parameters, Term.expectIdent, Term.ident?, Term.right, hindex, Term.toTree,
            parameters?_indexed hpresent]
        | true =>
          obtain rfl := eq_absent_of_isAbsent hindex
          have hdeclare := fun names => @declare_ofFrame f id name left .absent ht.2 names
          simp only [Term.toTree] at hdeclare
          simp only [parameters, Term.expectIdent, Term.ident?, Term.right, Term.isAbsent,
            Term.toTree, parameters?, isArray?_ofFrame, Option.isSome_map, finishes_lift_bind,
            Except.ok.injEq, exists_eq_left', Bool.not_true, Bool.false_eq_true, if_false,
            finishes_scopes_bind, finishes_ite]
          split_ifs with hglobal
          · simp
          · simp only [finishes_current_bind, finishes_lift_bind, finishes_setCurrent_bind,
              Prod.exists, Scopes.current, Scopes.setCurrent, Option.getD_some, ih,
              Option.bind_eq_some_iff, hdeclare]
            constructor
            · rintro ⟨v, g, hdeclared, names, hrest, henv⟩
              exact ⟨names, ⟨_, ⟨v, g, hdeclared, rfl⟩, hrest⟩, henv⟩
            · rintro ⟨names, ⟨_, ⟨v, g, hdeclared, rfl⟩, hrest⟩, henv⟩
              exact ⟨v, g, hdeclared, names, hrest, henv⟩

theorem succeeds_block {t : Term} (ht : t.Whole) :
    Succeeds (block table t) s ↔ (block? (.ofScopes table s) t.toTree).isSome = true := by
  rw [Option.isSome_iff_exists]
  constructor
  · rintro ⟨code, s', hrun, -⟩
    exact ⟨_, (finishes_block ht).mp ⟨code, s', hrun, rfl⟩⟩
  · rintro ⟨env', hblock⟩
    obtain ⟨code, s', hrun, -⟩ := (finishes_block ht).mpr hblock
    exact ⟨code, s', hrun, trivial⟩

theorem succeeds_definition {f : Function} (hparams : ∀ t ∈ f.params, t.Whole)
    (hbody : f.body.Whole) :
    Succeeds (definition table f) ⟨globals, none⟩ ↔
      isFunction (.ofScopes table ⟨globals, none⟩) f.header = true := by
  have hlocals : Succeeds (parameters f.params >>= fun _ => block table f.body)
      ⟨globals, some (.empty .bx)⟩ ↔ ∃ names,
        parameters? (.ofFrame globals) .empty (f.params.map Term.toTree) = some names ∧
          (block? { Environment.ofScopes table ⟨globals, none⟩ with locals := some names }
            f.body.toTree).isSome = true := by
    refine Lowering.finishes_bind.trans ?_
    constructor
    · rintro ⟨_, s', hrun, hblock⟩
      obtain ⟨names, hnames, henv⟩ := (finishes_parameters hparams).mp ⟨_, s', hrun, rfl⟩
      refine ⟨names, hnames, ?_⟩
      rw [henv]
      exact (succeeds_block hbody).mp hblock
    · rintro ⟨names, hnames, hblock⟩
      obtain ⟨u, s', hrun, hdescribes⟩ :=
        (@finishes_parameters table globals _ hparams (.empty .bx) _).mpr ⟨names, hnames, rfl⟩
      rw [← hdescribes] at hblock
      exact ⟨u, s', hrun, (succeeds_block hbody).mpr hblock⟩
  have hsucceeds : Succeeds (definition table f) ⟨globals, none⟩ ↔ f.body.isAbsent = false ∧
      Succeeds (parameters f.params >>= fun _ => block table f.body)
        ⟨globals, some (.empty .bx)⟩ := by
    unfold definition
    refine finishes_lift_bind.trans ?_
    simp only [Term.require_eq_ok, exists_const]
    refine and_congr_right fun _ => ?_
    refine (finishes_bind_congr (Q := fun _ => True) fun _ _ => ?_).trans finishes_withLocals
    simp only [finishes_emit_bind, finishes_pure]
  rw [hsucceeds, hlocals, isFunction, Function.header, hbody.isAbsent_toTree]
  dsimp only [Environment.ofScopes]
  cases parameters? (.ofFrame globals) .empty (f.params.map Term.toTree) with
  | none => simp
  | some names => simp

theorem keeps_definition {f : Function} : Keeps (definition table f) ⟨globals, none⟩ := by
  rintro ⟨code, frame⟩ s' hrun
  exact (defines_of_runs hrun).1

theorem succeeds_definitions {fs : List Function}
    (hfs : ∀ f ∈ fs, (∀ t ∈ f.params, t.Whole) ∧ f.body.Whole) :
    Succeeds (definitions table fs) ⟨globals, none⟩ ↔
      (fs.map Function.header).all (isFunction (.ofScopes table ⟨globals, none⟩)) = true := by
  induction fs with
  | nil => simp [definitions]
  | cons f rest ih =>
    have hf := hfs f List.mem_cons_self
    replace ih := ih fun g hg => hfs g (List.mem_cons_of_mem _ hg)
    rw [List.map_cons, List.all_cons, Bool.and_eq_true, ← succeeds_definition hf.1 hf.2, ← ih]
    simp only [definitions]
    refine keeps_definition.finishes_bind fun first => ?_
    simp

/-- The scopes after the initializers are those that the check describes. -/
theorem finishes_initializers {ts : List Term} (hts : ∀ t ∈ ts, t.Whole) {env' : Environment} :
    Finishes (initializers table ts) s (Describes table env') ↔
      initializers? (.ofScopes table s) (ts.map Term.toTree) = some env' := by
  induction ts generalizing s with
  | nil => simp [initializers, initializers?, Describes]
  | cons t rest ih =>
    have ht := hts t List.mem_cons_self
    replace ih := fun s => @ih s fun t ht => hts t (List.mem_cons_of_mem _ ht)
    rw [List.map_cons, initializers?]
    unfold initializers
    split
    · rename_i id left right
      have hassigned := fun env' => @finishes_assignment table s id left right ht.1 ht.2 env'
      simp only [Term.toTree, isAssignment, if_true, Option.bind_eq_some_iff]
      simpa using finishes_bind_described (C := True) (by simpa using hassigned) fun code s' =>
        finishes_bind_pure.trans (ih s')
    · exact ih s
    · rename_i hassign _
      have hother : isAssignment t.toTree = false := by
        cases t with
        | absent => rfl
        | dangling id => rfl
        | node id kind left right =>
          cases kind with
          | number n => rfl
          | ident name => rfl
          | keyword tag =>
            rw [Term.toTree, isAssignment]
            rintro _ _ ⟨⟩
            exact hassign id left right rfl
      simpa [hother] using ih s

theorem isFunctionName_eq (name : String) : isFunctionName name = Function.isName name := by
  rw [Bool.eq_iff_iff]
  simp [isFunctionName, Function.isName, and_assoc]

theorem header?_eq_some {t : Term} (ht : t.Whole) {h : Header} :
    header? t.toTree = some h ↔ ∃ id header nameId name left index params body,
      t = .node id (.keyword .define)
        (.node header (.keyword .func) (.node nameId (.ident name) left index) params) body ∧
      Function.isName name = true ∧ params.IsChain .param ∧
      h = Function.header ⟨name, id, params.links, body⟩ := by
  constructor
  · intro hheader
    unfold header? at hheader
    split at hheader
    · rename_i name i paramTree bodyTree htree
      obtain ⟨id, headerTerm, body, rfl, hheaderTerm, rfl⟩ := Term.toTree_eq_keyword.mp htree
      obtain ⟨header, nameTerm, params, rfl, hname, rfl⟩ := Term.toTree_eq_keyword.mp hheaderTerm
      obtain ⟨nameId, left, index, rfl, rfl⟩ := Term.toTree_eq_ident.mp hname
      rw [isFunctionName_eq] at hheader
      split_ifs at hheader with hvalid
      obtain ⟨items, hitems, rfl⟩ := Option.map_eq_some_iff.mp hheader
      obtain ⟨hchain, rfl⟩ := (Term.items?_toTree ht.1.2).mp hitems
      exact ⟨id, header, nameId, name, left, index, params, body, rfl, hvalid, hchain, rfl⟩
    · cases hheader
  · rintro ⟨id, header, nameId, name, left, index, params, body, rfl, hvalid, hchain, rfl⟩
    have hitems := (Term.items?_toTree ht.1.2).mpr ⟨hchain, rfl⟩
    simp [Term.toTree, header?, isFunctionName_eq, hvalid, hitems, Function.header]

/-- A definition gives a function if it has a header whose name is new. -/
theorem functionOf_eq_ok {t : Term} (ht : t.Whole) :
    (∃ f, table.functionOf t = .ok f) ↔
      ∃ h, header? t.toTree = some h ∧ table.get? h.name = none := by
  simp only [header?_eq_some ht]
  constructor
  · rintro ⟨f, hf⟩
    obtain ⟨id, header, nameId, name, left, index, params, body, rfl, hname, hnew, hchain, rfl⟩ :=
      FunctionTable.functionOf_eq_ok hf
    exact ⟨_, ⟨id, header, nameId, name, left, index, params, body, rfl, hname, hchain, rfl⟩, hnew⟩
  · rintro ⟨_, ⟨id, header, nameId, name, left, index, params, body, rfl, hname, hchain, rfl⟩, hnew⟩
    exact ⟨⟨name, id, params.links, body⟩, FunctionTable.functionOf_define hname hnew hchain⟩

theorem header_of_functionOf {t : Term} (ht : t.Whole) {f : Function}
    (hf : table.functionOf t = .ok f) : header? t.toTree = some f.header := by
  obtain ⟨id, header, nameId, name, left, index, params, body, rfl, hname, -, hchain, rfl⟩ :=
    FunctionTable.functionOf_eq_ok hf
  exact (header?_eq_some ht).mpr
    ⟨id, header, nameId, name, left, index, params, body, rfl, hname, hchain, rfl⟩

theorem isDefinition_toTree (t : Term) :
    isDefinition t.toTree = true ↔ t.keyword? = some .define := by
  cases t with
  | absent => simp [Term.toTree, isDefinition, Term.keyword?]
  | dangling id => simp [Term.toTree, isDefinition, Term.keyword?]
  | node id kind left right =>
    cases kind with
    | number n => simp [Term.toTree, isDefinition, Term.keyword?]
    | ident name => simp [Term.toTree, isDefinition, Term.keyword?]
    | keyword tag => cases tag <;> simp [Term.toTree, isDefinition, Term.keyword?]

/-- Only a definition has a header. -/
theorem isDefinition_of_header? {t : Tree} {h : Header} (hheader : header? t = some h) :
    isDefinition t = true := by
  unfold header? at hheader
  split at hheader
  · rfl
  · cases hheader

/-- The functions of a table and those that some statements define can stand in one table. -/
def areDefinable (table : FunctionTable) (items : List Tree) : Prop :=
  (items.filter isDefinition).all (fun t => (header? t).isSome) = true ∧
    (table.map Function.name ++ (headers items).map Header.name).Nodup

theorem get?_eq_none {name : String} : table.get? name = none ↔ name ∉ table.map Function.name := by
  simp [FunctionTable.get?]

theorem areDefinable_other {t : Tree} {items : List Tree} (ht : isDefinition t = false) :
    areDefinable table (t :: items) ↔ areDefinable table items := by
  have hnone : header? t = none := by
    cases hheader : header? t with
    | none => rfl
    | some h => simp [isDefinition_of_header? hheader] at ht
  simp [areDefinable, ht, headers, hnone]

theorem areDefinable_definition {t : Tree} {f : Function} {items : List Tree}
    (ht : header? t = some f.header) :
    areDefinable table (t :: items) ↔ areDefinable (table ++ [f]) items := by
  simp [areDefinable, isDefinition_of_header? ht, headers, ht, Function.header]

/-- The first definition has a header whose name is new. -/
theorem areDefinable.header {t : Tree} {items : List Tree} (h : areDefinable table (t :: items))
    (ht : isDefinition t = true) : ∃ h, header? t = some h ∧ table.get? h.name = none := by
  obtain ⟨hall, hnodup⟩ := h
  rw [List.filter_cons_of_pos ht, List.all_cons, Bool.and_eq_true] at hall
  obtain ⟨header, hheader⟩ := Option.isSome_iff_exists.mp hall.1
  refine ⟨header, hheader, get?_eq_none.mpr ?_⟩
  rw [headers, List.filterMap_cons_some hheader, List.map_cons, List.nodup_append'] at hnodup
  exact fun hmem => hnodup.2.2 hmem List.mem_cons_self

theorem declareAll_define {t : Term} (ht : t.keyword? = some .define) {rest : List Term}
    {table' : FunctionTable} :
    table.declareAll (t :: rest) = .ok table' ↔
      ∃ f, table.functionOf t = .ok f ∧
        FunctionTable.declareAll (table ++ [f]) rest = .ok table' := by
  rw [FunctionTable.declareAll, if_pos ht, FunctionTable.declare]
  cases table.functionOf t with
  | error e => simp [bind, Except.bind]
  | ok f => simp [bind, Except.bind, pure, Except.pure]

theorem declareAll_eq_ok {ts : List Term} (hts : ∀ t ∈ ts, t.Whole)
    (hnodup : (table.map Function.name).Nodup) :
    (∃ table', table.declareAll ts = .ok table') ↔ areDefinable table (ts.map Term.toTree) := by
  induction ts generalizing table with
  | nil => simp [FunctionTable.declareAll, areDefinable, headers, hnodup]
  | cons t rest ih =>
    have ht := hts t List.mem_cons_self
    have hrest : ∀ t ∈ rest, t.Whole := fun t ht => hts t (List.mem_cons_of_mem _ ht)
    rw [List.map_cons]
    by_cases hdefine : t.keyword? = some .define
    swap
    · have hother : isDefinition t.toTree = false := by
        simpa using mt (isDefinition_toTree t).mp hdefine
      rw [areDefinable_other hother, ← ih hrest hnodup]
      simp only [FunctionTable.declareAll, hdefine, if_false]
    -- the table stays without repetition when a function of a new name joins it
    have hjoin : ∀ f, table.functionOf t = .ok f → ((table ++ [f]).map Function.name).Nodup := by
      intro f hf
      obtain ⟨_, _, _, _, _, _, _, _, -, -, hnew, -, rfl⟩ := FunctionTable.functionOf_eq_ok hf
      rw [List.map_append, List.nodup_append']
      exact ⟨hnodup, by simp, by simpa using get?_eq_none.mp hnew⟩
    simp only [declareAll_define hdefine]
    constructor
    · rintro ⟨table', f, hf, htable'⟩
      rw [areDefinable_definition (header_of_functionOf ht hf)]
      exact (ih hrest (hjoin f hf)).mp ⟨table', htable'⟩
    · intro hdefinable
      obtain ⟨f, hf⟩ :=
        (functionOf_eq_ok ht).mpr (hdefinable.header ((isDefinition_toTree t).mpr hdefine))
      rw [areDefinable_definition (header_of_functionOf ht hf)] at hdefinable
      obtain ⟨table', htable'⟩ := (ih hrest (hjoin f hf)).mpr hdefinable
      exact ⟨table', f, hf, htable'⟩

/-- The table lists what the definitions say, in their order. -/
theorem headers_eq {ts : List Term} {table' : FunctionTable} (hts : ∀ t ∈ ts, t.Whole)
    (h : FunctionTable.Collects table ts table') :
    table'.map Function.header = table.map Function.header ++ headers (ts.map Term.toTree) := by
  induction h with
  | nil => simp [headers]
  | @define table _ id header nameId name left index params body rest hname hnew hchain _ ih =>
    have hheader := (header?_eq_some (hts _ List.mem_cons_self)).mpr
      ⟨id, header, nameId, name, left, index, params, body, rfl, hname, hchain, rfl⟩
    rw [ih fun t ht => hts t (List.mem_cons_of_mem _ ht), List.map_cons, headers, headers,
      List.filterMap_cons_some hheader]
    simp
  | @other table _ t rest hother _ ih =>
    have hnone : header? t.toTree = none := by
      cases hheader : header? t.toTree with
      | none => rfl
      | some h => exact absurd ((isDefinition_toTree t).mp (isDefinition_of_header? hheader)) hother
    rw [ih fun t ht => hts t (List.mem_cons_of_mem _ ht), List.map_cons, headers, headers,
      List.filterMap_cons_none hnone]

/-- Functions of a table consist of whole terms if the program does. -/
theorem whole_of_collects {t : Term} (ht : t.Whole) (h : FunctionTable.Collects [] t.links table)
    {f : Function} (hf : f ∈ table) : (∀ p ∈ f.params, p.Whole) ∧ f.body.Whole := by
  rcases h.origin hf with hmem | ⟨header, nameId, left, index, params, hparams, hmem⟩
  · cases hmem
  · have hdefinition := ht.of_mem_links hmem
    rw [hparams]
    exact ⟨fun p hp => hdefinition.1.2.of_mem_links hp, hdefinition.2⟩

theorem succeeds_programOf {ts : List Term} :
    Succeeds (programOf table ts) s ↔
      Finishes (initializers table ts) s fun s' => Succeeds (definitions table table) s' := by
  unfold programOf
  refine finishes_bind_congr fun code s' => ?_
  simp only [finishes_scopes_bind, finishes_emit_bind]
  exact finishes_bind_congr fun _ _ => by simp only [finishes_scopes_bind, finishes_pure]

/-- Lowering a program checks the chain, collects the functions, and then lowers the initializers
and each function. -/
theorem succeeds_program_iff {t : Term} :
    Succeeds (program t) s ↔ t.isAbsent = false ∧ t.IsChain .stmt ∧
      ∃ table, FunctionTable.declareAll [] t.links = .ok table ∧
        Finishes (initializers table t.links) s fun s' =>
          Succeeds (definitions table table) s' := by
  unfold program
  cases hpresent : t.isAbsent with
  | true => simp
  | false =>
    simp only [Bool.false_eq_true, if_false]
    refine finishes_lift_bind.trans ?_
    simp only [FunctionTable.build_eq_ok, true_and]
    rw [← exists_and_left]
    refine exists_congr fun table => ?_
    rw [and_assoc]
    refine and_congr_right fun hchain => and_congr_right fun _ => ?_
    have helements := Term.elements_eq_ok.mpr ⟨hchain, rfl⟩
    simp only [finishes_emit_bind, finishes_ite, ite_self, finishes_lift_bind, helements,
      Except.ok.injEq, exists_eq_left']
    exact succeeds_programOf

/-- The initializers and then the functions of a table are well-formed. -/
theorem finishes_functions {t : Term} (ht : t.Whole)
    (htable : FunctionTable.declareAll [] t.links = .ok table) :
    (Finishes (initializers table t.links) ⟨.empty .cx, none⟩ fun s' =>
        Succeeds (definitions table table) s') ↔
      ∃ env', initializers?
        ⟨(headers (t.links.map Term.toTree)).map fun h => (h.name, h.params.length),
        .empty, none⟩ (t.links.map Term.toTree) = some env' ∧
        (headers (t.links.map Term.toTree)).all (isFunction env') = true := by
  have hcollects := FunctionTable.collects_of_declareAll htable
  have hheaders : table.map Function.header = headers (t.links.map Term.toTree) :=
    headers_eq (fun _ => ht.of_mem_links) hcollects
  have hstart : Environment.ofScopes table ⟨.empty .cx, none⟩ =
      ⟨(headers (t.links.map Term.toTree)).map fun h => (h.name, h.params.length),
       .empty, none⟩ := by
    rw [← hheaders]
    simp [Environment.ofScopes, Function.header, Function.arity, Names.ofFrame, Frame.empty,
      Names.empty]
  rw [← hstart, ← hheaders, Lowering.Finishes]
  have hinitializers := fun env' =>
    @finishes_initializers table ⟨.empty .cx, none⟩ t.links (fun _ => ht.of_mem_links) env'
  have hdefinitions := fun globals =>
    @succeeds_definitions table globals table fun f hf => whole_of_collects ht hcollects hf
  constructor
  · rintro ⟨code, s', hrun, hsucceeds⟩
    obtain ⟨globals, rfl, -⟩ := (initializes_of_runs hrun).extends.global
    exact ⟨_, (hinitializers _).mp ⟨code, _, hrun, rfl⟩, (hdefinitions globals).mp hsucceeds⟩
  · rintro ⟨env', henv, hall⟩
    obtain ⟨code, s', hrun, rfl⟩ := (hinitializers env').mpr henv
    obtain ⟨globals, rfl, -⟩ := (initializes_of_runs hrun).extends.global
    exact ⟨code, _, hrun, (hdefinitions globals).mpr hall⟩

theorem areWellFormed_eq_true {items : List Tree} :
    areWellFormed items = true ↔ areDefinable [] items ∧
      ∃ env', initializers? ⟨(headers items).map fun h => (h.name, h.params.length), .empty, none⟩
        items = some env' ∧ (headers items).all (isFunction env') = true := by
  simp only [areWellFormed, areDefinable, Bool.and_eq_true, decide_eq_true_eq, List.map_nil,
    List.nil_append]
  refine and_congr_right fun _ => ?_
  cases initializers? ⟨(headers items).map fun h => (h.name, h.params.length), .empty, none⟩
      items with
  | none => simp
  | some env' => simp

theorem succeeds_program {t : Term} (ht : t.Whole) :
    Succeeds (program t) ⟨.empty .cx, none⟩ ↔ isProgram t.toTree = true := by
  rw [succeeds_program_iff, isProgram, Bool.and_eq_true, ht.isAbsent_toTree, Bool.not_eq_true']
  refine and_congr_right fun _ => ?_
  cases hitems : t.toTree.items? .stmt with
  | none =>
    have hchain : ¬ t.IsChain .stmt := fun hchain => by
      rw [(Term.items?_toTree ht).mpr ⟨hchain, rfl⟩] at hitems
      cases hitems
    simp [hchain]
  | some items =>
    obtain ⟨hchain, rfl⟩ := (Term.items?_toTree ht).mp hitems
    have hdefinable := @declareAll_eq_ok [] t.links (fun _ => ht.of_mem_links) (by simp)
    rw [areWellFormed_eq_true, ← hdefinable]
    constructor
    · rintro ⟨-, table, htable, hfinishes⟩
      exact ⟨⟨table, htable⟩, (finishes_functions ht htable).mp hfinishes⟩
    · rintro ⟨⟨table, htable⟩, hwellFormed⟩
      exact ⟨hchain, table, htable, (finishes_functions ht htable).mpr hwellFormed⟩

end Static

/-- A program compiles if and only if it is well-formed. -/
theorem compiles_iff_wellFormed (a : Arena) (h : a.Sound) :
    (∃ p, a.compile = .ok p) ↔ Static.isProgram a.rootTerm.toTree = true := by
  rw [← Static.succeeds_program h.holds_rootTerm.whole]
  constructor
  · rintro ⟨p, hp⟩
    exact ⟨p, a.lower.scopes, ⟨hp, rfl⟩, trivial⟩
  · rintro ⟨p, _, ⟨hp, -⟩, -⟩
    exact ⟨p, hp⟩

/-- A program that writes an element of a new array and shows the same node:
`main() { x[2] := 2; out x[2] }`. -/
def Arena.sharedElement : Arena where
  nodes := #[
    ⟨.number (.ofNat 2), none, none⟩,
    ⟨.ident "x", none, some 0⟩,
    ⟨.keyword .assign, some 1, some 0⟩,
    ⟨.keyword .out, none, some 1⟩,
    ⟨.keyword .stmt, none, some 2⟩,
    ⟨.keyword .stmt, some 4, some 3⟩,
    ⟨.ident "main", none, none⟩,
    ⟨.keyword .func, some 6, none⟩,
    ⟨.keyword .define, some 7, some 5⟩,
    ⟨.keyword .stmt, none, some 8⟩]
  root := some 9

theorem Arena.sound_sharedElement : Arena.sharedElement.Sound :=
  sound_of_isOrdered (by decide) (by rintro id ⟨⟩; decide)

theorem compiles_iff_wellFormed_sharedElement :
    Arena.sharedElement.Sound ∧ Static.isProgram Arena.sharedElement.rootTerm.toTree = true ∧
      ∃ p, Arena.sharedElement.compile = .ok p := by
  have hprogram : Static.isProgram Arena.sharedElement.rootTerm.toTree = true := by decide +kernel
  exact ⟨Arena.sound_sharedElement, hprogram,
    (compiles_iff_wellFormed _ Arena.sound_sharedElement).mpr hprogram⟩

end StackCompiler
