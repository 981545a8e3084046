import StackCompiler.Proofs.Lowering.Labels
import StackCompiler.Proofs.Term.Numbering

/-!
# Blocks

The code of a program is an opening without labels, which runs the initializers and calls the entry
function, and one block for each function, from its label up to that of the next function. All
labels of a compiled program are different. Control moves from one block to another by calls alone:
jumps stay in their block, and calls go to functions of the program.
-/
namespace StackCompiler

namespace Code

/-- The code from a label on. -/
def fromLabel (l : String) (code : Code) : Code :=
  code.dropWhile fun line => line.item ≠ .label l

theorem mem_view {α : Type} {f : Item → Option α} {code : Code} {a : α} :
    a ∈ code.view f ↔ ∃ line ∈ code, f line.item = some a := by
  rw [view, List.mem_filterMap]

/-- A label is found at its first place. -/
theorem fromLabel_append {a b : Code} {depth : Nat} {l : String} (h : l ∉ a.labels) :
    fromLabel l (a ++ ⟨depth, .label l⟩ :: b) = ⟨depth, .label l⟩ :: b := by
  have hbefore : ∀ line ∈ a, decide (line.item ≠ .label l) = true := by
    intro line hline
    rw [decide_eq_true_iff]
    intro hitem
    exact h (mem_view.mpr ⟨line, hline, by rw [hitem, Item.label?]⟩)
  rw [fromLabel, List.dropWhile_append_of_pos hbefore]
  simp

end Code

namespace Program

/-- Whether a line is the label of a function. -/
def opensFunction (p : Program) (line : Line) : Bool :=
  match line.item with
  | .label name => (p.functions.get? name).isSome
  | _ => false

/-- The code before the first function. -/
def opening (p : Program) : Code :=
  p.code.takeWhile fun line => !p.opensFunction line

/-- The block of a function: its label and the lines up to the label of the next function. -/
def block (p : Program) (name : String) : Code :=
  match p.code.fromLabel name with
  | [] => []
  | first :: rest => first :: rest.takeWhile fun line => !p.opensFunction line

end Program

/-- Where keys are different, an element is found by its key. -/
theorem find?_key_eq_some {α : Type} {key : α → String} {l : List α} (h : (l.map key).Nodup) {a : α}
    (ha : a ∈ l) : l.find? (key · == key a) = some a := by
  have hsome : (l.find? (key · == key a)).isSome := List.find?_isSome.mpr ⟨a, ha, by simp⟩
  obtain ⟨b, hb⟩ := Option.isSome_iff_exists.mp hsome
  have hkey : key b = key a := by simpa using List.find?_some hb
  rw [hb, List.inj_on_of_nodup_map h (List.mem_of_find?_eq_some hb) ha hkey]

/-- Where keys are different, the order of the elements does not matter for what is found by a key.
-/
theorem find?_key_eq_of_perm {α : Type} {key : α → String} {l l' : List α} (h : l.Perm l')
    (hkeys : (l.map key).Nodup) (name : String) :
    l.find? (key · == name) = l'.find? (key · == name) := by
  have hkeys' : (l'.map key).Nodup := (h.map key).nodup_iff.mp hkeys
  cases hfind : l.find? (key · == name) with
  | none =>
    symm
    rw [List.find?_eq_none] at hfind ⊢
    exact fun a ha => hfind a (h.mem_iff.mpr ha)
  | some a =>
    obtain rfl : key a = name := by simpa using List.find?_some hfind
    exact (find?_key_eq_some hkeys' (h.mem_iff.mp (List.mem_of_find?_eq_some hfind))).symm

namespace FunctionTable

variable {table table' : FunctionTable}

theorem WellNamed.get?_eq_some (h : table.WellNamed) {f : Function} (hf : f ∈ table) :
    table.get? f.name = some f :=
  find?_key_eq_some h.nodup hf

theorem WellNamed.point_notMem (h : table.WellNamed) {f : Function} (hf : f ∈ table) :
    '.' ∉ f.name.toList := by
  intro hpoint
  have hname := h.isName f hf
  simp only [Function.isName, Bool.and_eq_true, Bool.not_eq_true', List.any_eq_false] at hname
  exact hname.2 '.' hpoint rfl

/-- No function has a generated label for its name. -/
theorem WellNamed.get?_eq_none (h : table.WellNamed) {l : String} (hl : '.' ∈ l.toList) :
    table.get? l = none := by
  cases hget : table.get? l with
  | none => rfl
  | some f =>
    obtain ⟨hf, rfl⟩ := FunctionTable.get?_eq_some hget
    exact absurd hl (h.point_notMem hf)

/-- The bodies of functions lie at different places of the program. -/
theorem Collects.ids_sublist {ts : List Term} (h : Collects table ts table') :
    (table'.flatMap fun f => f.body.ids).Sublist
      ((table.flatMap fun f => f.body.ids) ++ ts.flatMap Term.ids) := by
  induction h with
  | nil => simp
  | define _ _ _ _ ih =>
    refine ih.trans ?_
    rw [List.flatMap_append, List.flatMap_cons, List.append_assoc]
    refine (List.Sublist.refl _).append (List.Sublist.append ?_ (List.Sublist.refl _))
    simp only [List.flatMap_nil, List.append_nil, Term.ids]
    exact (List.sublist_append_right _ _).trans (List.sublist_append_left _ _)
  | other _ _ ih =>
    rw [List.flatMap_cons]
    exact ih.trans ((List.Sublist.refl _).append (List.sublist_append_right _ _))

end FunctionTable

namespace Lowering

variable {table : FunctionTable} {globals : Frame}

/-- The labels inside a block are generated. -/
theorem Compiles.generated {form : Form} {s s' : Scopes} {t : Term} {code : Code}
    (h : Compiles table form s t code s') {l : String} (hl : l ∈ code.labels) :
    ∃ id, l ∈ NodeId.labels id := by
  have hpos := Nat.lt_of_lt_of_le (List.count_pos_iff.mpr hl) (h.count_labels l)
  obtain ⟨id, -, hid⟩ := List.mem_flatMap.mp (List.count_pos_iff.mp hpos)
  exact ⟨id, hid⟩

/-- The labels inside a block have a point. -/
theorem Compiles.point_mem {form : Form} {s s' : Scopes} {t : Term} {code : Code}
    (h : Compiles table form s t code s') {l : String} (hl : l ∈ code.labels) : '.' ∈ l.toList := by
  obtain ⟨id, hid⟩ := h.generated hl
  exact NodeId.point_mem_of_mem_labels hid

theorem DefinesAll.count_labels {fs : List Function} {code : Code} {frames : List (String × Frame)}
    (h : DefinesAll table globals fs code frames) (l : String) :
    code.labels.count l ≤ (fs.map Function.name).count l +
      ((fs.flatMap fun f => f.body.ids).flatMap NodeId.labels).count l := by
  induction h with
  | nil => simp
  | cons hdefines _ ih =>
    obtain ⟨-, start, body, -, hbody, rfl⟩ := hdefines
    have hcount := hbody.count_labels l
    simp only [Code.labels, Code.view_append, Code.view_label, Code.view_indented, Item.label?,
      Option.toList_some, List.map_cons, List.flatMap_cons, List.flatMap_append, List.count_append,
      List.count_cons, List.count_nil] at ih hcount ⊢
    omega

theorem Initializes.labels {s s' : Scopes} {ts : List Term} {code : Code}
    (h : Initializes table s ts code s') : code.labels = [] := by
  induction h with
  | nil => rfl
  | assign hassign _ ih =>
    cases hassign
    simp [ih]
  | other _ _ ih => exact ih

theorem Initializes.jumps {s s' : Scopes} {ts : List Term} {code : Code}
    (h : Initializes table s ts code s') : code.jumps = [] := by
  induction h with
  | nil => rfl
  | assign hassign _ ih =>
    have hjumps := hassign.jumps_subset
    cases hassign
    have hlabels : ∀ is, (Code.ofInstructions is).labels = [] := by simp
    rw [hlabels] at hjumps
    simp only [Code.jumps, Code.view_append, List.filterMap_append, ih, List.subset_nil.mp hjumps,
      List.append_nil]
  | other _ _ ih => exact ih

theorem Initializes.calls_subset {s s' : Scopes} {ts : List Term} {code : Code}
    (h : Initializes table s ts code s') : code.calls ⊆ table.map Function.name := by
  induction h with
  | nil => exact List.nil_subset _
  | assign hassign _ ih =>
    simp only [Code.calls, Code.view_append, List.filterMap_append]
    exact List.append_subset.mpr ⟨hassign.calls_subset, ih⟩
  | other _ _ ih => exact ih

theorem Anatomy.wellNamed {t : Term} {p : Program} {start bodies : Code}
    (h : Anatomy t p start bodies) : p.functions.WellNamed :=
  h.collects.wellNamed ⟨by simp, List.nodup_nil⟩

theorem Anatomy.nodup_ids {t : Term} {p : Program} {start bodies : Code}
    (h : Anatomy t p start bodies) (hids : t.ids.Nodup) :
    (p.functions.flatMap fun f => f.body.ids).Nodup :=
  (h.collects.ids_sublist.trans t.ids_links_sublist).nodup hids

theorem Anatomy.labels_opening {t : Term} {p : Program} {start bodies : Code}
    (h : Anatomy t p start bodies) : (start ++ preamble p.globals.size).labels = [] := by
  simp [h.initializes.labels, preamble]

theorem Anatomy.labels_code {t : Term} {p : Program} {start bodies : Code}
    (h : Anatomy t p start bodies) : p.code.labels = bodies.labels := by
  simp only [h.code, Code.labels, Code.view_append _ (_ ++ _), h.labels_opening, List.nil_append]

/-- All labels of a program are different. -/
theorem Anatomy.nodup_labels {t : Term} {p : Program} {start bodies : Code}
    (h : Anatomy t p start bodies) (hids : t.ids.Nodup) : p.code.labels.Nodup := by
  have hnames := h.wellNamed
  have hgenerated := NodeId.nodup_flatMap_labels (h.nodup_ids hids)
  have hdisjoint : (p.functions.map Function.name).Disjoint
      ((p.functions.flatMap fun f => f.body.ids).flatMap NodeId.labels) := by
    intro l hname hlabel
    obtain ⟨f, hf, rfl⟩ := List.mem_map.mp hname
    obtain ⟨id, -, hid⟩ := List.mem_flatMap.mp hlabel
    exact hnames.point_notMem hf (NodeId.point_mem_of_mem_labels hid)
  have hall := hnames.nodup.append hgenerated hdisjoint
  rw [h.labels_code, List.nodup_iff_count_le_one]
  intro l
  have hcount := h.definesAll.count_labels l
  rw [← List.count_append] at hcount
  exact Nat.le_trans hcount (List.nodup_iff_count_le_one.mp hall l)

/-- No line of code opens a function if no label of it is the name of one. -/
theorem opensFunction_eq_false {p : Program} {code : Code}
    (h : ∀ l ∈ code.labels, p.functions.get? l = none) :
    ∀ line ∈ code, (!p.opensFunction line) = true := by
  intro line hline
  unfold Program.opensFunction
  cases hitem : line.item with
  | instruction i => rfl
  | comment text => rfl
  | label l =>
    have hnone := h l (Code.mem_view.mpr ⟨line, hline, by rw [hitem, Item.label?]⟩)
    simp [hnone]

/-- Code without functions ends where the blocks of functions start. -/
theorem takeWhile_append_definesAll {p : Program} (hnames : p.functions.WellNamed)
    {fs : List Function} {code more : Code} {frames : List (String × Frame)}
    (hfs : fs ⊆ p.functions) (h : ∀ l ∈ code.labels, p.functions.get? l = none)
    (hmore : DefinesAll p.functions p.globals fs more frames) :
    (code ++ more).takeWhile (fun line => !p.opensFunction line) = code := by
  rw [List.takeWhile_append_of_pos (opensFunction_eq_false h)]
  cases hmore with
  | nil => simp
  | cons hdefines _ =>
    obtain ⟨-, start, body, -, -, rfl⟩ := hdefines
    have hsome := hnames.get?_eq_some (hfs List.mem_cons_self)
    simp [Code.label, Program.opensFunction, hsome]

theorem Anatomy.opening_eq {t : Term} {p : Program} {start bodies : Code}
    (h : Anatomy t p start bodies) : p.opening = start ++ preamble p.globals.size := by
  rw [Program.opening, h.code]
  refine takeWhile_append_definesAll h.wellNamed (List.Subset.refl _) ?_ h.definesAll
  simp [h.labels_opening]

/-- The block of a function is the code that its definition gives. -/
theorem block_eq {p : Program} (hnames : p.functions.WellNamed) {f : Function} {fs : List Function}
    {before code more : Code} {frame : Frame} {frames : List (String × Frame)}
    (hfs : fs ⊆ p.functions) (hbefore : f.name ∉ before.labels)
    (hdefines : Defines p.functions p.globals f code frame)
    (hmore : DefinesAll p.functions p.globals fs more frames)
    (hcode : p.code = before ++ (code ++ more)) : p.block f.name = code := by
  obtain ⟨-, start, body, -, hbody, rfl⟩ := hdefines
  rw [Code.label, List.append_assoc, List.singleton_append] at hcode
  have hfrom : p.code.fromLabel f.name = ⟨0, .label f.name⟩ :: (Code.indented body ++ more) := by
    rw [hcode]
    exact Code.fromLabel_append hbefore
  have hinside : ∀ l ∈ (Code.indented body).labels, p.functions.get? l = none := by
    intro l hl
    rw [Code.labels, Code.view_indented] at hl
    exact hnames.get?_eq_none (hbody.point_mem hl)
  rw [Program.block, hfrom]
  exact congrArg (_ :: ·) (takeWhile_append_definesAll hnames hfs hinside hmore)

theorem Defines.name_mem {f : Function} {code : Code} {frame : Frame}
    (h : Defines table globals f code frame) : f.name ∈ code.labels := by
  obtain ⟨-, start, body, -, -, rfl⟩ := h
  simp

/-- The label of a function that has only one is not met before its block. -/
theorem Defines.name_notMem_before {f : Function} {all before code more : Code} {frame : Frame}
    (h : Defines table globals f code frame) (hone : all.labels.count f.name ≤ 1)
    (hall : all = before ++ (code ++ more)) : f.name ∉ before.labels := by
  intro hmem
  have hfirst := List.count_pos_iff.mpr hmem
  have hsecond := List.count_pos_iff.mpr h.name_mem
  simp only [hall, Code.labels, Code.view_append, List.count_append] at hone hfirst hsecond
  omega

/-- Each function has its block in the code, and the blocks follow one another. -/
theorem blocks_of_definesAll {p : Program} (hnames : p.functions.WellNamed)
    (hlabels : ∀ f ∈ p.functions, p.code.labels.count f.name ≤ 1) {fs : List Function}
    {before code : Code} {frames : List (String × Frame)}
    (h : DefinesAll p.functions p.globals fs code frames) (hfs : fs ⊆ p.functions)
    (hcode : p.code = before ++ code) :
    (code = fs.flatMap fun f => p.block f.name) ∧
      ∀ f ∈ fs, ∃ a b frame, p.code = a ++ p.block f.name ++ b ∧
        Defines p.functions p.globals f (p.block f.name) frame ∧ (f.name, frame) ∈ frames := by
  induction h generalizing before with
  | nil => simp
  | @cons f fs code more frame frames hdefines hmore ih =>
    have htail := List.subset_of_cons_subset hfs
    have hbefore := hdefines.name_notMem_before (hlabels f (hfs List.mem_cons_self)) hcode
    have hblock := block_eq hnames htail hbefore hdefines hmore hcode
    have hnext : p.code = (before ++ code) ++ more := by rw [hcode, List.append_assoc]
    obtain ⟨hrest, hall⟩ := ih htail hnext
    constructor
    · rw [List.flatMap_cons, hblock, ← hrest]
    · intro g hg
      rcases List.mem_cons.mp hg with rfl | hg
      · exact ⟨before, more, frame, by rw [hblock, hnext], by rwa [hblock], List.mem_cons_self⟩
      · obtain ⟨a, b, frame', hcode', hdefines', hmem⟩ := hall g hg
        exact ⟨a, b, frame', hcode', hdefines', List.mem_cons_of_mem _ hmem⟩

theorem DefinesAll.name_mem {fs : List Function} {code : Code} {frames : List (String × Frame)}
    (h : DefinesAll table globals fs code frames) {f : Function} (hf : f ∈ fs) :
    f.name ∈ code.labels := by
  induction h with
  | nil => cases hf
  | cons hdefines _ ih =>
    rw [Code.labels, Code.view_append, List.mem_append]
    rcases List.mem_cons.mp hf with rfl | hf
    · exact .inl hdefines.name_mem
    · exact .inr (ih hf)

theorem Defines.jumps_subset {f : Function} {code : Code} {frame : Frame}
    (h : Defines table globals f code frame) : code.jumps ⊆ code.labels := by
  obtain ⟨-, start, body, -, hbody, rfl⟩ := h
  simp only [Code.jumps, Code.labels, Code.view_append, Code.view_indented, List.filterMap_append]
  exact List.append_subset.mpr
    ⟨List.nil_subset _, List.subset_append_of_subset_right _ hbody.jumps_subset⟩

theorem Defines.calls_subset {f : Function} {code : Code} {frame : Frame}
    (h : Defines table globals f code frame) : code.calls ⊆ table.map Function.name := by
  obtain ⟨-, start, body, -, hbody, rfl⟩ := h
  simpa using hbody.calls_subset

theorem DefinesAll.names {fs : List Function} {code : Code} {frames : List (String × Frame)}
    (h : DefinesAll table globals fs code frames) : frames.map Prod.fst = fs.map Function.name := by
  induction h with
  | nil => rfl
  | cons _ _ ih => rw [List.map_cons, List.map_cons, ih]

/-- The label of a function occurs once, also where nodes are shared and generated labels are
repeated. -/
theorem Anatomy.count_name {t : Term} {p : Program} {start bodies : Code}
    (h : Anatomy t p start bodies) {f : Function} (hf : f ∈ p.functions) :
    p.code.labels.count f.name ≤ 1 := by
  have hnames := h.wellNamed
  have hcount := h.definesAll.count_labels f.name
  have hone := List.nodup_iff_count_le_one.mp hnames.nodup f.name
  have hgenerated :
      ((p.functions.flatMap fun f => f.body.ids).flatMap NodeId.labels).count f.name = 0 := by
    rw [List.count_eq_zero]
    intro hmem
    obtain ⟨id, -, hid⟩ := List.mem_flatMap.mp hmem
    exact hnames.point_notMem hf (NodeId.point_mem_of_mem_labels hid)
  rw [h.labels_code]
  omega

theorem Anatomy.frame?_eq_some {t : Term} {p : Program} {start bodies : Code}
    (h : Anatomy t p start bodies) {f : Function} {frame : Frame}
    (hmem : (f.name, frame) ∈ p.frames) : p.frame? f.name = some frame := by
  have hkeys : (p.frames.map Prod.fst).Nodup := h.definesAll.names ▸ h.wellNamed.nodup
  rw [Program.frame?, find?_key_eq_some hkeys hmem]
  rfl

/-- The code of a program is its opening and the blocks of its functions, and what the block and the
frame of a function are. -/
theorem Anatomy.blocks {t : Term} {p : Program} {start bodies : Code}
    (h : Anatomy t p start bodies) :
    (p.code = p.opening ++ p.functions.flatMap fun f => p.block f.name) ∧
      ∀ f ∈ p.functions, ∃ a b frame, p.code = a ++ p.block f.name ++ b ∧
        Defines p.functions p.globals f (p.block f.name) frame ∧ p.frame? f.name = some frame := by
  obtain ⟨hbodies, hall⟩ := blocks_of_definesAll h.wellNamed (fun _ => h.count_name) h.definesAll
    (List.Subset.refl _) h.code
  constructor
  · rw [h.opening_eq, ← hbodies]
    exact h.code
  · intro f hf
    obtain ⟨a, b, frame, hcode, hdefines, hmem⟩ := hall f hf
    exact ⟨a, b, frame, hcode, hdefines, h.frame?_eq_some hmem⟩

end Lowering

open Lowering in
/-- In a program compiled from a tree all labels are different, jumps stay in the block of their
function, the opening neither jumps nor can be jumped to, and except for the call of the entry
function at the end of the opening every call goes to a function of the program. -/
theorem labels_distinct_and_jumps_confined (t : Tree) (p : Program)
    (h : (Arena.ofTree t).compile = .ok p) :
    p.code.labels.Nodup ∧
      (p.code = p.opening ++ p.functions.flatMap fun f => p.block f.name) ∧
      (∀ f ∈ p.functions, f.name ∈ (p.block f.name).labels ∧
        (p.block f.name).jumps ⊆ (p.block f.name).labels ∧
        (p.block f.name).calls ⊆ p.functions.map Function.name) ∧
      p.opening.labels = [] ∧ p.opening.jumps = [] ∧
      ∃ start, p.opening = start ++ .ofInstructions
          [.push (.register .cx), .push (.number (.ofNat p.globals.size)), .plain .add,
            .pop (some (.register .bx)), .transfer .call "main", .plain .halt] ∧
        start.calls ⊆ p.functions.map Function.name := by
  obtain ⟨start, bodies, hanatomy⟩ := anatomy_of_compile h
  have hids := nodup_ids_ofTree t
  refine ⟨hanatomy.nodup_labels hids, hanatomy.blocks.1, ?_, ?_, ?_, start,
    hanatomy.opening_eq, hanatomy.initializes.calls_subset⟩
  · intro f hf
    obtain ⟨-, -, frame, -, hdefines, -⟩ := hanatomy.blocks.2 f hf
    exact ⟨hdefines.name_mem, hdefines.jumps_subset, hdefines.calls_subset⟩
  · rw [hanatomy.opening_eq, hanatomy.labels_opening]
  · simp only [hanatomy.opening_eq, Code.jumps, Code.view_append, List.filterMap_append,
      hanatomy.initializes.jumps]
    rfl

/-- A chain of trees, innermost first. -/
def Tree.chain (tag : Keyword) (ts : List Tree) : Tree :=
  ts.foldl (Tree.keyword tag) .absent

/-- A global, a function with a loop that adds to it, and an entry function with a branch that calls
it while an operand is pending. -/
def Tree.countdown : Tree :=
  let total : Tree := .ident "total" .absent
  let n : Tree := .ident "n" .absent
  let loop : Tree := .keyword .whileLoop n <| .chain .stmt
    [.keyword .assign total (.keyword .add total n),
      .keyword .assign n (.keyword .sub n (.number (.ofNat 1)))]
  let branch : Tree := .keyword .ifThen total <| .keyword .decision
    (.chain .stmt [.keyword .ret .absent (.keyword .add total
      (.keyword .call (.ident "count" .absent) (.chain .param [.number (.ofNat 3)])))])
    (.chain .stmt [.keyword .ret .absent total])
  .chain .stmt
    [.keyword .assign total (.number (.ofNat 2)),
      .keyword .define (.keyword .func (.ident "count" .absent) (.chain .param [n]))
        (.chain .stmt [loop, .keyword .ret .absent total]),
      .keyword .define (.keyword .func (.ident "main" .absent) .absent) (.chain .stmt [branch])]

/-- The program of a tree, if it compiles. -/
def Program.ofTree (t : Tree) : Program :=
  (Arena.ofTree t).compile.toOption.getD ⟨[], [], .empty .cx, []⟩

theorem compile_ofTree {t : Tree} (h : (Arena.ofTree t).compile.isOk = true) :
    (Arena.ofTree t).compile = .ok (.ofTree t) := by
  unfold Program.ofTree
  cases hcompile : (Arena.ofTree t).compile with
  | error e => simp [hcompile, Except.isOk, Except.toBool] at h
  | ok p => rfl

def Program.countdown : Program :=
  .ofTree .countdown

theorem compile_countdown : (Arena.ofTree .countdown).compile = .ok .countdown :=
  compile_ofTree (by decide +kernel)

theorem labels_distinct_and_jumps_confined_countdown :
    Program.countdown.functions.map Function.name = ["count", "main"] ∧
      Program.countdown.code.labels.length = 6 ∧ Program.countdown.code.labels.Nodup ∧
      ∀ f ∈ Program.countdown.functions,
        (Program.countdown.block f.name).jumps ⊆ (Program.countdown.block f.name).labels := by
  obtain ⟨hlabels, -, hblocks, -⟩ := labels_distinct_and_jumps_confined _ _ compile_countdown
  exact ⟨by decide +kernel, by decide +kernel, hlabels, fun f hf => (hblocks f hf).2.1⟩

end StackCompiler
