import StackCompiler.Proofs.Blocks
import StackCompiler.Proofs.Execution

/-!
# Shapes of the evaluation stack

A shape says what is known, at a place of the code, of the values that the running function has on
the evaluation stack and of the two frame registers. `Admits` says that code can be executed from a
shape: each instruction finds its operands, control is transferred only with an empty stack and the
frame base in place, and the frame base is computed back after each call. All compiled code is
admitted.
-/
namespace StackCompiler

/-- Whether no `in` node has a right child. -/
def Tree.bareInputs : Tree → Bool
  | .keyword tag left right =>
    (tag ≠ .input || right.isAbsent) && left.bareInputs && right.bareInputs
  | .ident _ index => index.bareInputs
  | _ => true

/-- Whether no `in` node has a right child. -/
def Term.bareInputs : Term → Bool
  | .node _ kind left right =>
    (kind ≠ .keyword .input || right.isAbsent) && left.bareInputs && right.bareInputs
  | _ => true

theorem Tree.isAbsent_numbered (t : Tree) (n : Nat) : (t.numbered n).isAbsent = t.isAbsent := by
  cases t <;> rfl

theorem Tree.bareInputs_numbered (t : Tree) (n : Nat) :
    (t.numbered n).bareInputs = t.bareInputs := by
  induction t generalizing n with
  | absent => rfl
  | number value => rfl
  | ident name index ih => simp [numbered, Term.bareInputs, bareInputs, ih]
  | keyword tag left right ihl ihr =>
    simp [numbered, Term.bareInputs, bareInputs, ihl, ihr, isAbsent_numbered]

theorem Term.bareInputs_node {id : NodeId} {kind : Kind} {left right : Term}
    (h : (Term.node id kind left right).bareInputs = true) :
    (kind = .keyword .input → right.isAbsent = true) ∧ left.bareInputs = true ∧
      right.bareInputs = true := by
  simpa [bareInputs, and_assoc, or_iff_not_imp_left] using h

theorem Term.bareInputs_links {t u : Term} (h : t.bareInputs = true) (hu : u ∈ t.links) :
    u.bareInputs = true := by
  induction t with
  | absent => cases hu
  | dangling id => cases hu
  | node id kind left right ihl _ =>
    obtain ⟨-, hleft, hright⟩ := bareInputs_node h
    rw [links, List.mem_append, List.mem_singleton] at hu
    rcases hu with hu | rfl
    · exact ihl hleft hu
    · exact hright

/-- What is known of a value, relative to the frame base of the running function. -/
inductive Slot where
  | any
  | base
  /-- This number. -/
  | size (n : Nat)
  /-- The frame base with this number added. -/
  | shifted (n : Nat)

/-- The values of the running function on the evaluation stack, and those in `bx` and `cx`. -/
structure Shape where
  temps : List Slot
  bx : Slot
  cx : Slot

namespace Shape

/-- What `bx` holds where variables are addressed from `base`. -/
def bxOn (base : Register) : Slot :=
  if base = .cx then .any else .base

def cxOn (base : Register) : Slot :=
  if base = .cx then .base else .any

/-- The shape where variables are addressed from `base`: that register holds the frame base. -/
def basedOn (base : Register) (temps : List Slot) : Shape :=
  ⟨temps, bxOn base, cxOn base⟩

/-- The shape inside a function. -/
def inner (temps : List Slot) : Shape :=
  ⟨temps, .base, .any⟩

theorem basedOn_eq_inner {base : Register} (h : base = .bx) (temps : List Slot) :
    basedOn base temps = inner temps := by
  subst h
  rfl

end Shape

/-- What code may refer to. -/
structure Rules where
  /-- The frame sizes that calls add and subtract. -/
  Size : Nat → Prop
  Label : String → Prop
  Callee : String → Prop

open Instruction

/-- Code that can be executed from a shape. -/
inductive Admits (R : Rules) : Shape → List Item → Prop
  | nil : Admits R (.inner []) []
  | label {l rest} : Admits R (.inner []) rest → Admits R (.inner []) (.label l :: rest)
  | push {operand τ bx cx rest} : Admits R ⟨.any :: τ, bx, cx⟩ rest →
      Admits R ⟨τ, bx, cx⟩ (.instruction (.push operand) :: rest)
  | pushSize {n τ bx cx rest} : Admits R ⟨.size n :: τ, bx, cx⟩ rest →
      Admits R ⟨τ, bx, cx⟩ (.instruction (.push (.number (.ofNat n))) :: rest)
  | pushBx {τ bx cx rest} : Admits R ⟨bx :: τ, bx, cx⟩ rest →
      Admits R ⟨τ, bx, cx⟩ (.instruction (.push (.register .bx)) :: rest)
  | pushCx {τ bx cx rest} : Admits R ⟨cx :: τ, bx, cx⟩ rest →
      Admits R ⟨τ, bx, cx⟩ (.instruction (.push (.register .cx)) :: rest)
  | popBx {slot τ bx cx rest} : Admits R ⟨τ, slot, cx⟩ rest →
      Admits R ⟨slot :: τ, bx, cx⟩ (.instruction (.pop (some (.register .bx))) :: rest)
  | clobberBx {slot τ bx cx rest} : Admits R ⟨τ, .any, cx⟩ rest →
      Admits R ⟨slot :: τ, bx, cx⟩ (.instruction (.pop (some (.register .bx))) :: rest)
  | popRegister {r slot τ bx cx rest} : r = .ax ∨ r = .hx → Admits R ⟨τ, bx, cx⟩ rest →
      Admits R ⟨slot :: τ, bx, cx⟩ (.instruction (.pop (some (.register r))) :: rest)
  | popMemory {address slot τ bx cx rest} : Admits R ⟨τ, bx, cx⟩ rest →
      Admits R ⟨slot :: τ, bx, cx⟩ (.instruction (.pop (some (.memory address))) :: rest)
  | drop {slot τ bx cx rest} : Admits R ⟨τ, bx, cx⟩ rest →
      Admits R ⟨slot :: τ, bx, cx⟩ (.instruction (.pop none) :: rest)
  | jump {l rest} : R.Label l → Admits R (.inner []) rest →
      Admits R (.inner []) (.instruction (.transfer .jump l) :: rest)
  | jumpEq {l slot slot' rest} : R.Label l → Admits R (.inner []) rest →
      Admits R (.inner [slot, slot']) (.instruction (.transfer .jumpEq l) :: rest)
  | call {g a rest} : R.Callee g → Admits R a rest →
      Admits R a (.instruction (.transfer .call g) :: rest)
  | ret {rest} : Admits R (.inner []) rest →
      Admits R (.inner []) (.instruction (.plain .ret) :: rest)
  | unary {operation slot τ bx cx rest} : operation.isUnary = true →
      Admits R ⟨.any :: τ, bx, cx⟩ rest →
      Admits R ⟨slot :: τ, bx, cx⟩ (.instruction (.plain operation) :: rest)
  | binary {operation slot slot' τ bx cx rest} : operation.isBinary = true →
      Admits R ⟨.any :: τ, bx, cx⟩ rest →
      Admits R ⟨slot :: slot' :: τ, bx, cx⟩ (.instruction (.plain operation) :: rest)
  | add {n τ bx cx rest} : Admits R ⟨.shifted n :: τ, bx, cx⟩ rest →
      Admits R ⟨.size n :: .base :: τ, bx, cx⟩ (.instruction (.plain .add) :: rest)
  | sub {n τ bx cx rest} : R.Size n → Admits R ⟨.base :: τ, bx, cx⟩ rest →
      Admits R ⟨.size n :: .shifted n :: τ, bx, cx⟩ (.instruction (.plain .sub) :: rest)
  | input {τ bx cx rest} : Admits R ⟨.any :: τ, bx, cx⟩ rest →
      Admits R ⟨τ, bx, cx⟩ (.instruction (.plain .input) :: rest)
  | out {slot τ bx cx rest} : Admits R ⟨τ, bx, cx⟩ rest →
      Admits R ⟨slot :: τ, bx, cx⟩ (.instruction (.plain .out) :: rest)
  | shw {slot slot' τ bx cx rest} : Admits R ⟨τ, bx, cx⟩ rest →
      Admits R ⟨slot :: slot' :: τ, bx, cx⟩ (.instruction (.plain .shw) :: rest)
  | halt {bx rest} : Admits R ⟨[], bx, .base⟩ (.instruction (.plain .halt) :: rest)

namespace Admits

variable {R : Rules}

/-- Every instruction finds its operands. -/
theorem pops_le {a : Shape} {i : Instruction} {rest : List Item}
    (h : Admits R a (.instruction i :: rest)) : i.pops ≤ a.temps.length := by
  cases h with
  | unary hoperation _ =>
    rw [Instruction.pops, Operation.pops_of_isUnary hoperation, List.length_cons]
    omega
  | binary hoperation _ =>
    rw [Instruction.pops, Operation.pops_of_isBinary hoperation, List.length_cons, List.length_cons]
    omega
  | jumpEq _ _ => exact Nat.le_refl 2
  | add _ => exact Nat.le_add_left 2 _
  | sub _ _ => exact Nat.le_add_left 2 _
  | shw _ => exact Nat.le_add_left 2 _
  | popBx _ | clobberBx _ | popRegister _ _ | popMemory _ | drop _ | out _ =>
    exact Nat.le_add_left 1 _
  | _ => exact Nat.zero_le _

/-- Inside functions a label is reached with an empty stack. -/
theorem seek {a : Shape} {code : List Item} (h : Admits R a code) (ha : a.cx = .any) {l : String}
    (hl : .label l ∈ code) : Admits R (.inner []) (Machine.seek l code) := by
  induction h with
  | nil => cases hl
  | @label l' rest hrest ih =>
    by_cases hsame : l' = l
    · subst hsame
      rw [Machine.seek_label]
      exact .label hrest
    · have hne : Item.label l' ≠ .label l := by simpa using hsame
      rw [Machine.seek_cons_of_ne hne]
      exact ih ha (List.mem_of_ne_of_mem (Ne.symm hne) hl)
  | halt => cases ha
  | _ =>
    rename_i ih
    rw [Machine.seek_cons_of_ne (by simp)]
    exact ih ha (List.mem_of_ne_of_mem (by simp) hl)

theorem callSequence {base : Register} (hbase : base = .bx ∨ base = .cx) {n : Nat} {g : String}
    {τ : List Slot} {rest : List Item} (hsize : R.Size n) (hcallee : R.Callee g)
    (h : Admits R (.basedOn base (.any :: τ)) rest) :
    Admits R (.basedOn base τ) ((Instruction.callSequence base n g).map .instruction ++ rest) := by
  rcases hbase with rfl | rfl
  · exact .pushBx (.pushSize (.add (.popBx (.call hcallee (.push (.pushBx (.pushSize
      (.sub hsize (.popBx h)))))))))
  · exact .pushCx (.pushSize (.add (.popBx (.call hcallee (.push (.pushBx (.pushSize
      (.sub hsize (.clobberBx h)))))))))

end Admits

namespace Lowering

variable {table : FunctionTable} {R : Rules} {whole : List Instruction}

/-- What a piece of lowered code adds to the stack. -/
def Role.result : Role → List Slot → List Slot
  | .value, τ => .any :: τ
  | .shift, τ => τ
  | .staging, τ => τ

/-- Rules that fit a program with the instructions `whole` and the functions of `table`. -/
structure Covers (R : Rules) (table : FunctionTable) (whole : List Instruction) : Prop where
  size : ∀ base n g, callSequence base n g <:+: whole → R.Size n
  callee : ∀ f ∈ table, R.Callee f.name

theorem infix_left {a b : List Instruction} (h : (a ++ b) <:+: whole) : a <:+: whole :=
  (List.prefix_append a b).isInfix.trans h

theorem infix_right {a b : List Instruction} (h : (a ++ b) <:+: whole) : b <:+: whole :=
  (List.suffix_append a b).isInfix.trans h

theorem Lowers.admits (hR : Covers R table whole) {role : Role} {s : Scopes} {t : Term}
    {is : List Instruction} (h : Lowers table role s t is)
    (hbase : s.current.base = .bx ∨ s.current.base = .cx) (hin : t.bareInputs = true)
    (hwhole : is <:+: whole) (τ : List Slot) {rest : List Item}
    (hrest : Admits R (.basedOn s.current.base (role.result τ)) rest) :
    Admits R (.basedOn s.current.base τ) (is.map .instruction ++ rest) := by
  induction h generalizing τ rest with
  | number => exact .push hrest
  | read _ _ _ ih =>
    obtain ⟨-, -, hindex⟩ := Term.bareInputs_node hin
    rw [List.map_append, List.append_assoc]
    exact ih hbase hindex (infix_left hwhole) τ (.push hrest)
  | call hresolve _ _ ih =>
    obtain ⟨-, -, hargs⟩ := Term.bareInputs_node hin
    have hcallee := hR.callee _ (FunctionTable.mem_of_resolve hresolve)
    have hsize := hR.size _ _ _ (infix_right hwhole)
    rw [List.map_append, List.append_assoc]
    exact ih hbase hargs (infix_left hwhole) τ (.callSequence hbase hsize hcallee hrest)
  | binary hmeaning _ _ iha ihb =>
    obtain ⟨-, hleft, hright⟩ := Term.bareInputs_node hin
    have hoperands := infix_left hwhole
    rw [List.map_append, List.map_append, List.append_assoc, List.append_assoc]
    apply iha hbase hleft (infix_left hoperands) τ
    apply ihb hbase hright (infix_right hoperands) (.any :: τ)
    exact .binary (Keyword.isBinary_of_meaning hmeaning) hrest
  | unary hmeaning _ ih =>
    obtain ⟨-, -, hright⟩ := Term.bareInputs_node hin
    rw [List.map_append, List.append_assoc]
    exact ih hbase hright (infix_left hwhole) τ (.unary (Keyword.isUnary_of_meaning hmeaning) hrest)
  | input => exact .input hrest
  | surplus hvalue _ =>
    have habsent := (Term.bareInputs_node hin).1 rfl
    rw [eq_absent_of_isAbsent habsent] at hvalue
    cases hvalue
  | zero => exact .push (.popRegister (.inr rfl) hrest)
  | index _ ih =>
    rw [List.map_append, List.append_assoc]
    exact ih hbase hin (infix_left hwhole) τ (.popRegister (.inr rfl) hrest)
  | nothing => exact hrest
  | @argument s id before argument staged value _ _ ihs ihv =>
    obtain ⟨-, hbefore, hargument⟩ := Term.bareInputs_node hin
    have hvalues := infix_left hwhole
    have hsame : (s.reserve before.links.length).current.base = s.current.base := by simp
    rw [List.map_append, List.map_append, List.append_assoc, List.append_assoc]
    apply ihs hbase hbefore (infix_left hvalues) τ
    rw [hsame] at ihv
    exact ihv hbase hargument (infix_right hvalues) τ (.popMemory hrest)

theorem Targets.admits (hR : Covers R table whole) {s s' : Scopes} {t : Term} {address : Address}
    {load : List Instruction} (h : Targets table s t address load s')
    (hbase : s.current.base = .bx ∨ s.current.base = .cx) (hin : t.bareInputs = true)
    (hwhole : load <:+: whole) (τ : List Slot) {rest : List Item}
    (hrest : Admits R (.basedOn s.current.base τ) rest) :
    Admits R (.basedOn s.current.base τ) (load.map .instruction ++ rest) := by
  cases h with
  | declared _ _ hload =>
    obtain ⟨-, -, hindex⟩ := Term.bareInputs_node hin
    exact hload.admits hR hbase hindex hwhole τ hrest
  | fresh => exact .push (.popRegister (.inr rfl) hrest)

/-- An assignment leaves the stack as it was, inside and outside of functions. -/
theorem admits_assign (hR : Covers R table whole) {s s' : Scopes} {id : NodeId} {left right : Term}
    {code : Code} (h : Compiles table .statement s (.node id (.keyword .assign) left right) code s')
    (hbase : s.current.base = .bx ∨ s.current.base = .cx)
    (hin : (Term.node id (.keyword .assign) left right).bareInputs = true)
    (hwhole : code.instructions <:+: whole) {rest : List Item}
    (hrest : Admits R (.basedOn s.current.base []) rest) :
    Admits R (.basedOn s.current.base []) (code.commands ++ rest) := by
  obtain ⟨-, hleft, hright⟩ := Term.bareInputs_node hin
  cases h with
  | assign hvalue htarget =>
    rw [Code.instructions_ofInstructions] at hwhole
    have hload := infix_left hwhole
    simp only [Code.commands_ofInstructions, List.map_append, List.append_assoc]
    apply hvalue.admits hR hbase hright (infix_left hload) []
    apply htarget.admits hR hbase hleft (infix_right hload) [.any]
    exact .popMemory hrest

theorem Lowers.admits_inner (hR : Covers R table whole) {role : Role} {s : Scopes} {t : Term}
    {is : List Instruction} (h : Lowers table role s t is) (hbase : s.current.base = .bx)
    (hin : t.bareInputs = true) (hwhole : is <:+: whole) (τ : List Slot) {rest : List Item}
    (hrest : Admits R (.inner (role.result τ)) rest) :
    Admits R (.inner τ) (is.map .instruction ++ rest) := by
  rw [← Shape.basedOn_eq_inner hbase] at hrest ⊢
  exact h.admits hR (.inl hbase) hin hwhole τ hrest

theorem admits_test (hR : Covers R table whole) {s : Scopes} {t : Term} {is : List Instruction}
    (h : Lowers table .value s t is) (hbase : s.current.base = .bx) (hin : t.bareInputs = true)
    (hwhole : is <:+: whole) {l : String} (hl : R.Label l) {rest : List Item}
    (hrest : Admits R (.inner []) rest) :
    Admits R (.inner []) (testCommands is l ++ rest) := by
  rw [testCommands, List.append_assoc]
  exact h.admits_inner hR hbase hin hwhole [] (.push (.jumpEq hl hrest))

/-- Statements inside a function leave the stack as it was. -/
theorem Compiles.admits (hR : Covers R table whole) {form : Form} {s s' : Scopes} {t : Term}
    {code : Code} (h : Compiles table form s t code s') (hbase : s.current.base = .bx)
    (hin : t.bareInputs = true) (hwhole : code.instructions <:+: whole)
    (hlabels : ∀ l ∈ code.labels, R.Label l) {rest : List Item}
    (hrest : Admits R (.inner []) rest) : Admits R (.inner []) (code.commands ++ rest) := by
  induction h generalizing rest with
  | assign hvalue htarget =>
    rw [← Shape.basedOn_eq_inner hbase] at hrest ⊢
    exact admits_assign hR (.assign hvalue htarget) (.inl hbase) hin hwhole hrest
  | ifThen htest _ hthen ih =>
    obtain ⟨-, hcondition, hdecision⟩ := Term.bareInputs_node hin
    obtain ⟨-, hthenIn, -⟩ := Term.bareInputs_node hdecision
    rw [instructions_ifThen] at hwhole
    rw [labels_ifThen] at hlabels
    rw [commands_ifThen, List.append_assoc, List.append_assoc]
    apply admits_test hR htest hbase hcondition (infix_left (infix_left hwhole))
    · exact hlabels _ (by simp)
    apply ih hbase hthenIn (infix_right hwhole)
    · exact fun l hl => hlabels l (by simp [hl])
    · exact .label hrest
  | ifElse htest _ _ hthen helse ihthen ihelse =>
    obtain ⟨-, hcondition, hdecision⟩ := Term.bareInputs_node hin
    obtain ⟨-, hthenIn, helseIn⟩ := Term.bareInputs_node hdecision
    rw [instructions_ifElse] at hwhole
    rw [labels_ifElse] at hlabels
    rw [commands_ifElse, List.append_assoc, List.append_assoc]
    have hbefore := infix_left (infix_left hwhole)
    apply admits_test hR htest hbase hcondition (infix_left (infix_left hbefore))
    · exact hlabels _ (by simp)
    apply ihthen hbase hthenIn (infix_right hbefore)
    · exact fun l hl => hlabels l (by simp [hl])
    rw [List.cons_append, List.cons_append, List.append_assoc]
    refine .jump (hlabels _ (by simp)) (.label ?_)
    apply ihelse (hthen.extends.current.base.trans hbase) helseIn (infix_right hwhole)
    · exact fun l hl => hlabels l (by simp [hl])
    · exact .label hrest
  | whileLoop htest _ hbody ih =>
    obtain ⟨-, hcondition, hbodyIn⟩ := Term.bareInputs_node hin
    rw [instructions_loop] at hwhole
    rw [labels_loop] at hlabels
    rw [commands_loop, List.append_assoc, List.cons_append]
    have hbefore := infix_left hwhole
    refine .label (admits_test hR htest hbase hcondition (infix_left (infix_left hbefore)) ?_ ?_)
    · exact hlabels _ (by simp)
    rw [List.append_assoc]
    apply ih hbase hbodyIn (infix_right hbefore)
    · exact fun l hl => hlabels l (by simp [hl])
    · exact .jump (hlabels _ (by simp)) (.label hrest)
  | ret hvalue =>
    obtain ⟨-, -, hright⟩ := Term.bareInputs_node hin
    rw [Code.instructions_ofInstructions] at hwhole
    simp only [Code.commands_ofInstructions, List.map_append, List.append_assoc]
    exact hvalue.admits_inner hR hbase hright (infix_left hwhole) []
      (.popRegister (.inl rfl) (.ret hrest))
  | display _ _ hload hvalue =>
    obtain ⟨-, hleft, hright⟩ := Term.bareInputs_node hin
    obtain ⟨-, -, hindex⟩ := Term.bareInputs_node hleft
    rw [Code.instructions_ofInstructions] at hwhole
    have hvalues := infix_left hwhole
    simp only [Code.commands_ofInstructions, List.map_append, List.append_assoc]
    apply hload.admits_inner hR hbase hindex (infix_left (infix_left hvalues)) []
    refine .push (hvalue.admits_inner hR hbase hright (infix_right hvalues) [.any] ?_)
    exact .shw hrest
  | out hvalue =>
    obtain ⟨-, -, hright⟩ := Term.bareInputs_node hin
    rw [Code.instructions_ofInstructions] at hwhole
    simp only [Code.commands_ofInstructions, List.map_append, List.append_assoc]
    exact hvalue.admits_inner hR hbase hright (infix_left hwhole) [] (.out hrest)
  | call hvalue =>
    rw [Code.instructions_ofInstructions] at hwhole
    simp only [Code.commands_ofInstructions, List.map_append, List.append_assoc]
    exact hvalue.admits_inner hR hbase hin (infix_left hwhole) [] (.drop hrest)
  | nil => exact hrest
  | cons hcode hlast ih ihlast =>
    obtain ⟨-, hbefore, hlastIn⟩ := Term.bareInputs_node hin
    simp only [Code.instructions, Code.labels, Code.view_append] at hwhole hlabels
    simp only [Code.commands, Code.view_append, List.append_assoc]
    apply ih hbase hbefore (infix_left hwhole)
    · exact fun l hl => hlabels l (List.mem_append_left _ hl)
    apply ihlast (hcode.extends.current.base.trans hbase) hlastIn (infix_right hwhole)
    · exact fun l hl => hlabels l (List.mem_append_right _ hl)
    · exact hrest

/-- The blocks of functions are admitted one after another. -/
theorem DefinesAll.admits {globals : Frame} (hR : Covers R table whole) {fs : List Function}
    {code : Code} {frames : List (String × Frame)} (h : DefinesAll table globals fs code frames)
    (hin : ∀ f ∈ fs, f.body.bareInputs = true) (hwhole : code.instructions <:+: whole)
    (hlabels : ∀ l ∈ code.labels, R.Label l) : Admits R (.inner []) code.commands := by
  induction h with
  | nil => exact .nil
  | cons hdefines _ ih =>
    obtain ⟨-, start, body, hparams, hbody, rfl⟩ := hdefines
    simp only [Code.instructions, Code.labels, Code.view_append, Code.view_indented]
      at hwhole hlabels
    simp only [Code.commands, Code.view_append, Code.view_indented, List.append_assoc]
    refine .label (hbody.admits hR hparams.extends.base (hin _ List.mem_cons_self)
      (infix_right (infix_left hwhole)) ?_ ?_)
    · exact fun l hl => hlabels l (by simp [hl])
    · apply ih (fun f hf => hin f (List.mem_cons_of_mem _ hf)) (infix_right hwhole)
      exact fun l hl => hlabels l (by simp [hl])

/-- The initializers leave the stack as it was. -/
theorem Initializes.admits (hR : Covers R table whole) {s s' : Scopes} {ts : List Term}
    {code : Code} (h : Initializes table s ts code s') (hbase : s.current.base = .cx)
    (hin : ∀ t ∈ ts, t.bareInputs = true) (hwhole : code.instructions <:+: whole) {rest : List Item}
    (hrest : Admits R (.basedOn .cx []) rest) :
    Admits R (.basedOn .cx []) (code.commands ++ rest) := by
  induction h with
  | nil => exact hrest
  | assign hassign _ ih =>
    simp only [Code.instructions, Code.view_append] at hwhole
    simp only [Code.commands, Code.view_append, List.append_assoc]
    have hmore := ih (hassign.extends.current.base.trans hbase)
      (fun t ht => hin t (List.mem_cons_of_mem _ ht)) (infix_right hwhole)
    rw [← hbase] at hmore ⊢
    exact admits_assign hR hassign (.inr hbase) (hin _ List.mem_cons_self) (infix_left hwhole) hmore
  | other _ _ ih => exact ih hbase (fun t ht => hin t (List.mem_cons_of_mem _ ht)) hwhole

/-- The program has a call with a caller's frame of this size. -/
def PlacesFrame (p : Program) (n : Nat) : Prop :=
  ∃ base g, callSequence base n g <:+: p.code.instructions

/-- What the code of a program refers to: its frame sizes, the labels that it sets and its
functions. -/
def rulesOf (p : Program) : Rules where
  Size := PlacesFrame p
  Label l := l ∈ p.code.labels
  Callee g := ∃ f ∈ p.functions, f.name = g

theorem covers_rulesOf (p : Program) : Covers (rulesOf p) p.functions p.code.instructions where
  size base _ g h := ⟨base, g, h⟩
  callee f hf := ⟨f, hf, rfl⟩

theorem Anatomy.body_bareInputs {t : Term} {p : Program} {start bodies : Code}
    (h : Anatomy t p start bodies) (hin : t.bareInputs = true) :
    ∀ f ∈ p.functions, f.body.bareInputs = true := by
  intro f hf
  rcases h.collects.origin hf with hf | ⟨header, nameId, left, index, params, -, hmem⟩
  · cases hf
  · exact (Term.bareInputs_node (Term.bareInputs_links hin hmem)).2.2

/-- A whole program is admitted from the start, and each label inside the functions with an empty
stack. -/
theorem Anatomy.admits {t : Term} {p : Program} {start bodies : Code}
    (h : Anatomy t p start bodies) (hin : t.bareInputs = true)
    (hentry : (p.functions.get? Program.entry).isSome = true) :
    Admits (rulesOf p) (.basedOn .cx []) p.code.commands ∧
      ∀ l, (rulesOf p).Label l →
        Admits (rulesOf p) (.inner []) (Machine.seek l p.code.commands) := by
  have hcovers := covers_rulesOf p
  have hcode : p.code.instructions =
      start.instructions ++ (preamble p.globals.size).instructions ++ bodies.instructions := by
    simp only [h.code, Code.instructions, Code.view_append]
  have hinstructions : (start.instructions ++ (preamble p.globals.size).instructions ++
      bodies.instructions) <:+: p.code.instructions := hcode ▸ List.infix_rfl
  have hbodies : Admits (rulesOf p) (.inner []) bodies.commands := by
    apply h.definesAll.admits hcovers (h.body_bareInputs hin) (infix_right hinstructions)
    intro l hl
    show l ∈ p.code.labels
    rwa [h.labels_code]
  obtain ⟨f, hf⟩ := Option.isSome_iff_exists.mp hentry
  have hcallee : (rulesOf p).Callee Program.entry := ⟨f, FunctionTable.get?_eq_some hf⟩
  constructor
  · simp only [h.code, Code.commands, Code.view_append, List.append_assoc]
    apply h.initializes.admits hcovers rfl (fun u hu => Term.bareInputs_links hin hu)
      (infix_left (infix_left hinstructions))
    simp only [preamble, Code.view_ofInstructions, Item.command?, List.filterMap_eq_map']
    exact .pushCx (.pushSize (.add (.popBx (.call hcallee .halt))))
  · intro l hl
    change l ∈ p.code.labels at hl
    rw [h.labels_code, ← Code.filterMap_commands, Machine.mem_labels_iff] at hl
    rw [h.code, Code.commands, Code.view_append, Machine.seek_append]
    · exact hbodies.seek rfl hl
    · rw [Code.filterMap_commands, h.labels_opening]
      exact List.not_mem_nil

end Lowering

end StackCompiler
