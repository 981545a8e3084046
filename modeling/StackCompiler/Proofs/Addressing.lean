import StackCompiler.Proofs.FrameLayout
import Mathlib.Data.List.Forall2

/-!
# Operands in memory

The operands in memory of a piece of code follow the names and arguments of its term, one for each,
in the order of evaluation. A name is addressed by its place in the final frames: relative to `cx`
if it is a global, else relative to `bx`, with the index of its element in `hx`. Frames only grow
while a program is lowered, so that an address taken early still is that of the name at the end.
What does not come from a name is the store of an argument, without an index.

Every instruction whose operand is indexed stands right behind one that loads `hx`, with no label
between them by which it could be reached in another way.
-/
namespace StackCompiler

namespace Instruction

/-- The address in the operand of an instruction. -/
def address? (i : Instruction) : Option Address :=
  match i.operand? with
  | some (.memory a) => some a
  | some (.address a) => some a
  | _ => none

/-- Whether the operand is indexed by `hx`. -/
def isIndexed (i : Instruction) : Bool :=
  match i.address? with
  | some a => a.index == some .hx
  | none => false

/-- Those among some instructions whose operands are addresses. -/
def operands (is : List Instruction) : List Instruction :=
  is.filter fun i => i.address?.isSome

@[simp] theorem operands_append (a b : List Instruction) :
    operands (a ++ b) = operands a ++ operands b := by
  simp [operands]

@[simp] theorem operands_nil : operands [] = [] := rfl

@[simp] theorem operands_transfer (transfer : Transfer) (label : String) (is : List Instruction) :
    operands (.transfer transfer label :: is) = operands is := rfl

@[simp] theorem operands_callSequence (base : Register) (size : Nat) (callee : String) :
    operands (callSequence base size callee) = [] := rfl

end Instruction

namespace Item

def isIndexed : Item → Bool
  | .instruction i => i.isIndexed
  | _ => false

end Item

namespace Code

/-- What stands in the lines. -/
@[simp] abbrev items (code : Code) : List Item :=
  code.view some

@[simp] theorem items_ofInstructions (is : List Instruction) :
    (ofInstructions is).items = is.map .instruction := by
  simp

/-- The instructions whose operands are addresses. -/
@[simp] abbrev operands (code : Code) : List Instruction :=
  Instruction.operands code.instructions

end Code

open Instruction

/-- Every indexed operand stands right behind the load of `hx`. -/
def ShiftsLoaded (items : List Item) : Prop :=
  ∀ before item after, items = before ++ item :: after → item.isIndexed = true →
    before.getLast? = some (.instruction (.pop (some (.register .hx))))

namespace ShiftsLoaded

theorem append {a b : List Item} (ha : ShiftsLoaded a) (hb : ShiftsLoaded b) :
    ShiftsLoaded (a ++ b) := by
  intro before item after h hitem
  rcases List.append_eq_append_iff.mp h with ⟨c, rfl, hb'⟩ | ⟨c, ha', hc⟩
  · have hlast := hb c item after hb' hitem
    rw [List.getLast?_append, hlast]
    rfl
  · cases c with
    | nil =>
      have hlast := hb [] item after hc.symm hitem
      cases hlast
    | cons first c =>
      obtain ⟨rfl, -⟩ := List.cons.inj hc
      exact ha before item c ha' hitem

theorem of_notIndexed {items : List Item} (h : ∀ item ∈ items, item.isIndexed = false) :
    ShiftsLoaded items := by
  rintro before item after rfl hitem
  have hnot := h item (List.mem_append_right _ List.mem_cons_self)
  rw [hnot] at hitem
  cases hitem

/-- Instructions without addresses need no load. -/
theorem of_operands {is : List Instruction} (h : operands is = []) :
    ShiftsLoaded (is.map Item.instruction) := by
  refine of_notIndexed fun item hitem => ?_
  obtain ⟨i, hi, rfl⟩ := List.mem_map.mp hitem
  have hnone : i.address? = none := by simpa using List.filter_eq_nil_iff.mp h i hi
  simp [Item.isIndexed, Instruction.isIndexed, hnone]

theorem nil : ShiftsLoaded [] :=
  of_notIndexed (by simp)

theorem label (name : String) : ShiftsLoaded [.label name] :=
  of_notIndexed (by simp [Item.isIndexed])

theorem comment (text : String) : ShiftsLoaded [.comment text] :=
  of_notIndexed (by simp [Item.isIndexed])

/-- An operand may follow the load. -/
theorem use {items : List Item} (h : ShiftsLoaded items)
    (hlast : items.getLast? = some (.instruction (.pop (some (.register .hx))))) (item : Item) :
    ShiftsLoaded (items ++ [item]) := by
  intro before used after heq hused
  rcases List.append_eq_append_iff.mp heq with ⟨c, rfl, hc⟩ | ⟨c, hitems, hc⟩
  · obtain ⟨rfl, -⟩ : c = [] ∧ after = [] := by
      cases c with
      | nil => simp_all
      | cons first c => simp at hc
    rwa [List.append_nil]
  · cases c with
    | nil =>
      rw [List.append_nil] at hitems
      rwa [← hitems]
    | cons first c =>
      obtain ⟨rfl, -⟩ := List.cons.inj hc
      exact h before used c hitems hused

end ShiftsLoaded

/-- What a term needs an operand in memory for. -/
inductive Use where
  /-- The value of a name. -/
  | read (name : String)
  /-- An assignment to a name. -/
  | write (name : String)
  /-- The address of a name. -/
  | shown (name : String)
  /-- The store of an argument for a call. -/
  | argument
  deriving DecidableEq, Repr

namespace Term

/-- Whether the left child is evaluated before the right one. Else it is not evaluated at all. -/
def evaluatesLeft (tag : Keyword) : Bool :=
  match tag with
  | .call | .ret | .out | .not | .sin | .cos | .int | .input => false
  | _ => true

/-- The uses of memory in a term, in the order of evaluation. An identifier at the top is used as
`use` says. -/
def uses (use : String → Use) : Term → List Use
  | .node _ (.ident name) _ index => index.uses .read ++ [use name]
  | .node _ (.keyword tag) left right =>
    match tag with
    | .assign => right.uses .read ++ left.uses .write
    | .display => left.uses .shown ++ right.uses .read
    | .param => left.uses .read ++ right.uses .read ++ [.argument]
    | tag => if evaluatesLeft tag then left.uses .read ++ right.uses .read else right.uses .read
  | _ => []

theorem uses_binary {id : NodeId} {tag : Keyword} {operation : Operation} {left right : Term}
    (h : tag.meaning? = some (.binary operation)) :
    (Term.node id (.keyword tag) left right).uses .read = left.uses .read ++ right.uses .read := by
  cases tag <;> cases h <;> rfl

theorem uses_unary {id : NodeId} {tag : Keyword} {operation : Operation} {left right : Term}
    (h : tag.meaning? = some (.unary operation)) :
    (Term.node id (.keyword tag) left right).uses .read = right.uses .read := by
  cases tag <;> cases h <;> rfl

end Term

/-- The length of an array is no use of memory. -/
theorem Frame.uses_of_lengthOf? {index : Term} {length : Option Nat}
    (h : lengthOf? index = some length) : index.uses .read = [] := by
  rcases literal_of_lengthOf? h with rfl | ⟨id, n, left, right, rfl⟩
  · rfl
  · rfl

namespace Scopes

/-- The place of a name: globals are relative to `cx`, locals to `bx`. -/
def place? (s : Scopes) (name : String) : Option Address :=
  match s.globals.find? name with
  | some v => some ⟨.cx, v.shift, some .hx⟩
  | none => (s.locals.bind fun f => f.find? name).map fun v => ⟨.bx, v.shift, some .hx⟩

/-- The register that the slots of arguments are relative to. -/
def register (s : Scopes) : Register :=
  if s.locals.isSome then .bx else .cx

theorem place?_eq_some {s : Scopes} (hs : s.Based) {name : String} {frame : Frame} {v : Variable}
    (h : s.find? name = some (frame, v)) : s.place? name = some (frame.address v) := by
  unfold place?
  unfold find? at h
  cases hglobal : s.globals.find? name with
  | some w =>
    simp only [hglobal, Option.some.injEq, Prod.mk.injEq] at h
    obtain ⟨rfl, rfl⟩ := h
    simp [Frame.address, hs.globals]
  | none =>
    cases hlocals : s.locals with
    | none => simp [hglobal, hlocals] at h
    | some f =>
      simp only [hglobal, hlocals, Option.map_eq_some_iff, Prod.mk.injEq] at h
      obtain ⟨w, hw, rfl, rfl⟩ := h
      simp [Frame.address, hs.locals f hlocals, hw]

/-- A name lies in its frame, which is not larger than allowed. -/
theorem Laid.shift_lt_maxSize {s : Scopes} (hs : s.Laid) {name : String} {a : Address}
    (h : s.place? name = some a) : a.shift < Frame.maxSize := by
  have hvariable {f : Frame} (hf : f.Tiled) {v : Variable} (hv : f.find? name = some v) :
      v.shift < Frame.maxSize := by
    have hmem := List.mem_of_find?_eq_some hv
    have hlimit := hf.limit_le_maxSize hmem
    have hpositive := hf.positive v hmem
    omega
  unfold place? at h
  split at h
  · rename_i v hv
    cases h
    exact hvariable hs.tiled hv
  · obtain ⟨v, hv, rfl⟩ := Option.map_eq_some_iff.mp h
    obtain ⟨f, hf, hv⟩ := Option.bind_eq_some_iff.mp hv
    exact hvariable (hs.localsTiled f hf) hv

theorem base_current {s : Scopes} (hs : s.Based) : s.current.base = s.register := by
  unfold current register
  cases hlocals : s.locals with
  | none => exact hs.globals
  | some f => exact hs.locals f hlocals

/-- Reserved slots do not move names. -/
@[simp] theorem place?_reserve (s : Scopes) (count : Nat) (name : String) :
    (s.reserve count).place? name = s.place? name := by
  obtain ⟨globals, locals⟩ := s
  cases locals <;> rfl

@[simp] theorem register_setCurrent (s : Scopes) (f : Frame) :
    (s.setCurrent f).register = s.register := by
  obtain ⟨globals, locals⟩ := s
  cases locals <;> rfl

theorem Based.reserve {s : Scopes} (hs : s.Based) (count : Nat) : (s.reserve count).Based :=
  hs.setCurrent rfl

/-- A name keeps its place while the frames grow. -/
theorem Extends.place? {s s' : Scopes} (h : s.Extends s') {name : String} {a : Address}
    (ha : s.place? name = some a) : s'.place? name = some a := by
  obtain ⟨f, rfl, hf⟩ := h
  obtain ⟨globals, locals⟩ := s
  cases hglobal : globals.find? name with
  | some v =>
    have hlater : ((⟨globals, locals⟩ : Scopes).setCurrent f).globals.find? name = some v := by
      cases locals with
      | none => exact Frame.Extends.find? hf hglobal
      | some g => exact hglobal
    unfold Scopes.place? at ha ⊢
    rw [hlater]
    simpa only [hglobal] using ha
  | none =>
    cases locals with
    | none => simp [Scopes.place?, hglobal] at ha
    | some g =>
      simp only [Scopes.place?, hglobal, Option.bind_some, Option.map_eq_some_iff] at ha
      obtain ⟨v, hv, rfl⟩ := ha
      have hlater : f.find? name = some v := hf.find? hv
      simp [Scopes.place?, setCurrent, hglobal, hlater]

end Scopes

/-- The instruction for a use of memory, where names have their places in `s`. -/
inductive Realizes (s : Scopes) : Use → Instruction → Prop
  | read {name : String} {a : Address} : s.place? name = some a →
      Realizes s (.read name) (.push (.memory a))
  | write {name : String} {a : Address} : s.place? name = some a →
      Realizes s (.write name) (.pop (some (.memory a)))
  | shown {name : String} {a : Address} : s.place? name = some a →
      Realizes s (.shown name) (.push (.address a))
  | argument {slot : Nat} : Realizes s .argument (.pop (some (.memory ⟨s.register, slot, none⟩)))

namespace Realizes

theorem mono {s s' : Scopes} (h : s.Extends s') {use : Use} {i : Instruction}
    (hi : Realizes s use i) : Realizes s' use i := by
  cases hi with
  | read ha => exact .read (h.place? ha)
  | write ha => exact .write (h.place? ha)
  | shown ha => exact .shown (h.place? ha)
  | argument =>
    obtain ⟨f, rfl, -⟩ := h
    rw [← Scopes.register_setCurrent s f]
    exact .argument

theorem of_reserve {s : Scopes} {count : Nat} {use : Use} {i : Instruction}
    (hi : Realizes (s.reserve count) use i) : Realizes s use i := by
  cases hi with
  | read ha => exact .read (by simpa using ha)
  | write ha => exact .write (by simpa using ha)
  | shown ha => exact .shown (by simpa using ha)
  | argument =>
    rw [Scopes.reserve, Scopes.register_setCurrent]
    exact .argument

/-- Outside of functions all operands are relative to `cx`. -/
theorem base_eq {globals : Frame} {use : Use} {i : Instruction}
    (h : Realizes ⟨globals, none⟩ use i) : i.address?.map Address.base = some .cx := by
  have hplace : ∀ {name a}, Scopes.place? ⟨globals, none⟩ name = some a → a.base = .cx := by
    intro name a ha
    cases hglobal : globals.find? name with
    | none => simp [Scopes.place?, hglobal] at ha
    | some v =>
      simp only [Scopes.place?, hglobal, Option.some.injEq] at ha
      rw [← ha]
  cases h with
  | read ha => exact congrArg some (hplace ha)
  | write ha => exact congrArg some (hplace ha)
  | shown ha => exact congrArg some (hplace ha)
  | argument => rfl

end Realizes

/-- The instructions for some uses of memory, in their order. -/
abbrev RealizesAll (s : Scopes) : List Use → List Instruction → Prop :=
  List.Forall₂ (Realizes s)

theorem RealizesAll.append {s : Scopes} {us vs : List Use} {a b : List Instruction}
    (h : RealizesAll s us a) (h' : RealizesAll s vs b) : RealizesAll s (us ++ vs) (a ++ b) :=
  List.rel_append h h'

theorem RealizesAll.mono {s s' : Scopes} (h : s.Extends s') {us : List Use} {is : List Instruction}
    (his : RealizesAll s us is) : RealizesAll s' us is :=
  his.imp fun _ _ => Realizes.mono h

theorem RealizesAll.base_eq {globals : Frame} {us : List Use} {is : List Instruction}
    (h : RealizesAll ⟨globals, none⟩ us is) :
    ∀ i ∈ is, i.address?.map Address.base = some .cx := by
  induction h with
  | nil => simp
  | cons hi _ ih => exact List.forall_mem_cons.mpr ⟨hi.base_eq, ih⟩

namespace Lowering

variable {table : FunctionTable} {globals : Frame}

/-- The load of a shift ends with the load itself. -/
theorem Lowers.getLast?_shift {s : Scopes} {t : Term} {code : List Instruction}
    (h : Lowers table .shift s t code) :
    (code.map Item.instruction).getLast? = some (.instruction (.pop (some (.register .hx)))) := by
  cases h with
  | zero => rfl
  | index _ => simp

theorem Lowers.shiftsLoaded {role : Role} {s : Scopes} {t : Term} {code : List Instruction}
    (h : Lowers table role s t code) : ShiftsLoaded (code.map Item.instruction) := by
  induction h with
  | number => exact .of_operands rfl
  | read _ _ hload ih =>
    rw [List.map_append]
    exact ih.use hload.getLast?_shift _
  | call _ _ _ ih =>
    rw [List.map_append]
    exact ih.append (.of_operands (operands_callSequence _ _ _))
  | binary _ _ _ ihl ihr =>
    rw [List.map_append, List.map_append]
    exact (ihl.append ihr).append (.of_operands rfl)
  | unary _ _ ih =>
    rw [List.map_append]
    exact ih.append (.of_operands rfl)
  | input => exact .of_operands rfl
  | surplus _ ih =>
    rw [List.map_append]
    exact ih.append (.of_operands rfl)
  | zero => exact .of_operands rfl
  | index _ ih =>
    rw [List.map_append]
    exact ih.append (.of_operands rfl)
  | nothing => exact .nil
  | argument _ _ ihs ihv =>
    rw [List.map_append, List.map_append]
    refine (ihs.append ihv).append (.of_notIndexed ?_)
    simp [Item.isIndexed, isIndexed, address?, operand?, Frame.slot]

/-- The operands of an expression are those that its names and arguments need. -/
theorem Lowers.realizes {role : Role} {s : Scopes} {t : Term} {code : List Instruction}
    (h : Lowers table role s t code) (hs : s.Based) :
    RealizesAll s (t.uses .read) (operands code) := by
  induction h with
  | number => exact .nil
  | read hfind _ _ ih =>
    rw [operands_append]
    exact (ih hs).append (.cons (.read (Scopes.place?_eq_some hs hfind)) .nil)
  | call _ _ _ ih =>
    rw [operands_append, operands_callSequence, List.append_nil]
    exact ih hs
  | binary hmeaning _ _ ihl ihr =>
    rw [Term.uses_binary hmeaning, operands_append, operands_append]
    simpa [operands, address?, operand?] using (ihl hs).append (ihr hs)
  | unary hmeaning _ ih =>
    rw [Term.uses_unary hmeaning, operands_append]
    simpa [operands, address?, operand?] using ih hs
  | input => exact .nil
  | @surplus _ _ _ right _ _ ih =>
    show RealizesAll _ (right.uses .read) _
    rw [operands_append]
    simpa [operands, address?, operand?] using ih hs
  | zero => exact .nil
  | index _ ih =>
    rw [operands_append]
    simpa [operands, address?, operand?] using ih hs
  | nothing => exact .nil
  | @argument s id before argument staged value _ _ ihs ihv =>
    have hvalue : RealizesAll s (argument.uses .read) (operands value) :=
      (ihv (hs.reserve _)).imp fun _ _ => Realizes.of_reserve
    rw [operands_append, operands_append]
    refine ((ihs hs).append hvalue).append (.cons ?_ .nil)
    rw [Frame.slot, Scopes.base_current hs]
    exact .argument

/-- The target of an assignment is found, or declared, at its final place. -/
theorem Targets.realizes {s s' : Scopes} {t : Term} {address : Address} {load : List Instruction}
    (h : Targets table s t address load s') (hs : s.Based) :
    RealizesAll s' (t.uses .write) (operands (load ++ [.pop (some (.memory address))])) := by
  have hs' : s'.Based := hs.mono h.extends
  rw [operands_append]
  cases h with
  | declared hfind _ hload =>
    exact (hload.realizes hs).append (.cons (.write (Scopes.place?_eq_some hs hfind)) .nil)
  | @fresh id name left index v frame hnone hdeclare =>
    have hfind := (Scopes.find?_of_declare hnone hdeclare).1
    obtain ⟨_, _, _, _, length, hterm, -, hlength, -, -, -⟩ := Frame.declare_eq_ok.mp hdeclare
    cases hterm
    have huses : (Term.node id (.ident name) left index).uses .write = [.write name] := by
      rw [Term.uses, Frame.uses_of_lengthOf? hlength, List.nil_append]
    rw [huses]
    exact .cons (.write (Scopes.place?_eq_some hs' hfind)) .nil

theorem Targets.shiftsLoaded {s s' : Scopes} {t : Term} {address : Address}
    {load : List Instruction} (h : Targets table s t address load s') :
    ShiftsLoaded ((load ++ [Instruction.pop (some (.memory address))]).map Item.instruction) := by
  have hload : ∃ index, Lowers table .shift s index load := by
    cases h with
    | declared _ _ hload => exact ⟨_, hload⟩
    | fresh => exact ⟨_, .zero⟩
  obtain ⟨index, hload⟩ := hload
  rw [List.map_append]
  exact hload.shiftsLoaded.use hload.getLast?_shift _

/-- A value and what is done with it, if that has no operand in memory. -/
theorem Lowers.shiftsLoaded_append {s : Scopes} {t : Term} {value rest : List Instruction}
    (h : Lowers table .value s t value) (hrest : operands rest = []) :
    ShiftsLoaded (Code.ofInstructions (value ++ rest)).items := by
  rw [Code.items_ofInstructions, List.map_append]
  exact h.shiftsLoaded.append (.of_operands hrest)

theorem Lowers.shiftsLoaded_test {s : Scopes} {t : Term} {condition : List Instruction}
    (h : Lowers table .value s t condition) (label : String) :
    ShiftsLoaded (test condition label).items :=
  h.shiftsLoaded_append rfl

theorem Compiles.shiftsLoaded {form : Form} {s s' : Scopes} {t : Term} {code : Code}
    (h : Compiles table form s t code s') : ShiftsLoaded code.items := by
  induction h with
  | assign hvalue htarget =>
    rw [Code.items_ofInstructions, List.append_assoc, List.map_append]
    exact hvalue.shiftsLoaded.append htarget.shiftsLoaded
  | ifThen htest _ _ ih =>
    simp only [conditional, Code.items, Code.view_append, Code.view_indented, Code.view_comment,
      Code.view_label, Option.toList_some]
    exact (ShiftsLoaded.comment _).append
      ((htest.shiftsLoaded_test _).append (ih.append (.label _)))
  | ifElse htest _ _ _ _ ihthen ihelse =>
    have hjump : ∀ l, ShiftsLoaded (Code.ofInstructions [.transfer .jump l]).items := by
      intro l
      rw [Code.items_ofInstructions]
      exact .of_operands rfl
    simp only [conditional, Code.items, Code.view_append, Code.view_indented, Code.view_comment,
      Code.view_label, Option.toList_some]
    exact (ShiftsLoaded.comment _).append ((htest.shiftsLoaded_test _).append
      ((((ihthen.append (hjump _)).append (.label _)).append ihelse).append (.label _)))
  | whileLoop htest _ _ ih =>
    simp only [loop, Code.items, Code.view_append, Code.view_indented, Code.view_comment,
      Code.view_label, Code.view_ofInstructions, Option.toList_some, List.filterMap_eq_map']
    exact (((ShiftsLoaded.comment _).append (.label _)).append
      (((htest.shiftsLoaded_test _).append ih).append (.of_operands rfl))).append
        (.label _)
  | ret hvalue => exact hvalue.shiftsLoaded_append rfl
  | display _ _ hload hvalue =>
    simp only [Code.items_ofInstructions, List.map_append]
    exact ((hload.shiftsLoaded.use hload.getLast?_shift _).append hvalue.shiftsLoaded).append
      (.of_operands rfl)
  | out hvalue => exact hvalue.shiftsLoaded_append rfl
  | call hvalue => exact hvalue.shiftsLoaded_append rfl
  | nil => exact .nil
  | cons _ _ ih ihlast =>
    rw [Code.items, Code.view_append]
    exact ih.append ihlast

@[simp] theorem operands_test (condition : List Instruction) (label : String) :
    (test condition label).operands = operands condition := by
  rw [test, Code.operands, Code.instructions_ofInstructions, operands_append]
  exact List.append_nil _

theorem operands_ifThen (id : NodeId) (condition : List Instruction) (thenCode : Code) :
    (conditional id condition thenCode none).operands =
      operands condition ++ thenCode.operands := by
  simp [conditional]

theorem operands_ifElse (id : NodeId) (condition : List Instruction) (thenCode elseCode : Code) :
    (conditional id condition thenCode (some elseCode)).operands =
      operands condition ++ (thenCode.operands ++ elseCode.operands) := by
  simp [conditional]

theorem operands_loop (id : NodeId) (condition : List Instruction) (body : Code) :
    (loop id condition body).operands = operands condition ++ body.operands := by
  simp [loop]

/-- The operands of a value and of what is done with it, if that has none. -/
theorem Lowers.realizes_append {s : Scopes} {t : Term} {value rest : List Instruction}
    (h : Lowers table .value s t value) (hs : s.Based) (hrest : operands rest = []) :
    RealizesAll s (t.uses .read) (Code.ofInstructions (value ++ rest)).operands := by
  rw [Code.operands, Code.instructions_ofInstructions, operands_append, hrest, List.append_nil]
  exact h.realizes hs

/-- The operands of statements are those that their names and arguments need, at their final places.
-/
theorem Compiles.realizes {form : Form} {s s' : Scopes} {t : Term} {code : Code}
    (h : Compiles table form s t code s') (hs : s.Based) :
    RealizesAll s' (t.uses .read) code.operands := by
  induction h with
  | assign hvalue htarget =>
    rw [Code.operands, Code.instructions_ofInstructions, List.append_assoc, operands_append]
    exact ((hvalue.realizes hs).mono htarget.extends).append (htarget.realizes hs)
  | @ifThen _ _ _ _ condition thenPart _ _ htest _ hthen ih =>
    have huses := ((htest.realizes hs).mono hthen.extends).append (ih hs)
    show RealizesAll _ (condition.uses .read ++ (thenPart.uses .read ++ [])) _
    rwa [operands_ifThen, List.append_nil]
  | ifElse htest _ _ hthen helse ihthen ihelse =>
    have hbranches := ((ihthen hs).mono helse.extends).append (ihelse (hs.mono hthen.extends))
    rw [operands_ifElse]
    exact ((htest.realizes hs).mono (hthen.extends.trans helse.extends)).append hbranches
  | whileLoop htest _ hbody ih =>
    rw [operands_loop]
    exact ((htest.realizes hs).mono hbody.extends).append (ih hs)
  | ret hvalue => exact hvalue.realizes_append hs rfl
  | display hfind _ hload hvalue =>
    have hshown := (hload.realizes hs).append (.cons (.shown (Scopes.place?_eq_some hs hfind)) .nil)
    have huses := hshown.append (hvalue.realizes hs)
    rw [Code.operands, Code.instructions_ofInstructions, operands_append, operands_append,
      operands_append]
    exact (List.append_nil _).symm ▸ huses
  | out hvalue => exact hvalue.realizes_append hs rfl
  | call hvalue => exact hvalue.realizes_append hs rfl
  | nil => exact .nil
  | cons hbefore hlast ih ihlast =>
    simp only [Code.operands, Code.view_append, operands_append]
    exact ((ih hs).mono hlast.extends).append (ihlast (hs.mono hbefore.extends))

/-- Whether a term is an assignment. -/
def isAssignment (t : Term) : Bool :=
  t.keyword? == some .assign

theorem Initializes.realizes {s s' : Scopes} {ts : List Term} {code : Code}
    (h : Initializes table s ts code s') (hs : s.Based) :
    RealizesAll s' ((ts.filter isAssignment).flatMap (Term.uses .read)) code.operands := by
  induction h with
  | nil => exact .nil
  | assign hassign hrest ih =>
    rw [List.filter_cons_of_pos rfl, List.flatMap_cons]
    simp only [Code.operands, Code.view_append, operands_append]
    exact ((hassign.realizes hs).mono hrest.extends).append (ih (hs.mono hassign.extends))
  | other hother _ ih =>
    rw [List.filter_cons_of_neg (by simpa [isAssignment] using hother)]
    exact ih hs

theorem Initializes.shiftsLoaded {s s' : Scopes} {ts : List Term} {code : Code}
    (h : Initializes table s ts code s') : ShiftsLoaded code.items := by
  induction h with
  | nil => exact .nil
  | assign hassign _ ih =>
    rw [Code.items, Code.view_append]
    exact hassign.shiftsLoaded.append ih
  | other _ _ ih => exact ih

theorem DefinesAll.shiftsLoaded {fs : List Function} {code : Code} {frames : List (String × Frame)}
    (h : DefinesAll table globals fs code frames) : ShiftsLoaded code.items := by
  induction h with
  | nil => exact .nil
  | cons hdefines _ ih =>
    obtain ⟨-, start, body, -, hbody, rfl⟩ := hdefines
    simp only [Code.items, Code.view_append, Code.view_label, Code.view_indented,
      Option.toList_some]
    exact ((ShiftsLoaded.label _).append hbody.shiftsLoaded).append ih

theorem Anatomy.shiftsLoaded {t : Term} {p : Program} {start bodies : Code}
    (h : Anatomy t p start bodies) : ShiftsLoaded p.code.items := by
  have hpreamble : ShiftsLoaded (preamble p.globals.size).items := by
    rw [preamble, Code.items_ofInstructions]
    exact .of_operands rfl
  simp only [h.code, Code.items, Code.view_append]
  exact (h.initializes.shiftsLoaded.append hpreamble).append h.definesAll.shiftsLoaded

theorem Anatomy.realizes_opening {t : Term} {p : Program} {start bodies : Code}
    (h : Anatomy t p start bodies) :
    RealizesAll ⟨p.globals, none⟩ ((t.links.filter isAssignment).flatMap (Term.uses .read))
      p.opening.operands := by
  have hpreamble : (preamble p.globals.size).operands = [] := rfl
  simp only [h.opening_eq, Code.operands, Code.view_append, operands_append, hpreamble,
    List.append_nil]
  exact h.initializes.realizes Scopes.Laid.empty.toBased

theorem Defines.realizes {f : Function} {code : Code} {frame : Frame}
    (h : Defines table globals f code frame) (hglobals : Scopes.Laid ⟨globals, none⟩) :
    RealizesAll ⟨globals, some frame⟩ (f.body.uses .read) code.operands := by
  obtain ⟨-, start, body, hdeclares, hbody, rfl⟩ := h
  have hstart := (hdeclares.laid hglobals.enter).toBased
  simpa using hbody.realizes hstart

end Lowering

open Lowering in
/-- In a compiled program every indexed operand stands right behind the load of `hx`. The operands
in memory are, one for one and in the order of evaluation, those that the names and the arguments of
the program need: the place of a name in the final frames, relative to `cx` for a global and to `bx`
for a local of the function, and the slot of an argument, without an index. What is outside of
functions is relative to `cx`. -/
theorem operands_placed_and_shifts_loaded (a : Arena) (p : Program) (h : a.compile = .ok p) :
    (∀ before item after, p.code.items = before ++ item :: after → item.isIndexed = true →
        before.getLast? = some (.instruction (.pop (some (.register .hx))))) ∧
      (p.code = p.opening ++ p.functions.flatMap fun f => p.block f.name) ∧
      List.Forall₂ (Realizes ⟨p.globals, none⟩)
        ((a.rootTerm.links.filter isAssignment).flatMap (Term.uses .read)) p.opening.operands ∧
      (∀ i ∈ p.opening.operands, i.address?.map Address.base = some .cx) ∧
      ∀ f ∈ p.functions, ∃ frame, p.frame? f.name = some frame ∧
        List.Forall₂ (Realizes ⟨p.globals, some frame⟩) (f.body.uses .read)
          (p.block f.name).operands := by
  obtain ⟨start, bodies, hanatomy⟩ := anatomy_of_compile h
  obtain ⟨hcode, hblocks⟩ := hanatomy.blocks
  have hopening := hanatomy.realizes_opening
  refine ⟨hanatomy.shiftsLoaded, hcode, hopening, hopening.base_eq, ?_⟩
  intro f hf
  obtain ⟨-, -, frame, -, hdefines, hframe⟩ := hblocks f hf
  exact ⟨frame, hframe, hdefines.realizes hanatomy.laid⟩

/-- Elements of a global array and of a local one, each with an index that reads or calls, written,
read and shown. -/
def Tree.elements : Tree :=
  let element (name : String) (index : Tree) : Tree := .ident name index
  let name (name : String) : Tree := .ident name .absent
  let number (n : Nat) : Tree := .number (.ofNat n)
  let pick (value : Tree) : Tree := .keyword .call (name "pick") (.chain .param [value])
  .chain .stmt
    [.keyword .assign (name "k") (number 1),
      .keyword .assign (element "a" (number 3)) (pick (name "k")),
      .keyword .define (.keyword .func (name "pick") (.chain .param [name "x"]))
        (.chain .stmt [.keyword .ret .absent (name "x")]),
      .keyword .define (.keyword .func (name "main") .absent)
        (.chain .stmt
          [.keyword .assign (element "b" (number 2)) (number 0),
            .keyword .assign (element "b" (pick (name "k"))) (element "a" (element "b" (number 0))),
            .keyword .display (element "b" (name "k")) (name "k"),
            .keyword .ret .absent (number 0)])]

/-- The element `a[b[0]]` is read with two loads of `hx`: one for the index of `b`, one for the
element of `b` that is the index of `a`. -/
theorem operands_placed_and_shifts_loaded_elements :
    let items := (Program.ofTree .elements).code.items
    (Arena.ofTree .elements).compile = .ok (.ofTree .elements) ∧
      (items.drop 38).take 5 =
        [.instruction (.push (.number (.ofNat 0))), .instruction (.pop (some (.register .hx))),
          .instruction (.push (.memory ⟨.bx, 0, some .hx⟩)),
          .instruction (.pop (some (.register .hx))),
          .instruction (.push (.memory ⟨.cx, 1, some .hx⟩))] ∧
      (items.take 40).getLast? = some (.instruction (.pop (some (.register .hx)))) ∧
      (items.take 42).getLast? = some (.instruction (.pop (some (.register .hx)))) ∧
      (Program.ofTree .elements).opening.operands =
        [.pop (some (.memory ⟨.cx, 0, some .hx⟩)), .push (.memory ⟨.cx, 0, some .hx⟩),
          .pop (some (.memory ⟨.cx, 1, none⟩)), .pop (some (.memory ⟨.cx, 1, some .hx⟩))] ∧
      ((Program.ofTree .elements).block "main").operands =
        [.pop (some (.memory ⟨.bx, 0, some .hx⟩)), .push (.memory ⟨.bx, 0, some .hx⟩),
          .push (.memory ⟨.cx, 1, some .hx⟩), .push (.memory ⟨.cx, 0, some .hx⟩),
          .pop (some (.memory ⟨.bx, 2, none⟩)), .pop (some (.memory ⟨.bx, 0, some .hx⟩)),
          .push (.memory ⟨.cx, 0, some .hx⟩), .push (.address ⟨.bx, 0, some .hx⟩),
          .push (.memory ⟨.cx, 0, some .hx⟩)] := by
  intro items
  have hcompile : (Arena.ofTree .elements).compile = .ok (.ofTree .elements) :=
    compile_ofTree (by decide +kernel)
  have hloaded := (operands_placed_and_shifts_loaded _ _ hcompile).1
  refine ⟨hcompile, by decide +kernel, ?_, ?_, by decide +kernel, by decide +kernel⟩
  · exact hloaded (items.take 40) (.instruction (.push (.memory ⟨.bx, 0, some .hx⟩)))
      (items.drop 41) (by decide +kernel) rfl
  · exact hloaded (items.take 42) (.instruction (.push (.memory ⟨.cx, 1, some .hx⟩)))
      (items.drop 43) (by decide +kernel) rfl

end StackCompiler
