import StackCompiler.Proofs.Addressing
import StackCompiler.Proofs.SlotTracking

/-!
# How large frames get

A declaration is refused if the frame has no room for it. No such check is made when a slot is
reserved for an argument, so that a frame can grow past its largest size while a call is prepared.
What an expression needs is the slots of the variables declared before it and those that it stages
at once. The operands and the frame sizes in the code of a program are within bounds exactly if no
expression needs more than a frame may hold.
-/
namespace StackCompiler

open Instruction

namespace Instruction

/-- The slot of an operand without an index. -/
def slot? (i : Instruction) : Option Nat :=
  match i.address? with
  | some ⟨_, n, none⟩ => some n
  | _ => none

/-- The slots of the operands without an index. -/
def slots (is : List Instruction) : List Nat :=
  is.filterMap slot?

@[simp] theorem slots_append (a b : List Instruction) : slots (a ++ b) = slots a ++ slots b := by
  simp [slots]

theorem slots_append_of_eq_nil {a b : List Instruction} (h : slots b = []) :
    slots (a ++ b) = slots a := by
  rw [slots_append, h, List.append_nil]

theorem mem_slots {is : List Instruction} {n : Nat} :
    n ∈ slots is ↔ ∃ i ∈ is, ∃ base, i.address? = some ⟨base, n, none⟩ := by
  unfold slots
  rw [List.mem_filterMap]
  refine exists_congr fun i => and_congr_right fun _ => ?_
  unfold slot?
  split
  · rename_i base m haddress
    simp [haddress]
  · rename_i hother
    constructor
    · intro h
      cases h
    · rintro ⟨base, haddress⟩
      exact absurd haddress (hother base n)

/-- Each call places a frame of at most `limit` slots, and then takes back the same frame or halts.
-/
def CallsWithin (limit : Nat) (is : List Instruction) : Prop :=
  ∀ before callee after, is = before ++ .transfer .call callee :: after →
    ∃ base size, size ≤ limit ∧ placeFrame base size <:+ before ∧
      (takeBackFrame size <+: after ∨ [.plain .halt] <+: after)

theorem call_notMem_placeFrame (base : Register) (size : Nat) (callee : String) :
    .transfer .call callee ∉ placeFrame base size := by
  simp [placeFrame]

theorem call_notMem_takeBackFrame (size : Nat) (callee : String) :
    .transfer .call callee ∉ takeBackFrame size := by
  simp [takeBackFrame]

namespace CallsWithin

variable {limit : Nat}

theorem of_no_call {is : List Instruction} (h : is.filterMap callee? = []) :
    CallsWithin limit is := by
  rintro before callee after rfl
  simp [callee?] at h

theorem append {a b : List Instruction} (ha : CallsWithin limit a) (hb : CallsWithin limit b) :
    CallsWithin limit (a ++ b) := by
  intro before callee after h
  rcases List.append_eq_append_iff.mp h with ⟨more, rfl, hsplit⟩ | ⟨more, hsplit, hafter⟩
  · obtain ⟨base, size, hsize, hplace, hback⟩ := hb more callee after hsplit
    exact ⟨base, size, hsize, hplace.trans (List.suffix_append a more), hback⟩
  · cases more with
    | nil =>
      obtain ⟨base, size, hsize, hplace, hback⟩ := hb [] callee after hafter.symm
      exact ⟨base, size, hsize, hplace.trans List.nil_suffix, hback⟩
    | cons i more =>
      obtain ⟨rfl, rfl⟩ := List.cons.inj hafter
      obtain ⟨base, size, hsize, hplace, hback⟩ := ha before callee more hsplit
      have hlonger : more <+: more ++ b := List.prefix_append more b
      exact ⟨base, size, hsize, hplace, hback.imp (·.trans hlonger) (·.trans hlonger)⟩

theorem callSequence {size : Nat} (base : Register) (callee : String) (hsize : size ≤ limit) :
    CallsWithin limit (callSequence base size callee) := by
  intro before callee' after h
  rw [callSequence_eq, List.append_assoc, List.singleton_append] at h
  obtain ⟨rfl, -, rfl⟩ := (List.append_cons_inj_of_notMem (call_notMem_placeFrame base size callee')
    (call_notMem_takeBackFrame size callee')).mp h
  exact ⟨base, size, hsize, List.suffix_rfl, .inl List.prefix_rfl⟩

theorem preamble {size : Nat} (hsize : size ≤ limit) :
    CallsWithin limit (Lowering.preamble size).instructions := by
  intro before callee after h
  have hcode : (Lowering.preamble size).instructions =
      placeFrame .cx size ++ .transfer .call Program.entry :: [.plain .halt] := rfl
  rw [hcode] at h
  obtain ⟨rfl, -, rfl⟩ := (List.append_cons_inj_of_notMem (call_notMem_placeFrame .cx size callee)
    (by simp)).mp h
  exact ⟨.cx, size, hsize, List.suffix_rfl, .inr List.prefix_rfl⟩

end CallsWithin

end Instruction

namespace Term

/-- How many slots the evaluation of a term reserves at once for the arguments of calls, at most.
While an argument is evaluated, the slots of those before it are reserved, and then one for itself.
-/
def staging : Term → Nat
  | .node _ (.ident _) _ index => index.staging
  | .node _ (.keyword tag) left right =>
    if tag = .param then max left.staging (left.links.length + max 1 right.staging)
    else if evaluatesLeft tag then max left.staging right.staging else right.staging
  | _ => 0

theorem staging_param (id : NodeId) (before last : Term) :
    (Term.node id (.keyword .param) before last).staging =
      max before.staging (before.links.length + max 1 last.staging) := rfl

theorem staging_binary {id : NodeId} {tag : Keyword} {operation : Operation} {left right : Term}
    (h : tag.meaning? = some (.binary operation)) :
    (Term.node id (.keyword tag) left right).staging = max left.staging right.staging := by
  cases tag <;> cases h <;> rfl

/-- The left child of a unary operator is not evaluated. -/
theorem staging_unary {id : NodeId} {tag : Keyword} {operation : Operation} {left right : Term}
    (h : tag.meaning? = some (.unary operation)) :
    (Term.node id (.keyword tag) left right).staging = right.staging := by
  cases tag <;> cases h <;> rfl

/-- The length of an array stages nothing. -/
theorem staging_of_lengthOf? {index : Term} {length : Option Nat}
    (h : Frame.lengthOf? index = some length) : index.staging = 0 := by
  rcases Frame.literal_of_lengthOf? h with rfl | ⟨id, n, left, right, rfl⟩
  · rfl
  · rfl

end Term

namespace Scopes

theorem size_reserve (s : Scopes) (count : Nat) :
    (s.reserve count).current.size = s.current.size + count := by
  rw [current_reserve]

/-- The slots of the current frame that are in use at once while a term is evaluated, at most. -/
def demand (s : Scopes) (t : Term) : Nat :=
  s.current.size + t.staging

/-- The scopes after a write to a name, which declares it if it is new. -/
def written (s : Scopes) (t : Term) : Scopes :=
  match t.ident? with
  | none => s
  | some name =>
    if (s.find? name).isSome then s
    else
      match s.current.declare t with
      | .ok (_, frame) => s.setCurrent frame
      | .error _ => s

/-- The scopes after some statements. -/
def after (s : Scopes) : Term → Scopes
  | .node _ (.keyword tag) left right =>
    match tag with
    | .assign => s.written left
    | .ifThen | .whileLoop => s.after right
    | .stmt | .decision => (s.after left).after right
    | _ => s
  | _ => s

/-- What each expression of some statements needs, in the order of evaluation. -/
def demands (s : Scopes) : Term → List Nat
  | .node _ (.keyword tag) left right =>
    match tag with
    | .assign => [s.demand right, s.demand left]
    | .display => [s.demand left, s.demand right]
    | .ret | .out | .call => [s.demand right]
    | .ifThen | .whileLoop => s.demand left :: s.demands right
    | .stmt | .decision => s.demands left ++ (s.after left).demands right
    | _ => []
  | _ => []

/-- What the expressions of a list of statements need. -/
def demandsAll (s : Scopes) : List Term → List Nat
  | [] => []
  | t :: rest => s.demands t ++ (s.after t).demandsAll rest

end Scopes

/-- Operands with an index are within bounds. -/
def IndexedBelow (is : List Instruction) : Prop :=
  ∀ i ∈ is, ∀ a, i.address? = some a → a.index.isSome = true → a.shift < Frame.maxSize

theorem Realizes.shift_lt {s : Scopes} (hs : s.Laid) {use : Use} {i : Instruction}
    (h : Realizes s use i) {a : Address} (ha : i.address? = some a)
    (hindex : a.index.isSome = true) : a.shift < Frame.maxSize := by
  cases h with
  | read hplace | write hplace | shown hplace =>
    cases ha
    exact hs.shift_lt_maxSize hplace
  | argument =>
    cases ha
    cases hindex

theorem RealizesAll.indexedBelow {s : Scopes} {us : List Use} {is : List Instruction}
    (h : RealizesAll s us is) (hs : s.Laid) : IndexedBelow is := by
  induction h with
  | nil => exact List.forall_mem_nil _
  | cons hi _ ih =>
    exact List.forall_mem_cons.mpr ⟨fun _ ha hindex => hi.shift_lt hs ha hindex, ih⟩

/-- What the expressions of a function need. Its parameters are declared first. -/
def Function.demands (globals : Frame) (f : Function) : List Nat :=
  (f.params.foldl Scopes.written ⟨globals, some (.empty .bx)⟩).demands f.body

/-- What the expressions of a program with the root `t` need: those of the initializers, and those
of the functions. -/
def Program.demands (p : Program) (t : Term) : List Nat :=
  Scopes.demandsAll ⟨.empty .cx, none⟩ (t.links.filter Lowering.isAssignment) ++
    p.functions.flatMap (Function.demands p.globals)

/-- Operands lie within the largest frame, and frames are placed at most at its end. -/
structure Program.FrameBounded (p : Program) : Prop where
  operand : ∀ i ∈ p.code.instructions, ∀ a, i.address? = some a → a.shift < Frame.maxSize
  call : CallsWithin Frame.maxSize p.code.instructions

namespace Lowering

variable {table : FunctionTable}

/-- The slots in the code of an expression are below a limit exactly if what it needs is within it.
-/
theorem Lowers.slots_lt_iff {role : Role} {s : Scopes} {t : Term} {code : List Instruction}
    (h : Lowers table role s t code) {limit : Nat} (hs : s.current.size ≤ limit) :
    (∀ n ∈ slots code, n < limit) ↔ s.demand t ≤ limit := by
  unfold Scopes.demand
  induction h with
  | number => exact iff_of_true (List.forall_mem_nil _) hs
  | read _ _ _ ih =>
    rw [slots_append_of_eq_nil rfl]
    exact ih hs
  | call _ _ _ ih =>
    rw [slots_append_of_eq_nil rfl]
    exact ih hs
  | binary hmeaning _ _ iha ihb =>
    rw [slots_append_of_eq_nil rfl, slots_append, List.forall_mem_append, iha hs, ihb hs,
      Term.staging_binary hmeaning]
    omega
  | unary hmeaning _ ih =>
    rw [slots_append_of_eq_nil rfl, Term.staging_unary hmeaning]
    exact ih hs
  | input => exact iff_of_true (List.forall_mem_nil _) hs
  | surplus _ ih =>
    rw [slots_append_of_eq_nil rfl]
    exact ih hs
  | zero => exact iff_of_true (List.forall_mem_nil _) hs
  | index _ ih =>
    rw [slots_append_of_eq_nil rfl]
    exact ih hs
  | nothing => exact iff_of_true (List.forall_mem_nil _) hs
  | @argument s _ before _ _ _ _ _ ihs ihv =>
    have hstore (n : Nat) : slots [.pop (some (.memory (s.current.slot n)))] = [n] := rfl
    rw [slots_append, slots_append, hstore, List.forall_mem_append, List.forall_mem_append,
      List.forall_mem_singleton, ihs hs, Term.staging_param]
    rw [Scopes.size_reserve] at ihv
    -- the argument is evaluated with the slots of those before it reserved, and then stored
    constructor
    · rintro ⟨⟨hbefore, hvalue⟩, hslot⟩
      have hlast := (ihv (Nat.le_of_lt hslot)).mp hvalue
      omega
    · intro hall
      have hslot : s.current.size + before.links.length < limit := by omega
      exact ⟨⟨by omega, (ihv (Nat.le_of_lt hslot)).mpr (by omega)⟩, hslot⟩

theorem Lowers.callsWithin {role : Role} {s : Scopes} {t : Term} {code : List Instruction}
    (h : Lowers table role s t code) {limit : Nat} (hlimit : s.demand t ≤ limit) :
    CallsWithin limit code := by
  unfold Scopes.demand at hlimit
  induction h with
  | number => exact .of_no_call rfl
  | read _ _ _ ih => exact (ih hlimit).append (.of_no_call rfl)
  | call _ _ _ ih =>
    exact (ih hlimit).append (.callSequence _ _ (Nat.le_trans (Nat.le_add_right _ _) hlimit))
  | binary hmeaning _ _ iha ihb =>
    rw [Term.staging_binary hmeaning] at hlimit
    exact ((iha (by omega)).append (ihb (by omega))).append (.of_no_call rfl)
  | unary hmeaning _ ih =>
    rw [Term.staging_unary hmeaning] at hlimit
    exact (ih hlimit).append (.of_no_call rfl)
  | input => exact .of_no_call rfl
  | surplus _ ih => exact (ih hlimit).append (.of_no_call rfl)
  | zero => exact .of_no_call rfl
  | index _ ih => exact (ih hlimit).append (.of_no_call rfl)
  | nothing => exact .of_no_call rfl
  | argument _ _ ihs ihv =>
    rw [Term.staging_param] at hlimit
    rw [Scopes.size_reserve] at ihv
    exact ((ihs (by omega)).append (ihv (by omega))).append (.of_no_call rfl)

theorem Targets.written {s s' : Scopes} {t : Term} {address : Address} {load : List Instruction}
    (h : Targets table s t address load s') : s.written t = s' := by
  cases h with
  | declared hfind => simp [Scopes.written, Term.ident?, hfind]
  | fresh hnone hdeclare => simp [Scopes.written, Term.ident?, hnone, hdeclare]

theorem Compiles.after {form : Form} {s s' : Scopes} {t : Term} {code : Code}
    (h : Compiles table form s t code s') : s.after t = s' := by
  induction h with
  | assign _ htarget => exact htarget.written
  | ifThen _ _ _ ih => exact ih
  | @ifElse s _ _ _ _ _ thenPart elsePart _ _ _ _ _ _ _ _ ihthen ihelse =>
    show (s.after thenPart).after elsePart = _
    rw [ihthen, ihelse]
  | whileLoop _ _ _ ih => exact ih
  | ret => rfl
  | display => rfl
  | out => rfl
  | call => rfl
  | nil => rfl
  | @cons s _ _ _ before last _ _ _ _ ih ihlast =>
    show (s.after before).after last = _
    rw [ih, ihlast]

/-- To declare parameters is to write to them one after another. -/
theorem Declares.written {globals f g : Frame} {ts : List Term} (h : Declares globals f ts g) :
    ts.foldl Scopes.written ⟨globals, some f⟩ = ⟨globals, some g⟩ := by
  induction h with
  | nil => rfl
  | @cons f g _ v id name left rest hglobal hdeclare _ ih =>
    have hnone : Scopes.find? ⟨globals, some f⟩ name = none := by
      obtain ⟨_, _, _, _, _, hterm, hlocal, -⟩ := Frame.declare_eq_ok.mp hdeclare
      cases hterm
      simp [Scopes.find?, hglobal, hlocal]
    have hcurrent : Scopes.current ⟨globals, some f⟩ = f := rfl
    have hwritten : Scopes.written ⟨globals, some f⟩ (.node id (.ident name) left .absent) =
        ⟨globals, some g⟩ := by
      simp [Scopes.written, Term.ident?, hnone, hcurrent, hdeclare, Scopes.setCurrent]
    rw [List.foldl_cons, hwritten, ih]

/-- Code that is put together from the code of expressions, which need `needs`, the start of a
program and instructions that neither call a function nor stage an argument. -/
inductive Composed (table : FunctionTable) : List Nat → List Instruction → Prop
  | nil : Composed table [] []
  | others {needs : List Nat} {is rest : List Instruction} :
      slots is = [] → is.filterMap callee? = [] → Composed table needs rest →
      Composed table needs (is ++ rest)
  | expression {needs : List Nat} {role : Role} {s : Scopes} {t : Term}
      {code rest : List Instruction} :
      s.current.size ≤ Frame.maxSize → Lowers table role s t code → Composed table needs rest →
      Composed table (s.demand t :: needs) (code ++ rest)
  | start {needs : List Nat} {size : Nat} {rest : List Instruction} :
      size ≤ Frame.maxSize → Composed table needs rest →
      Composed table needs ((preamble size).instructions ++ rest)

namespace Composed

variable {needs needs' : List Nat} {a b : List Instruction}

theorem append (ha : Composed table needs a) (hb : Composed table needs' b) :
    Composed table (needs ++ needs') (a ++ b) := by
  induction ha with
  | nil => exact hb
  | others hslots hcalls _ ih =>
    rw [List.append_assoc]
    exact .others hslots hcalls ih
  | expression hs hlowers _ ih =>
    rw [List.append_assoc]
    exact .expression hs hlowers ih
  | start hsize _ ih =>
    rw [List.append_assoc]
    exact .start hsize ih

theorem ended {is : List Instruction} (h : Composed table needs a) (hslots : slots is = [])
    (hcalls : is.filterMap callee? = []) : Composed table needs (a ++ is) := by
  simpa using h.append (.others hslots hcalls .nil)

/-- The code of an expression, and instructions after it that use no slot and call nothing. -/
theorem followed {role : Role} {s : Scopes} {t : Term} {code is : List Instruction}
    (hs : s.current.size ≤ Frame.maxSize) (h : Lowers table role s t code) (hslots : slots is = [])
    (hcalls : is.filterMap callee? = []) : Composed table [s.demand t] (code ++ is) := by
  have hcode : Composed table [s.demand t] (code ++ []) := .expression hs h .nil
  rw [List.append_nil] at hcode
  exact hcode.ended hslots hcalls

theorem test {s : Scopes} {t : Term} {code : List Instruction}
    (hs : s.current.size ≤ Frame.maxSize) (h : Lowers table .value s t code) (label : String) :
    Composed table [s.demand t] (code ++ [.push (.number (.ofNat 0)), .transfer .jumpEq label]) :=
  followed hs h rfl rfl

theorem slots_lt_iff (h : Composed table needs a) :
    (∀ n ∈ slots a, n < Frame.maxSize) ↔ ∀ n ∈ needs, n ≤ Frame.maxSize := by
  induction h with
  | nil => exact iff_of_true (List.forall_mem_nil _) (List.forall_mem_nil _)
  | others hslots _ _ ih =>
    rw [slots_append, hslots, List.nil_append]
    exact ih
  | expression hs hlowers _ ih =>
    rw [slots_append, List.forall_mem_append, List.forall_mem_cons, hlowers.slots_lt_iff hs, ih]
  | @start _ size _ _ _ ih =>
    have hpreamble : slots (preamble size).instructions = [] := rfl
    rw [slots_append, hpreamble, List.nil_append]
    exact ih

theorem callsWithin (h : Composed table needs a) (hneeds : ∀ n ∈ needs, n ≤ Frame.maxSize) :
    CallsWithin Frame.maxSize a := by
  induction h with
  | nil => exact .of_no_call rfl
  | others _ hcalls _ ih => exact (CallsWithin.of_no_call hcalls).append (ih hneeds)
  | expression _ hlowers _ ih =>
    rw [List.forall_mem_cons] at hneeds
    exact (hlowers.callsWithin hneeds.1).append (ih hneeds.2)
  | start hsize _ ih => exact (CallsWithin.preamble hsize).append (ih hneeds)

end Composed

theorem Targets.composed {s s' : Scopes} {t : Term} {address : Address} {load : List Instruction}
    (h : Targets table s t address load s') (hs : s.current.size ≤ Frame.maxSize) :
    Composed table [s.demand t] (load ++ [.pop (some (.memory address))]) := by
  cases h with
  | @declared _ _ _ index _ _ _ _ _ hload =>
    show Composed table [s.demand index] _
    exact Composed.followed hs hload rfl rfl
  | @fresh id name left index v frame hnone hdeclare =>
    -- the index is the length of the array, and is not evaluated
    have hdemand : s.demand (.node id (.ident name) left index) = s.demand .absent := by
      obtain ⟨_, _, _, _, _, hterm, -, hlength, -⟩ := Frame.declare_eq_ok.mp hdeclare
      cases hterm
      show s.current.size + index.staging = s.current.size
      rw [Term.staging_of_lengthOf? hlength, Nat.add_zero]
    rw [hdemand]
    exact Composed.followed hs .zero rfl rfl

/-- The code of statements is put together from the code of their expressions. -/
theorem Compiles.composed {form : Form} {s s' : Scopes} {t : Term} {code : Code}
    (h : Compiles table form s t code s') (hs : s.Laid) :
    Composed table (s.demands t) code.instructions := by
  induction h with
  | assign hvalue htarget =>
    rw [Code.instructions_ofInstructions, List.append_assoc]
    have hsize := hs.current_tiled.bounded
    exact .expression hsize hvalue (htarget.composed hsize)
  | @ifThen s _ _ _ _ thenPart _ _ htest _ _ ih =>
    show Composed table (_ :: (s.demands thenPart ++ [])) _
    rw [instructions_ifThen, List.append_nil]
    exact (Composed.test hs.current_tiled.bounded htest _).append (ih hs)
  | @ifElse s _ _ _ _ _ thenPart elsePart _ _ _ htest _ _ hthen _ ihthen ihelse =>
    have helse := ihelse (hthen.laid hs)
    rw [← hthen.after] at helse
    have hcondition := Composed.test hs.current_tiled.bounded htest
    show Composed table ([_] ++ (s.demands thenPart ++ (s.after thenPart).demands elsePart)) _
    rw [instructions_ifElse, ← List.append_assoc]
    exact (((hcondition _).append (ihthen hs)).ended rfl rfl).append helse
  | whileLoop htest _ _ ih =>
    rw [instructions_loop]
    exact ((Composed.test hs.current_tiled.bounded htest _).append (ih hs)).ended rfl rfl
  | ret hvalue =>
    rw [Code.instructions_ofInstructions]
    exact Composed.followed hs.current_tiled.bounded hvalue rfl rfl
  | display _ _ hload hvalue =>
    rw [Code.instructions_ofInstructions, List.append_assoc]
    have hsize := hs.current_tiled.bounded
    exact (Composed.followed hsize hload rfl rfl).append (.followed hsize hvalue rfl rfl)
  | out hvalue =>
    rw [Code.instructions_ofInstructions]
    exact Composed.followed hs.current_tiled.bounded hvalue rfl rfl
  | @call s id callee args _ hvalue =>
    rw [Code.instructions_ofInstructions]
    show Composed table [s.demand (.node id (.keyword .call) callee args)] _
    exact Composed.followed hs.current_tiled.bounded hvalue rfl rfl
  | nil => exact .nil
  | cons hbefore _ ih ihlast =>
    rw [Code.instructions, Code.view_append]
    have hlast := ihlast (hbefore.laid hs)
    rw [← hbefore.after] at hlast
    exact (ih hs).append hlast

theorem Initializes.composed {s s' : Scopes} {ts : List Term} {code : Code}
    (h : Initializes table s ts code s') (hs : s.Laid) :
    Composed table (s.demandsAll (ts.filter isAssignment)) code.instructions := by
  induction h with
  | nil => exact .nil
  | assign hassign _ ih =>
    have hrest := ih (hassign.laid hs)
    rw [← hassign.after] at hrest
    rw [List.filter_cons_of_pos rfl, Code.instructions, Code.view_append]
    exact (hassign.composed hs).append hrest
  | other hother _ ih =>
    rw [List.filter_cons_of_neg (by simpa [isAssignment] using hother)]
    exact ih hs

theorem Defines.composed {globals frame : Frame} {f : Function} {code : Code}
    (h : Defines table globals f code frame) (hglobals : Scopes.Laid ⟨globals, none⟩) :
    Composed table (f.demands globals) code.instructions := by
  obtain ⟨-, start, body, hdeclares, hbody, rfl⟩ := h
  rw [Function.demands, hdeclares.written]
  simp only [Code.instructions, Code.view_append, Code.view_label, Code.view_indented,
    Item.instruction?, Option.toList_none, List.nil_append]
  exact hbody.composed (hdeclares.laid hglobals.enter)

theorem DefinesAll.composed {globals : Frame} {fs : List Function} {code : Code}
    {frames : List (String × Frame)} (h : DefinesAll table globals fs code frames)
    (hglobals : Scopes.Laid ⟨globals, none⟩) :
    Composed table (fs.flatMap (Function.demands globals)) code.instructions := by
  induction h with
  | nil => exact .nil
  | cons hdefines _ ih =>
    rw [List.flatMap_cons, Code.instructions, Code.view_append]
    exact (hdefines.composed hglobals).append ih

/-- The code of a program is put together from the code of its expressions and its start. -/
theorem Anatomy.composed {t : Term} {p : Program} {start bodies : Code}
    (h : Anatomy t p start bodies) :
    Composed p.functions (p.demands t) p.code.instructions := by
  simp only [h.code, Code.instructions, Code.view_append, List.append_assoc]
  exact (h.initializes.composed .empty).append
    (.start h.laid.tiled.bounded (h.definesAll.composed h.laid))

theorem DefinesAll.indexedBelow {globals : Frame} {fs : List Function} {code : Code}
    {frames : List (String × Frame)} (h : DefinesAll table globals fs code frames)
    (hglobals : Scopes.Laid ⟨globals, none⟩) : IndexedBelow code.operands := by
  induction h with
  | nil => exact List.forall_mem_nil _
  | cons hdefines _ ih =>
    simp only [Code.operands, Code.view_append, operands_append]
    exact List.forall_mem_append.mpr
      ⟨(hdefines.realizes hglobals).indexedBelow (hdefines.laid hglobals), ih⟩

/-- The names of a program are addressed within bounds in any case. -/
theorem Anatomy.indexedBelow {t : Term} {p : Program} {start bodies : Code}
    (h : Anatomy t p start bodies) : IndexedBelow p.code.operands := by
  have hpreamble : (preamble p.globals.size).operands = [] := rfl
  have hstart := h.initializes.realizes Scopes.Laid.empty.toBased
  simp only [h.code, Code.operands, Code.view_append, operands_append, hpreamble, List.append_nil]
  exact List.forall_mem_append.mpr
    ⟨hstart.indexedBelow h.laid, h.definesAll.indexedBelow h.laid⟩

end Lowering

open Lowering in
/-- In a compiled program the operands of names are within bounds, and so is the size of the global
frame that the preamble places the first frame behind. All operands are within bounds and all frames
are placed there exactly if no expression needs more slots than a frame may hold. -/
theorem frames_bounded_iff_demands_met (a : Arena) (p : Program) (h : a.compile = .ok p) :
    p.globals.size ≤ Frame.maxSize ∧
      (∀ i ∈ p.code.instructions, ∀ address, i.address? = some address →
        address.index.isSome = true → address.shift < Frame.maxSize) ∧
      (p.FrameBounded ↔ ∀ n ∈ p.demands a.rootTerm, n ≤ Frame.maxSize) := by
  obtain ⟨start, bodies, hanatomy⟩ := anatomy_of_compile h
  have hindexed : ∀ i ∈ p.code.instructions, ∀ address, i.address? = some address →
      address.index.isSome = true → address.shift < Frame.maxSize := by
    intro i hi address haddress
    exact hanatomy.indexedBelow i (List.mem_filter.mpr ⟨hi, by simp [haddress]⟩) address haddress
  refine ⟨hanatomy.laid.tiled.bounded, hindexed, ?_⟩
  rw [← hanatomy.composed.slots_lt_iff]
  constructor
  · intro hbounded n hn
    obtain ⟨i, hi, base, haddress⟩ := mem_slots.mp hn
    exact hbounded.operand i hi _ haddress
  · intro hslots
    refine ⟨?_, hanatomy.composed.callsWithin (hanatomy.composed.slots_lt_iff.mp hslots)⟩
    intro i hi address haddress
    obtain ⟨base, shift, index⟩ := address
    cases index with
    | none => exact hslots shift (mem_slots.mpr ⟨i, hi, base, haddress⟩)
    | some r => exact hindexed i hi _ haddress rfl

/-- A call with one argument behind an array of `n` elements. -/
def Tree.brimful (n : Nat) : Tree :=
  let name (name : String) : Tree := .ident name .absent
  let number (n : Nat) : Tree := .number (.ofNat n)
  .chain .stmt
    [.keyword .define (.keyword .func (name "f") (.chain .param [name "x"]))
        (.chain .stmt [.keyword .ret .absent (name "x")]),
      .keyword .define (.keyword .func (name "main") .absent)
        (.chain .stmt
          [.keyword .assign (.ident "a" (number n)) (number 0),
            .keyword .call (name "f") (.chain .param [number 1]),
            .keyword .ret .absent (number 0)])]

/-- The array leaves just one slot, which the argument takes. -/
theorem frames_bounded_iff_demands_met_brimful :
    (Arena.ofTree (.brimful 2147483646)).compile = .ok (.ofTree (.brimful 2147483646)) ∧
      (Program.ofTree (.brimful 2147483646)).demands (Arena.ofTree (.brimful 2147483646)).rootTerm =
        [1, 0, 0, 2147483647, 2147483646] ∧
      (Program.ofTree (.brimful 2147483646)).FrameBounded := by
  have hcompile : (Arena.ofTree (.brimful 2147483646)).compile =
      .ok (.ofTree (.brimful 2147483646)) :=
    compile_ofTree (by decide +kernel)
  have hdemands : (Program.ofTree (.brimful 2147483646)).demands
      (Arena.ofTree (.brimful 2147483646)).rootTerm = [1, 0, 0, 2147483647, 2147483646] := by
    decide +kernel
  refine ⟨hcompile, hdemands, ?_⟩
  rw [(frames_bounded_iff_demands_met _ _ hcompile).2.2, hdemands]
  decide

/-- The array fills the frame, and the argument is staged behind its end. -/
theorem argument_staged_past_bound :
    (Arena.ofTree (.brimful 2147483647)).compile = .ok (.ofTree (.brimful 2147483647)) ∧
      .pop (some (.memory ⟨.bx, Frame.maxSize, none⟩)) ∈
        (Program.ofTree (.brimful 2147483647)).code.instructions ∧
      ¬ (Program.ofTree (.brimful 2147483647)).FrameBounded := by
  have hstore : .pop (some (.memory ⟨.bx, Frame.maxSize, none⟩)) ∈
      (Program.ofTree (.brimful 2147483647)).code.instructions := by decide +kernel
  refine ⟨compile_ofTree (by decide +kernel), hstore, ?_⟩
  intro hbounded
  exact Nat.lt_irrefl _ (hbounded.operand _ hstore _ rfl)

end StackCompiler
