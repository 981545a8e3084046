import StackCompiler.Proofs.FrameLayout

/-!
# Slots in use along the code

Which slots of a frame are in use at an instruction can be read off the code before it: the first
store to a variable declares it, a store without an index reserves a slot for an argument, and a
call releases the slots of its arguments. `Tracks` follows the code instruction by instruction with
the frame that lowering had there. The frame of a callee is placed behind the slots that are in use
after its call: behind the variables declared so far and the arguments staged for calls around it.

A slot that is reserved is released by a later call. Variables are declared only where no slot is
reserved, so that the outermost of some nested calls places its frame right behind the declared
variables.
-/
namespace StackCompiler

namespace Instruction

/-- Places the frame of a callee. -/
def placeFrame (base : Register) (size : Nat) : List Instruction :=
  [.push (.register base), .push (.number (.ofNat size)), .plain .add, .pop (some (.register .bx))]

theorem length_placeFrame (base : Register) (size : Nat) : (placeFrame base size).length = 4 := rfl

/-- Takes the frame of a callee back, and pushes the result. -/
def takeBackFrame (size : Nat) : List Instruction :=
  [.push (.register .ax), .push (.register .bx), .push (.number (.ofNat size)), .plain .sub,
    .pop (some (.register .bx))]

theorem callSequence_eq (base : Register) (size : Nat) (callee : String) :
    callSequence base size callee =
      placeFrame base size ++ [.transfer .call callee] ++ takeBackFrame size := rfl

/-- Whether an instruction neither calls a function nor stores to memory. -/
def isNeutral : Instruction → Bool
  | .pop (some (.memory _)) => false
  | .transfer .call _ => false
  | _ => true

end Instruction

open Instruction

namespace Frame

/-- The frame with more slots reserved. -/
def reserve (f : Frame) (count : Nat) : Frame :=
  { f with size := f.size + count, staged := f.staged + count }

@[simp] theorem reserve_zero (f : Frame) : f.reserve 0 = f := rfl

theorem reserve_reserve (f : Frame) (a b : Nat) : (f.reserve a).reserve b = f.reserve (a + b) := by
  simp [reserve, Nat.add_assoc]

/-- Variables and reserved slots make up the frame. -/
def Filled (f : Frame) : Prop :=
  f.size = slots f.declared + f.staged

end Frame

namespace Lowering

variable {table : FunctionTable}

/-- How an instruction behind the code `is` changes the use of the frame's slots. -/
inductive SlotStep (table : FunctionTable) (is : List Instruction) :
    Frame → Instruction → Frame → Prop
  | neutral {f : Frame} {i : Instruction} : i.isNeutral = true → SlotStep table is f i f
  /-- A store to a declared variable, or to one of another frame. -/
  | store {f : Frame} {a : Address} : a.index = some .hx →
      (a.base = f.base → ∃ v ∈ f.declared, v.shift = a.shift) →
      SlotStep table is f (.pop (some (.memory a))) f
  | declare {f g : Frame} {t : Term} {v : Variable} : f.staged = 0 → f.declare t = .ok (v, g) →
      SlotStep table is f (.pop (some (.memory (g.address v)))) g
  | stage {f : Frame} : SlotStep table is f (.pop (some (.memory (f.slot f.size)))) (f.reserve 1)
  | call {f : Frame} {callee : Function} : table.get? callee.name = some callee →
      placeFrame f.base f.size <:+ is →
      SlotStep table is (f.reserve callee.arity) (.transfer .call callee.name) f

/-- The frame after some code. -/
inductive Tracks (table : FunctionTable) (start : Frame) : List Instruction → Frame → Prop
  | start : Tracks table start [] start
  | step {is : List Instruction} {f g : Frame} {i : Instruction} :
      Tracks table start is f → SlotStep table is f i g → Tracks table start (is ++ [i]) g

namespace SlotStep

variable {is : List Instruction} {f g : Frame} {i : Instruction}

theorem base (h : SlotStep table is f i g) : g.base = f.base := by
  cases h with
  | declare _ hdeclare => exact (Frame.extends_of_declare hdeclare).base
  | _ => rfl

theorem declared (h : SlotStep table is f i g) : f.declared <+: g.declared := by
  cases h with
  | declare _ hdeclare => exact (Frame.extends_of_declare hdeclare).declared
  | _ => exact List.prefix_rfl

theorem filled (h : SlotStep table is f i g) (hf : f.Filled) : g.Filled := by
  unfold Frame.Filled at hf ⊢
  cases h with
  | neutral => exact hf
  | store => exact hf
  | declare _ hdeclare =>
    obtain ⟨_, _, _, _, _, -, -, -, -, -, rfl⟩ := Frame.declare_eq_ok.mp hdeclare
    simp only [Frame.slots_append, Frame.slots_cons, Frame.slots_nil]
    omega
  | stage =>
    simp only [Frame.reserve]
    omega
  | call =>
    simp only [Frame.reserve] at hf
    omega

/-- A variable is declared by a store to it. -/
theorem mem_declared (h : SlotStep table is f i g) {v : Variable} (hv : v ∈ g.declared) :
    v ∈ f.declared ∨ i = .pop (some (.memory (g.address v))) := by
  cases h with
  | @declare _ _ _ w _ hdeclare =>
    obtain ⟨_, _, _, _, _, -, -, -, -, -, rfl⟩ := Frame.declare_eq_ok.mp hdeclare
    rcases List.mem_append.mp hv with hv | hv
    · exact .inl hv
    · rw [List.mem_singleton.mp hv]
      exact .inr rfl
  | _ => exact .inl hv

/-- A store with an index goes to a declared variable. -/
theorem declared_of_store (h : SlotStep table is f i g) {n : Nat}
    (hi : i = .pop (some (.memory ⟨g.base, n, some .hx⟩))) : ∃ v ∈ g.declared, v.shift = n := by
  cases h with
  | neutral hneutral =>
    rw [hi] at hneutral
    cases hneutral
  | store _ hstore =>
    cases hi
    exact hstore rfl
  | @declare _ _ _ v _ hdeclare =>
    obtain ⟨_, _, _, _, _, -, -, -, -, -, rfl⟩ := Frame.declare_eq_ok.mp hdeclare
    cases hi
    exact ⟨v, by simp, rfl⟩
  | stage => cases hi
  | call => cases hi

/-- A call releases the slots of its arguments, and the callee's frame stands right behind what is
left. -/
theorem of_call {callee : String} (h : SlotStep table is f (.transfer .call callee) g) :
    placeFrame g.base g.size <:+ is ∧
      ∃ function, table.get? callee = some function ∧ f = g.reserve function.arity := by
  cases h with
  | neutral hneutral => cases hneutral
  | call hget hplace => exact ⟨hplace, _, hget, rfl⟩

end SlotStep

namespace Tracks

variable {start f g : Frame} {is a b : List Instruction}

/-- Neutral instructions change nothing. -/
theorem neutral (h : Tracks table start is f) (js : List Instruction)
    (hjs : js.all isNeutral = true) : Tracks table start (is ++ js) f := by
  induction js using List.reverseRecOn with
  | nil => rwa [List.append_nil]
  | append_singleton js j ih =>
    rw [List.all_append, Bool.and_eq_true] at hjs
    rw [← List.append_assoc]
    exact (ih hjs.1).step (.neutral (by simpa using hjs.2))

theorem followed (h : Tracks table start (is ++ a) f) (js : List Instruction)
    (hjs : js.all isNeutral = true) : Tracks table start (is ++ (a ++ js)) f := by
  rw [← List.append_assoc]
  exact h.neutral js hjs

theorem last {i : Instruction} (h : Tracks table start (is ++ [i]) g) :
    ∃ f, Tracks table start is f ∧ SlotStep table is f i g := by
  generalize hcode : is ++ [i] = code at h
  cases h with
  | start => simp at hcode
  | step h hstep =>
    obtain ⟨rfl, hi⟩ := List.append_inj' hcode rfl
    cases hi
    exact ⟨_, h, hstep⟩

theorem base (h : Tracks table start is f) : f.base = start.base := by
  induction h with
  | start => rfl
  | step _ hstep ih => exact hstep.base.trans ih

theorem start_declared (h : Tracks table start is f) : start.declared <+: f.declared := by
  induction h with
  | start => exact List.prefix_rfl
  | step _ hstep ih => exact ih.trans hstep.declared

theorem filled (h : Tracks table start is f) (hstart : start.Filled) : f.Filled := by
  induction h with
  | start => exact hstart
  | step _ hstep ih => exact hstep.filled ih

theorem mem_declared (h : Tracks table start is f) {v : Variable} (hv : v ∈ f.declared) :
    v ∈ start.declared ∨ .pop (some (.memory (f.address v))) ∈ is := by
  induction h with
  | start => exact .inl hv
  | @step _ f g _ _ hstep ih =>
    rcases hstep.mem_declared hv with hv | hi
    · have hmem := ih hv
      rw [Frame.address, ← hstep.base] at hmem
      exact hmem.imp_right (List.mem_append_left _)
    · exact .inr (by simp [hi])

theorem declared_of_store (h : Tracks table start is f) {n : Nat}
    (hmem : .pop (some (.memory ⟨f.base, n, some .hx⟩)) ∈ is) : ∃ v ∈ f.declared, v.shift = n := by
  induction h with
  | start => cases hmem
  | step _ hstep ih =>
    rcases List.mem_append.mp hmem with hmem | hmem
    · rw [hstep.base] at hmem
      obtain ⟨v, hv, hshift⟩ := ih hmem
      exact ⟨v, hstep.declared.subset hv, hshift⟩
    · exact hstep.declared_of_store (List.mem_singleton.mp hmem).symm

/-- Code can be cut anywhere. If slots are reserved at the cut, then they still are at the end and
nothing was declared, or some call between places its frame right behind the variables. -/
theorem cut (h : Tracks table start (a ++ b) g) (hstart : start.Filled) :
    ∃ f, Tracks table start a f ∧ f.declared <+: g.declared ∧
      (f.staged = 0 ∨ (g.declared = f.declared ∧ 0 < g.staged) ∨
        ∃ between callee rest, b = between ++ .transfer .call callee :: rest ∧
          placeFrame f.base (Frame.slots f.declared) <:+ a ++ between) := by
  induction b using List.reverseRecOn generalizing g with
  | nil =>
    rw [List.append_nil] at h
    refine ⟨g, h, List.prefix_rfl, ?_⟩
    rcases Nat.eq_zero_or_pos g.staged with hzero | hpos
    · exact .inl hzero
    · exact .inr (.inl ⟨rfl, hpos⟩)
  | append_singleton b i ih =>
    rw [← List.append_assoc] at h
    obtain ⟨g', hg', hstep⟩ := h.last
    obtain ⟨f, hf, hdeclared, hcases⟩ := ih hg'
    refine ⟨f, hf, hdeclared.trans hstep.declared, ?_⟩
    rcases hcases with hzero | ⟨hsame, hpos⟩ | ⟨between, callee, rest, rfl, hplace⟩
    · exact .inl hzero
    · right
      cases hstep with
      | neutral => exact .inl ⟨hsame, hpos⟩
      | store => exact .inl ⟨hsame, hpos⟩
      | declare hstaged => omega
      | stage => exact .inl ⟨hsame, Nat.succ_pos _⟩
      | @call _ callee hget hplace =>
        -- the last reserved slot may be released here
        rcases Nat.eq_zero_or_pos g.staged with hzero | hpos'
        · have hdeclared' : g.declared = f.declared := hsame
          have hbase : f.base = g.base := hf.base.trans hg'.base.symm
          have hsize : g.size = Frame.slots f.declared := by
            rw [h.filled hstart, hzero, hdeclared', Nat.add_zero]
          refine .inr ⟨b, callee.name, [], rfl, ?_⟩
          rwa [hbase, ← hsize]
        · exact .inl ⟨hsame, hpos'⟩
    · refine .inr (.inr ⟨between, callee, rest ++ [i], ?_, hplace⟩)
      simp

/-- The frame right behind a call. -/
theorem at_call {callee : String} (h : Tracks table start (a ++ .transfer .call callee :: b) g)
    (hstart : start.Filled) :
    ∃ f, Tracks table start (a ++ [.transfer .call callee]) f ∧ placeFrame f.base f.size <:+ a ∧
      f.declared <+: g.declared ∧
      (f.staged = 0 ∨ (g.declared = f.declared ∧ 0 < g.staged) ∨
        ∃ between callee' rest, b = between ++ .transfer .call callee' :: rest ∧
          placeFrame f.base (Frame.slots f.declared) <:+
            a ++ .transfer .call callee :: between) := by
  rw [List.append_cons] at h
  obtain ⟨f, hf, hdeclared, hcases⟩ := h.cut hstart
  obtain ⟨f', hf', hstep⟩ := hf.last
  simp only [List.append_assoc, List.singleton_append] at hcases
  exact ⟨f, hf, hstep.of_call.1, hdeclared, hcases⟩

/-- Which variables of the final frame are declared after some code. -/
theorem mem_declared_iff (h : Tracks table start is f) (hg : g.Tiled) (hbase : g.base = f.base)
    (hdeclared : f.declared <+: g.declared) {v : Variable} (hv : v ∈ g.declared) :
    v ∈ f.declared ↔ v ∈ start.declared ∨ .pop (some (.memory (g.address v))) ∈ is := by
  have haddress : g.address v = f.address v := by rw [Frame.address, hbase, Frame.address]
  rw [haddress]
  constructor
  · exact h.mem_declared
  · rintro (hmem | hmem)
    · exact h.start_declared.subset hmem
    · obtain ⟨w, hw, hshift⟩ := h.declared_of_store hmem
      rwa [← hg.eq_of_shift (hdeclared.subset hw) hv hshift]

end Tracks

/-- The number of reserved slots behind an instruction, where there were `n` before it. -/
def reserving (table : FunctionTable) (n : Nat) : Instruction → Nat
  | .pop (some (.memory ⟨_, _, none⟩)) => n + 1
  | .transfer .call callee => n - (table.get? callee).elim 0 Function.arity
  | _ => n

/-- The number of slots that code leaves reserved for arguments. -/
def reserved (table : FunctionTable) (is : List Instruction) : Nat :=
  is.foldl (reserving table) 0

theorem reserving_of_isNeutral {n : Nat} {i : Instruction} (h : i.isNeutral = true) :
    reserving table n i = n := by
  unfold reserving
  split
  · cases h
  · cases h
  · rfl

theorem SlotStep.staged {is : List Instruction} {f g : Frame} {i : Instruction}
    (h : SlotStep table is f i g) : g.staged = reserving table f.staged i := by
  cases h with
  | neutral hneutral => exact (reserving_of_isNeutral hneutral).symm
  | @store _ a hindex =>
    obtain ⟨base, shift, index⟩ := a
    cases hindex
    rfl
  | declare hstaged hdeclare => exact (Frame.extends_of_declare hdeclare).staged
  | stage => rfl
  | call hget => simp [reserving, hget, Frame.reserve]

/-- Reserved slots can be counted in the code. -/
theorem Tracks.staged {start f : Frame} {is : List Instruction} (h : Tracks table start is f)
    (hstart : start.staged = 0) : f.staged = reserved table is := by
  induction h with
  | start => exact hstart
  | step _ hstep ih =>
    rw [hstep.staged, ih, reserved, reserved, List.foldl_append, List.foldl_cons, List.foldl_nil]

/-- How many slots code in a role leaves reserved. -/
def Role.reserves : Role → Term → Nat
  | .staging, t => t.links.length
  | _, _ => 0

/-- The code of an expression leaves the frame as it was, that of arguments reserves their slots. -/
theorem Lowers.tracks {role : Role} {s : Scopes} {t : Term} {code : List Instruction}
    (h : Lowers table role s t code) {start : Frame} {before : List Instruction}
    (hbefore : Tracks table start before s.current) :
    Tracks table start (before ++ code) (s.current.reserve (role.reserves t)) := by
  induction h generalizing before with
  | number => exact hbefore.neutral _ rfl
  | read _ _ _ ih => exact (ih hbefore).followed _ rfl
  | @call s _ _ _ f staged hresolve harity _ ih =>
    have hstaged := ih hbefore
    rw [Role.reserves, harity] at hstaged
    have hplaced := hstaged.neutral (placeFrame s.current.base s.current.size) rfl
    have hcalled := hplaced.step
      (.call (FunctionTable.get?_of_resolve hresolve) (List.suffix_append _ _))
    rw [callSequence_eq, ← List.append_assoc, ← List.append_assoc, ← List.append_assoc]
    exact hcalled.neutral _ rfl
  | binary _ _ _ ihl ihr =>
    have hoperands := ihr (ihl hbefore)
    rw [List.append_assoc] at hoperands
    exact hoperands.followed _ rfl
  | unary _ _ ih => exact (ih hbefore).followed _ rfl
  | input => exact hbefore.neutral _ rfl
  | surplus _ ih => exact (ih hbefore).followed _ rfl
  | zero => exact hbefore.neutral _ rfl
  | index _ ih => exact (ih hbefore).followed _ rfl
  | nothing => rwa [List.append_nil]
  | @argument s id earlier argument staged value _ _ ihs ihv =>
    have hcurrent : (s.reserve earlier.links.length).current =
        s.current.reserve earlier.links.length := s.current_reserve _
    have hstaged := ihs hbefore
    rw [Role.reserves, ← hcurrent] at hstaged
    have hvalue := ihv hstaged
    rw [hcurrent] at hvalue
    have hlength : Role.staging.reserves (.node id (.keyword .param) earlier argument) =
        earlier.links.length + 1 := by simp [Role.reserves, Term.links]
    rw [hlength, ← Frame.reserve_reserve, ← List.append_assoc, ← List.append_assoc]
    exact hvalue.step .stage

/-- A name that is found belongs to the current frame, or to one with another base. -/
theorem declared_of_find? {s : Scopes} (hs : s.Based) {name : String} {frame : Frame} {v : Variable}
    (h : s.find? name = some (frame, v)) (hbase : frame.base = s.current.base) :
    v ∈ s.current.declared := by
  obtain ⟨globals, locals⟩ := s
  unfold Scopes.find? at h
  cases hglobal : globals.find? name with
  | some w =>
    simp only [hglobal, Option.some.injEq, Prod.mk.injEq] at h
    obtain ⟨rfl, rfl⟩ := h
    cases locals with
    | none => exact List.mem_of_find?_eq_some hglobal
    | some f =>
      have hcx : globals.base = .cx := hs.globals
      have hbx : f.base = .bx := hs.locals f rfl
      have hbase' : globals.base = f.base := hbase
      rw [hcx, hbx] at hbase'
      cases hbase'
  | none =>
    cases locals with
    | none => simp [hglobal] at h
    | some f =>
      simp only [hglobal, Option.map_eq_some_iff, Prod.mk.injEq] at h
      obtain ⟨w, hw, -, rfl⟩ := h
      exact List.mem_of_find?_eq_some hw

/-- Scopes between statements, as far as slots are concerned. -/
structure Settled (s : Scopes) : Prop extends s.Based where
  staged : s.current.staged = 0

theorem Settled.mono {s s' : Scopes} (hs : Settled s) (h : s.Extends s') : Settled s' :=
  ⟨hs.toBased.mono h, h.current.staged.trans hs.staged⟩

theorem Targets.tracks {s s' : Scopes} {t : Term} {address : Address} {load : List Instruction}
    (h : Targets table s t address load s') (hs : Settled s) {start : Frame}
    {before : List Instruction} (hbefore : Tracks table start before s.current) :
    Tracks table start (before ++ (load ++ [.pop (some (.memory address))])) s'.current := by
  rw [← List.append_assoc]
  cases h with
  | declared hfind _ hload =>
    refine (hload.tracks hbefore).step (.store rfl fun hbase => ?_)
    exact ⟨_, declared_of_find? hs.toBased hfind hbase, rfl⟩
  | fresh _ hdeclare =>
    have hload := hbefore.neutral [.push (.number (.ofNat 0)), .pop (some (.register .hx))] rfl
    rw [Scopes.current_setCurrent]
    exact hload.step (.declare hs.staged hdeclare)

/-- Statements declare variables in the frame, and reserve nothing for good. -/
theorem Compiles.tracks {form : Form} {s s' : Scopes} {t : Term} {code : Code}
    (h : Compiles table form s t code s') (hs : Settled s) {start : Frame}
    {before : List Instruction} (hbefore : Tracks table start before s.current) :
    Tracks table start (before ++ code.instructions) s'.current := by
  induction h generalizing before with
  | assign hvalue htarget =>
    rw [Code.instructions_ofInstructions, List.append_assoc, ← List.append_assoc]
    exact htarget.tracks hs (hvalue.tracks hbefore)
  | ifThen htest _ _ ih =>
    rw [instructions_ifThen, ← List.append_assoc]
    exact ih hs ((htest.tracks hbefore).followed _ rfl)
  | @ifElse _ _ _ id _ _ _ _ _ _ _ htest _ _ hthen _ ihthen ihelse =>
    have hthenCode := ihthen hs ((htest.tracks hbefore).followed
      [.push (.number (.ofNat 0)), .transfer .jumpEq (id.label "if_fail")] rfl)
    have hjump := hthenCode.neutral [.transfer .jump (id.label "if_end")] rfl
    have helse := ihelse (hs.mono hthen.extends) hjump
    simpa [instructions_ifElse] using helse
  | @whileLoop _ _ id _ _ _ _ htest _ _ ih =>
    have hbody := ih hs ((htest.tracks hbefore).followed
      [.push (.number (.ofNat 0)), .transfer .jumpEq (id.label "while_end")] rfl)
    rw [List.append_assoc] at hbody
    rw [instructions_loop]
    exact hbody.followed _ rfl
  | ret hvalue =>
    rw [Code.instructions_ofInstructions]
    exact (hvalue.tracks hbefore).followed _ rfl
  | @display _ _ _ _ _ _ _ frame v _ _ _ _ hload hvalue =>
    have hshown := (hload.tracks hbefore).neutral [.push (.address (frame.address v))] rfl
    have hshw := (hvalue.tracks hshown).neutral [.plain .shw] rfl
    simpa [Role.reserves] using hshw
  | out hvalue =>
    rw [Code.instructions_ofInstructions]
    exact (hvalue.tracks hbefore).followed _ rfl
  | call hvalue =>
    rw [Code.instructions_ofInstructions]
    exact (hvalue.tracks hbefore).followed _ rfl
  | nil => simpa [Code.instructions] using hbefore
  | cons hchain _ ih ihlast =>
    rw [Code.instructions, Code.view_append, ← List.append_assoc]
    exact ihlast (hs.mono hchain.extends) (ih hs hbefore)

theorem Initializes.tracks {s s' : Scopes} {ts : List Term} {code : Code}
    (h : Initializes table s ts code s') (hs : Settled s) {start : Frame}
    {before : List Instruction} (hbefore : Tracks table start before s.current) :
    Tracks table start (before ++ code.instructions) s'.current := by
  induction h generalizing before with
  | nil => simpa [Code.instructions] using hbefore
  | assign hassign _ ih =>
    rw [Code.instructions, Code.view_append, ← List.append_assoc]
    exact ih (hs.mono hassign.extends) (hassign.tracks hs hbefore)
  | other _ _ ih => exact ih hs hbefore

/-- The initializers fill the frame of the globals. -/
theorem Anatomy.tracks {t : Term} {p : Program} {start bodies : Code}
    (h : Anatomy t p start bodies) :
    Tracks p.functions (.empty .cx) start.instructions p.globals :=
  h.initializes.tracks ⟨Scopes.Laid.empty.toBased, rfl⟩ .start

/-- The block of a function fills its frame behind the parameters. -/
theorem Defines.tracks {globals : Frame} {f : Function} {code : Code} {frame : Frame}
    (h : Defines table globals f code frame) (hglobals : Scopes.Laid ⟨globals, none⟩) :
    ∃ start : Frame, start.base = .bx ∧ start.Filled ∧
      start.declared = frame.declared.take f.arity ∧
      Tracks table start code.instructions frame := by
  obtain ⟨-, start, body, hdeclares, hbody, rfl⟩ := h
  have hlaid := hdeclares.laid hglobals.enter
  have hstaged : start.staged = 0 := hdeclares.extends.staged
  have htracks : Tracks table start ([] ++ body.instructions) frame :=
    hbody.tracks ⟨hlaid.toBased, hstaged⟩ .start
  refine ⟨start, hlaid.locals start rfl, ?_, ?_, ?_⟩
  · rw [Frame.Filled, hstaged, Nat.add_zero]
    exact (hlaid.localsTiled start rfl).size_eq
  · exact (hdeclares.take_eq hbody.extends.current.declared).symm
  · simpa using htracks

end Lowering

end StackCompiler
