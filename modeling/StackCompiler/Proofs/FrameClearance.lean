import StackCompiler.Proofs.Addressing
import StackCompiler.Proofs.Number.Exact
import StackCompiler.Proofs.SlotTracking

/-!
# Where the frames of callees lie

A callee's frame, and the arguments staged for it, start at a distance from the base of the caller's
frame that the code states as a constant. A variable of the caller is safe from the call if it ends
there or before. The constant counts the variables declared so far in the text of the program. This
is enough for code that runs once from top to bottom. There are two places where it is not:

* In a loop, the text of a call may stand before the first write to a variable and run again after
  it. All calls of the loop leave the variable alone if and only if none of them stands before that
  write.
* A function that an initializer calls may use globals that are declared by later initializers. The
  call leaves a global alone if and only if it is declared before, or is covered by the slots of
  arguments that are staged for calls around.
-/
namespace StackCompiler

open Instruction

/-- The frame that is placed at the end of some code lies behind `v`. -/
def Clears (base : Register) (code : List Instruction) (v : Variable) : Prop :=
  ∃ size, placeFrame base size <:+ code ∧ v.shift + v.size ≤ size

/-- A constant that is the size of a frame can be read off the code. -/
theorem push_ofNat_inj {m n : Nat} (hm : m ≤ Frame.maxSize)
    (h : Instruction.push (.number (.ofNat m)) = .push (.number (.ofNat n))) : m = n := by
  have hmax : Frame.maxSize ≤ 2 ^ 31 := by decide
  have hnumber : Number.ofNat m = Number.ofNat n := by
    injection h with h
    injection h
  exact Number.ofNat_inj (Nat.le_trans hm hmax) hnumber

/-- The constant in the code decides. -/
theorem clears_iff {base : Register} {code : List Instruction} {size : Nat} {v : Variable}
    (hplace : placeFrame base size <:+ code) (hv : v.shift + v.size ≤ Frame.maxSize) :
    Clears base code v ↔ v.shift + v.size ≤ size := by
  constructor
  · rintro ⟨size', hplace', hle⟩
    have hlength : (placeFrame base size).length = (placeFrame base size').length :=
      (length_placeFrame base size).trans (length_placeFrame base size').symm
    have heq : placeFrame base size = placeFrame base size' :=
      (List.suffix_of_suffix_length_le hplace hplace' (Nat.le_of_eq hlength)).eq_of_length hlength
    have hpush : Instruction.push (.number (.ofNat size)) = .push (.number (.ofNat size')) :=
      (List.cons.inj (List.cons.inj heq).2).1
    by_contra hlt
    have hsize : size = size' := push_ofNat_inj (by omega) hpush
    omega
  · intro hle
    exact ⟨size, hplace, hle⟩

/-- All calls in `inside`, which stands behind `before`, place their frames behind `v`. -/
def CallsClear (base : Register) (before inside : List Instruction) (v : Variable) : Prop :=
  ∀ pre callee post, inside = pre ++ .transfer .call callee :: post → Clears base (before ++ pre) v

/-- The call at position `k` is in the way of `v` if its constant is too small. -/
theorem not_callsClear {base : Register} {before inside : List Instruction} {v : Variable}
    (k size : Nat) (callee : String)
    (hcall : inside = inside.take k ++ .transfer .call callee :: inside.drop (k + 1))
    (hplace : placeFrame base size <:+ before ++ inside.take k) (hsize : size < v.shift + v.size)
    (hv : v.shift + v.size ≤ Frame.maxSize) : ¬ CallsClear base before inside v := by
  intro h
  have hle := (clears_iff hplace hv).mp (h _ callee _ hcall)
  omega

/-- No call in `inside` stands before the first store to `address`. -/
def NoCallBefore (address : Address) (inside : List Instruction) : Prop :=
  ∀ i ∈ inside.takeWhile (· ≠ .pop (some (.memory address))), i.callee? = none

instance (address : Address) (inside : List Instruction) :
    Decidable (NoCallBefore address inside) :=
  inferInstanceAs (Decidable
    (∀ i ∈ inside.takeWhile (· ≠ .pop (some (.memory address))), i.callee? = none))

theorem eq_call_of_callee? {i : Instruction} {callee : String} (h : i.callee? = some callee) :
    i = .transfer .call callee := by
  unfold callee? at h
  split at h
  · cases h
    rfl
  · cases h

/-- Every call stands behind the store. -/
theorem noCallBefore_iff {address : Address} {inside : List Instruction} :
    NoCallBefore address inside ↔ ∀ pre callee post,
      inside = pre ++ .transfer .call callee :: post → .pop (some (.memory address)) ∈ pre := by
  constructor
  · rintro h pre callee post rfl
    by_contra hmem
    have hpre : ∀ i ∈ pre, decide (i ≠ .pop (some (.memory address))) = true := by
      intro i hi
      rw [decide_eq_true_iff]
      rintro rfl
      exact hmem hi
    have hcall : (.transfer .call callee : Instruction) ∈
        (pre ++ .transfer .call callee :: post).takeWhile (· ≠ .pop (some (.memory address))) := by
      rw [List.takeWhile_append_of_pos hpre, List.takeWhile_cons_of_pos (by simp)]
      simp
    cases h _ hcall
  · intro h i hi
    cases hcallee : i.callee? with
    | none => rfl
    | some callee =>
      obtain rfl := eq_call_of_callee? hcallee
      obtain ⟨pre, post, hsplit⟩ := List.append_of_mem hi
      have hinside : inside = pre ++ .transfer .call callee ::
          (post ++ inside.dropWhile (· ≠ .pop (some (.memory address)))) := by
        have hboth : inside.takeWhile (· ≠ .pop (some (.memory address))) ++
            inside.dropWhile (· ≠ .pop (some (.memory address))) = inside :=
          List.takeWhile_append_dropWhile
        rw [hsplit] at hboth
        simpa using hboth.symm
      have hmem := h _ _ _ hinside
      have hstore : .pop (some (.memory address)) ∈
          inside.takeWhile (· ≠ .pop (some (.memory address))) := by
        rw [hsplit]
        exact List.mem_append_left _ hmem
      have hne := List.all_eq_true.mp List.all_takeWhile _ hstore
      simp at hne

namespace Lowering

variable {table : FunctionTable}

/-- The frame at a call in a piece of code that declares `v`. Where `v` is not declared yet, the
slots that are reserved at the call are released by a later call of the same piece, whose frame
stands right behind the declared variables. -/
theorem frame_at_call {start g : Frame} {before pre post after : List Instruction} {callee : String}
    (h : Tracks table start (before ++ (pre ++ .transfer .call callee :: post) ++ after) g)
    (hstart : start.Filled) (hg : g.Tiled) {v : Variable} (hv : v ∈ g.declared)
    (hnew : v ∉ start.declared) (hbefore : .pop (some (.memory (g.address v))) ∉ before)
    (hinside : .pop (some (.memory (g.address v))) ∈ pre ++ .transfer .call callee :: post) :
    ∃ f : Frame, placeFrame start.base f.size <:+ before ++ pre ∧ f.Filled ∧
      f.declared <+: g.declared ∧ (v ∈ f.declared ↔ .pop (some (.memory (g.address v))) ∈ pre) ∧
      (v ∈ f.declared ∨ f.staged = 0 ∨
        ∃ between callee' rest, post = between ++ .transfer .call callee' :: rest ∧
          placeFrame start.base (Frame.slots f.declared) <:+
            before ++ (pre ++ .transfer .call callee :: between)) := by
  have hbase := h.base
  obtain ⟨g', hg', hgrown, -⟩ := h.cut hstart
  have hv' : v ∈ g'.declared := by
    rw [hg'.mem_declared_iff hg (hbase.trans hg'.base.symm) hgrown hv]
    exact .inr (List.mem_append_right _ hinside)
  rw [← List.append_assoc] at hg'
  obtain ⟨f, hf, hplace, hdeclared, hcases⟩ := hg'.at_call hstart
  have hmem := hf.mem_declared_iff hg (hbase.trans hf.base.symm) (hdeclared.trans hgrown) hv
  rw [hf.base] at hplace
  refine ⟨f, hplace, hf.filled hstart, hdeclared.trans hgrown, ?_, ?_⟩
  · have hcallee : Instruction.pop (some (.memory (g.address v))) ≠ .transfer .call callee := by
      simp
    rw [hmem]
    simp [hnew, hbefore, hcallee]
  · rcases hcases with hzero | ⟨hsame, -⟩ | ⟨between, callee', rest, hpost, hplace'⟩
    · exact .inr (.inl hzero)
    · exact .inl (hsame ▸ hv')
    · rw [hf.base, List.append_assoc] at hplace'
      exact .inr (.inr ⟨between, callee', rest, hpost, hplace'⟩)

/-- In a piece of code that declares a variable, all calls leave the variable alone if and only if
none stands before the declaration. -/
theorem callsClear_iff {start g : Frame} {before inside after : List Instruction}
    (h : Tracks table start (before ++ inside ++ after) g) (hstart : start.Filled) (hg : g.Tiled)
    {v : Variable} (hv : v ∈ g.declared) (hnew : v ∉ start.declared)
    (hbefore : .pop (some (.memory (g.address v))) ∉ before)
    (hinside : .pop (some (.memory (g.address v))) ∈ inside) :
    CallsClear start.base before inside v ↔ NoCallBefore (g.address v) inside := by
  have hmax := hg.limit_le_maxSize hv
  rw [noCallBefore_iff]
  constructor
  · rintro hclear pre callee post rfl
    obtain ⟨f, hplace, hfilled, hdeclared, hmem, hcases⟩ :=
      frame_at_call h hstart hg hv hnew hbefore hinside
    rw [← hmem]
    by_contra hnot
    have hshift := hg.le_shift hdeclared hv hnot
    have hpositive := hg.positive v hv
    rcases hcases with hdeclared' | hzero | ⟨between, callee', rest, rfl, hplace'⟩
    · exact hnot hdeclared'
    · have hle := (clears_iff hplace hmax).mp (hclear pre callee post rfl)
      unfold Frame.Filled at hfilled
      omega
    · -- the call is an argument of the later one, which does not leave the variable alone either
      have hsplit : pre ++ .transfer .call callee :: (between ++ .transfer .call callee' :: rest) =
          (pre ++ .transfer .call callee :: between) ++ .transfer .call callee' :: rest := by simp
      have hle := (clears_iff hplace' hmax).mp (hclear _ callee' rest hsplit)
      omega
  · rintro hstored pre callee post rfl
    obtain ⟨f, hplace, hfilled, hdeclared, hmem, -⟩ :=
      frame_at_call h hstart hg hv hnew hbefore hinside
    have hle := hg.limit_le hdeclared (hmem.mpr (hstored pre callee post rfl))
    unfold Frame.Filled at hfilled
    exact ⟨f.size, hplace, by omega⟩

end Lowering

/-- The loops among the statements of a term. -/
def Term.loops : Term → List Term
  | .node id (.keyword tag) left right =>
    match tag with
    | .stmt | .decision => left.loops ++ right.loops
    | .ifThen => right.loops
    | .whileLoop => .node id (.keyword .whileLoop) left right :: right.loops
    | _ => []
  | _ => []

namespace Lowering

variable {table : FunctionTable}

/-- The code of the statement `w` is the middle one of three pieces of code, up to its depth. -/
structure CompiledAt (table : FunctionTable) (code : Code) (w : Term) (before inside after : Code) :
    Prop where
  split : code = before ++ inside ++ after
  compiled : ∃ s own s', Compiles table .statement s w own s' ∧ inside.items = own.items

/-- The code of `w` is a piece of some code. -/
def Embeds (table : FunctionTable) (code : Code) (w : Term) : Prop :=
  ∃ before inside after, CompiledAt table code w before inside after

namespace Embeds

variable {code : Code} {w : Term}

theorem within (h : Embeds table code w) (a b : Code) : Embeds table (a ++ code ++ b) w := by
  obtain ⟨before, inside, after, rfl, hcompiled⟩ := h
  exact ⟨a ++ before, inside, after ++ b, by simp, hcompiled⟩

theorem left (h : Embeds table code w) (a : Code) : Embeds table (a ++ code) w := by
  simpa using h.within a []

theorem right (h : Embeds table code w) (b : Code) : Embeds table (code ++ b) w :=
  h.within [] b

theorem indented (h : Embeds table code w) : Embeds table (Code.indented code) w := by
  obtain ⟨before, inside, after, rfl, s, own, s', hown, hitems⟩ := h
  refine ⟨Code.indented before, Code.indented inside, Code.indented after, by simp, s, own, s',
    hown, ?_⟩
  rw [Code.items, Code.view_indented, ← Code.items, hitems]

theorem self {s s' : Scopes} (h : Compiles table .statement s w code s') : Embeds table code w :=
  ⟨[], code, [], by simp, s, code, s', h, rfl⟩

end Embeds

/-- The code of a loop is a piece of the code around it. -/
theorem Compiles.embeds {form : Form} {s s' : Scopes} {t : Term} {code : Code}
    (h : Compiles table form s t code s') {w : Term} (hw : w ∈ t.loops) : Embeds table code w := by
  induction h with
  | assign => cases hw
  | ifThen _ _ _ ih =>
    have hbranch := ih (by simpa [Term.loops] using hw)
    unfold conditional
    exact ((hbranch.right _).left _).indented.left _
  | ifElse _ _ _ _ _ ihthen ihelse =>
    unfold conditional
    rcases List.mem_append.mp hw with hw | hw
    · exact ((((((ihthen hw).right _).right _).right _).right _).left _).indented.left _
    · exact ((((ihelse hw).left _).right _).left _).indented.left _
  | whileLoop hcondition hpresent hbody ih =>
    rcases List.mem_cons.mp hw with rfl | hw
    · exact .self (.whileLoop hcondition hpresent hbody)
    · unfold loop
      exact ((((ih hw).left _).right _).indented.left _).right _
  | ret => cases hw
  | display => cases hw
  | out => cases hw
  | call => cases hw
  | nil => cases hw
  | cons _ _ ih ihlast =>
    rcases List.mem_append.mp hw with hw | hw
    · exact (ih hw).right _
    · exact (ihlast hw).left _

theorem Defines.embeds {globals : Frame} {f : Function} {code : Code} {frame : Frame}
    (h : Defines table globals f code frame) {w : Term} (hw : w ∈ f.body.loops) :
    Embeds table code w := by
  obtain ⟨-, start, body, -, hbody, rfl⟩ := h
  exact (hbody.embeds hw).indented.left _

/-- Pieces of a block that are found by running the statement alone. -/
theorem compiledAt_of_items {code : Code} {w : Term} {s : Scopes} (k m : Nat)
    (hw : w.isAbsent = false)
    (hitems : (statement table w s).result.toOption.map Code.items =
      some (Code.items ((code.drop k).take m))) :
    CompiledAt table code w (code.take k) ((code.drop k).take m) ((code.drop k).drop m) := by
  obtain ⟨own, hown, heq⟩ := Option.map_eq_some_iff.mp hitems
  have hruns : Runs (statement table w) s own (statement table w s).scopes := by
    refine ⟨?_, rfl⟩
    cases hresult : (statement table w s).result with
    | error e => simp [hresult, Except.toOption] at hown
    | ok code => simpa [hresult, Except.toOption] using hown
  refine ⟨?_, s, own, _, (compiles_of_runs table w).1 hw s own _ hruns, heq.symm⟩
  rw [List.append_assoc, List.take_append_drop, List.take_append_drop]

end Lowering

/-- A local of a function that is declared by a write in the piece `inside` of its block, which is
the code of a loop. -/
structure LoopLocal (p : Program) (f : Function) (frame : Frame) (before inside : Code)
    (v : Variable) :
    Prop where
  mem : f ∈ p.functions
  final : p.frame? f.name = some frame
  loop : ∃ w ∈ f.body.loops, ∃ after,
    Lowering.CompiledAt p.functions (p.block f.name) w before inside after
  isLocal : v ∈ frame.declared.drop f.arity
  notBefore : .pop (some (.memory (frame.address v))) ∉ before.instructions
  written : .pop (some (.memory (frame.address v))) ∈ inside.instructions

open Lowering in
/-- The code of every loop is a piece of its function's block. For a local that is declared by a
write inside the loop, all calls in the condition and the body of the loop place the frames of their
callees behind the local if and only if none of them stands before that write. -/
theorem loop_calls_clear_iff_declared_first (a : Arena) (p : Program) (h : a.compile = .ok p) :
    (∀ f ∈ p.functions, (p.frame? f.name).isSome = true ∧ ∀ w ∈ f.body.loops,
      ∃ before inside after, CompiledAt p.functions (p.block f.name) w before inside after) ∧
    ∀ f frame before inside v, LoopLocal p f frame before inside v →
      (CallsClear .bx before.instructions inside.instructions v ↔
        NoCallBefore (frame.address v) inside.instructions) := by
  obtain ⟨start, bodies, hanatomy⟩ := anatomy_of_compile h
  constructor
  · intro f hf
    obtain ⟨-, -, frame, -, hdefines, hframe⟩ := hanatomy.blocks.2 f hf
    exact ⟨by simp [hframe], fun w hw => hdefines.embeds hw⟩
  · intro f frame before inside v hlocal
    obtain ⟨-, -, frame', -, hdefines, hframe⟩ := hanatomy.blocks.2 f hlocal.mem
    obtain rfl : frame = frame' := Option.some.inj (hlocal.final.symm.trans hframe)
    have htiled := (hdefines.laid hanatomy.laid).localsTiled frame rfl
    obtain ⟨first, hbase, hfilled, hdeclared, htracks⟩ := hdefines.tracks hanatomy.laid
    have hnew : v ∉ first.declared := by
      rw [hdeclared]
      intro hmem
      have hnodup : frame.declared.Nodup := htiled.distinct.of_map
      exact List.disjoint_take_drop hnodup (Nat.le_refl _) hmem hlocal.isLocal
    obtain ⟨w, -, after, hcompiled⟩ := hlocal.loop
    simp only [hcompiled.split, Code.instructions, Code.view_append] at htracks
    rw [← hbase]
    exact callsClear_iff htracks hfilled htiled (List.mem_of_mem_drop hlocal.isLocal) hnew
      hlocal.notBefore hlocal.written

/-- A function that returns its argument, and an entry function whose loop runs twice. -/
def Tree.twice (body : List Tree) : Tree :=
  let i : Tree := .ident "i" .absent
  let x : Tree := .ident "x" .absent
  let next : Tree := .keyword .assign i (.keyword .sub i (.number (.ofNat 1)))
  .chain .stmt
    [.keyword .define (.keyword .func (.ident "f" .absent) (.chain .param [x]))
        (.chain .stmt [.keyword .ret .absent x]),
      .keyword .define (.keyword .func (.ident "main" .absent) .absent)
        (.chain .stmt
          [.keyword .assign i (.number (.ofNat 2)),
            .keyword .whileLoop i (.chain .stmt (body ++ [next])),
            .keyword .ret .absent (.number (.ofNat 0))])]

/-- The loop writes to `y` and then passes it to the function. -/
def Tree.writeFirst : Tree :=
  let y : Tree := .ident "y" .absent
  .twice
    [.keyword .assign y (.ident "i" .absent),
      .keyword .call (.ident "f" .absent) (.chain .param [y])]

/-- The loop calls the function first and then writes to `y`, in its first round only. -/
def Tree.callFirst : Tree :=
  let y : Tree := .ident "y" .absent
  .twice
    [.keyword .call (.ident "f" .absent) (.chain .param [.number (.ofNat 7)]),
      .keyword .ifThen (.keyword .sub (.ident "i" .absent) (.number (.ofNat 1)))
        (.keyword .decision (.chain .stmt [.keyword .assign y (.number (.ofNat 5))]) .absent),
      .keyword .out .absent y]

namespace Program

/-- The function of a name, if there is one. -/
def function (p : Program) (name : String) : Function :=
  (p.functions.get? name).getD ⟨name, 0, [], .absent⟩

def entryFrame (p : Program) : Frame :=
  (p.frame? entry).getD (.empty .bx)

/-- The first loop of the entry function. -/
def entryLoop (p : Program) : Term :=
  (p.function entry).body.loops.headD .absent

end Program

open Lowering in
/-- What has to be checked of a local of the entry function. -/
theorem loopLocal_entry {p : Program} {v : Variable} (s : Scopes) (k m : Nat)
    (h : p.functions.get? Program.entry = some (p.function Program.entry) ∧
      p.frame? Program.entry = some p.entryFrame ∧
      p.entryLoop ∈ (p.function Program.entry).body.loops ∧ p.entryLoop.isAbsent = false ∧
      (statement p.functions p.entryLoop s).result.toOption.map Code.items =
        some (Code.items (((p.block Program.entry).drop k).take m)) ∧
      v ∈ p.entryFrame.declared.drop (p.function Program.entry).arity ∧
      .pop (some (.memory (p.entryFrame.address v))) ∉
        Code.instructions ((p.block Program.entry).take k) ∧
      .pop (some (.memory (p.entryFrame.address v))) ∈
        Code.instructions (((p.block Program.entry).drop k).take m)) :
    LoopLocal p (p.function Program.entry) p.entryFrame ((p.block Program.entry).take k)
      (((p.block Program.entry).drop k).take m) v := by
  obtain ⟨hentry, hframe, hloop, hpresent, hitems, hlocal, hbefore, hinside⟩ := h
  obtain ⟨hmem, hname⟩ := FunctionTable.get?_eq_some hentry
  have hcompiled := compiledAt_of_items k m hpresent hitems
  rw [← hname] at hframe
  refine ⟨hmem, hframe, ⟨p.entryLoop, hloop, ((p.block Program.entry).drop k).drop m, ?_⟩, hlocal,
    hbefore, hinside⟩
  rwa [hname]

theorem loop_calls_clear_iff_declared_first_writeFirst :
    (Arena.ofTree .writeFirst).compile = .ok (.ofTree .writeFirst) ∧
      ∃ f frame before inside v, LoopLocal (.ofTree .writeFirst) f frame before inside v ∧
        v.name = "y" ∧ inside.calls = ["f"] ∧
        CallsClear .bx before.instructions inside.instructions v := by
  have hcompile : (Arena.ofTree .writeFirst).compile = .ok (.ofTree .writeFirst) :=
    compile_ofTree (by decide +kernel)
  have hlocal := loopLocal_entry (p := .ofTree .writeFirst) (v := ⟨"y", 16, 1, none⟩)
    ⟨.empty .cx, some ⟨.bx, [⟨"i", 11, 0, none⟩], 1, 0⟩⟩ 5 38 (by decide +kernel)
  exact ⟨hcompile, _, _, _, _, _, hlocal, rfl, by decide +kernel,
    ((loop_calls_clear_iff_declared_first _ _ hcompile).2 _ _ _ _ _ hlocal).mpr (by decide +kernel)⟩

/-- In the second round the argument of the call is stored where the first round left the value of
`y`. -/
theorem loop_call_takes_over_local :
    (Arena.ofTree .callFirst).compile = .ok (.ofTree .callFirst) ∧
      ∃ f frame before inside v, LoopLocal (.ofTree .callFirst) f frame before inside v ∧
        v.name = "y" ∧ .pop (some (.memory (frame.slot v.shift))) ∈ inside.instructions ∧
        ¬ CallsClear .bx before.instructions inside.instructions v := by
  have hcompile : (Arena.ofTree .callFirst).compile = .ok (.ofTree .callFirst) :=
    compile_ofTree (by decide +kernel)
  have hlocal := loopLocal_entry (p := .ofTree .callFirst) (v := ⟨"y", 24, 1, none⟩)
    ⟨.empty .cx, some ⟨.bx, [⟨"i", 11, 0, none⟩], 1, 0⟩⟩ 5 47 (by decide +kernel)
  exact ⟨hcompile, _, _, _, _, _, hlocal, rfl, by decide +kernel,
    not_callsClear 11 1 "f" (by decide +kernel) (by decide +kernel) (by decide) (by decide)⟩

namespace Frame

/-- The variables of a frame that some code stores to. -/
def storedIn (f : Frame) (code : List Instruction) : List Variable :=
  f.declared.filter fun v => .pop (some (.memory (f.address v))) ∈ code

end Frame

namespace Term

/-- The names that a term reads, writes or shows. -/
def names (t : Term) : List String :=
  (t.uses .read).filterMap fun use =>
    match use with
    | .read name => some name
    | .write name => some name
    | .shown name => some name
    | .argument => none

end Term

namespace Lowering

variable {table : FunctionTable}

/-- Code that starts with an empty frame declares what it stores to. -/
theorem Tracks.declared_eq {base : Register} {is : List Instruction} {f g : Frame}
    (h : Tracks table (.empty base) is f) (hg : g.Tiled) (hbase : g.base = base)
    (hdeclared : f.declared <+: g.declared) : f.declared = g.storedIn is := by
  have hmem : ∀ v ∈ g.declared, v ∈ f.declared ↔ .pop (some (.memory (g.address v))) ∈ is := by
    intro v hv
    rw [h.mem_declared_iff hg (hbase.trans h.base.symm) hdeclared hv]
    simp [Frame.empty]
  obtain ⟨more, hmore⟩ := hdeclared
  have hnodup : (f.declared ++ more).Nodup := hmore ▸ hg.distinct.of_map
  have hfirst : f.declared.filter (fun v => .pop (some (.memory (g.address v))) ∈ is) =
      f.declared := by
    rw [List.filter_eq_self]
    intro v hv
    rw [decide_eq_true_iff, ← hmem v (by simp [← hmore, hv])]
    exact hv
  have hrest : more.filter (fun v => .pop (some (.memory (g.address v))) ∈ is) = [] := by
    rw [List.filter_eq_nil_iff]
    intro v hv hstored
    rw [decide_eq_true_iff, ← hmem v (by simp [← hmore, hv])] at hstored
    exact List.disjoint_of_nodup_append hnodup hstored hv
  rw [Frame.storedIn, ← hmore, List.filter_append, hfirst, hrest, List.append_nil]

/-- The frame of a callee at a call, where the code starts with an empty frame. -/
theorem Tracks.placeFrame_call {base : Register} {pre post : List Instruction} {callee : String}
    {g : Frame} (h : Tracks table (.empty base) (pre ++ .transfer .call callee :: post) g)
    (hg : g.Tiled) :
    (∃ function, table.get? callee = some function) ∧ g.storedIn pre <+: g.declared ∧
      placeFrame base (Frame.slots (g.storedIn pre) +
        reserved table (pre ++ [.transfer .call callee])) <:+ pre := by
  obtain ⟨f, hf, hplace, hdeclared, -⟩ := h.at_call rfl
  obtain ⟨f', -, hstep⟩ := hf.last
  obtain ⟨-, function, hget, -⟩ := hstep.of_call
  have hfilled : f.size = Frame.slots f.declared + f.staged := hf.filled rfl
  have hstored : f.declared = g.storedIn pre := by
    rw [hf.declared_eq hg h.base hdeclared]
    refine List.filter_congr fun v _ => ?_
    rw [decide_eq_decide]
    simp
  rw [hfilled, hstored, hf.staged rfl, hf.base] at hplace
  exact ⟨⟨function, hget⟩, hstored ▸ hdeclared, hplace⟩

/-- A call leaves a variable alone if it is declared before, or ends within the reserved slots. -/
theorem Tracks.clears_iff {base : Register} {pre post : List Instruction} {callee : String}
    {g : Frame} (h : Tracks table (.empty base) (pre ++ .transfer .call callee :: post) g)
    (hg : g.Tiled) {v : Variable} (hv : v ∈ g.declared) :
    Clears base pre v ↔ v ∈ g.storedIn pre ∨ v.shift + v.size ≤
      Frame.slots (g.storedIn pre) + reserved table (pre ++ [.transfer .call callee]) := by
  obtain ⟨-, hdeclared, hplace⟩ := h.placeFrame_call hg
  rw [StackCompiler.clears_iff hplace (hg.limit_le_maxSize hv)]
  constructor
  · exact .inr
  · rintro (hmem | hle)
    · have hle := hg.limit_le hdeclared hmem
      omega
    · exact hle

/-- Without reserved slots it has to be declared before. -/
theorem Tracks.clears_iff_mem {base : Register} {pre post : List Instruction} {callee : String}
    {g : Frame} (h : Tracks table (.empty base) (pre ++ .transfer .call callee :: post) g)
    (hg : g.Tiled) (hzero : reserved table (pre ++ [.transfer .call callee]) = 0) {v : Variable}
    (hv : v ∈ g.declared) : Clears base pre v ↔ v ∈ g.storedIn pre := by
  obtain ⟨-, hdeclared, -⟩ := h.placeFrame_call hg
  rw [h.clears_iff hg hv, hzero, Nat.add_zero]
  refine ⟨fun hcases => hcases.elim id fun hle => ?_, .inl⟩
  by_contra hnot
  have hshift := hg.le_shift hdeclared hv hnot
  have hpositive := hg.positive v hv
  omega

end Lowering

/-- A call of `f` behind the code `pre` in the initializers of a program. -/
structure InitializerCall (p : Program) (f : Function) (pre : List Instruction) : Prop where
  callee : p.functions.get? f.name = some f
  code : ∃ start post, p.opening = start ++ Lowering.preamble p.globals.size ∧
    Code.instructions start = pre ++ .transfer .call f.name :: post

/-- A call behind `pre` places the frame of `f` behind all globals that `f` names. -/
def GlobalsClear (p : Program) (f : Function) (pre : List Instruction) : Prop :=
  ∀ v ∈ p.globals.declared, v.name ∈ f.body.names → Clears .cx pre v

open Lowering in
/-- All calls in initializers are calls of functions. Such a call places the callee's frame behind
the globals declared before it and the slots reserved for calls around it. It leaves the globals
that the callee names alone if and only if each of them is declared before, or ends within these
slots. If the call is not an argument of another one, no slots are reserved, and all of them have to
be declared before. -/
theorem initializer_calls_clear_iff_declared_before (a : Arena) (p : Program)
    (h : a.compile = .ok p) :
    (∃ start, p.opening = start ++ preamble p.globals.size ∧ ∀ pre callee post,
      start.instructions = pre ++ .transfer .call callee :: post →
        ∃ f, f.name = callee ∧ InitializerCall p f pre) ∧
    ∀ f pre, InitializerCall p f pre →
      placeFrame .cx (Frame.slots (p.globals.storedIn pre) +
        reserved p.functions (pre ++ [.transfer .call f.name])) <:+ pre ∧
      (GlobalsClear p f pre ↔ ∀ v ∈ p.globals.declared, v.name ∈ f.body.names →
        v ∈ p.globals.storedIn pre ∨ v.shift + v.size ≤ Frame.slots (p.globals.storedIn pre) +
          reserved p.functions (pre ++ [.transfer .call f.name])) ∧
      (reserved p.functions (pre ++ [.transfer .call f.name]) = 0 →
        (GlobalsClear p f pre ↔ ∀ v ∈ p.globals.declared, v.name ∈ f.body.names →
          v ∈ p.globals.storedIn pre)) := by
  obtain ⟨start, bodies, hanatomy⟩ := anatomy_of_compile h
  have htiled := hanatomy.laid.tiled
  have htracks := hanatomy.tracks
  constructor
  · refine ⟨start, hanatomy.opening_eq, fun pre callee post hcode => ?_⟩
    rw [hcode] at htracks
    obtain ⟨⟨f, hget⟩, -, -⟩ := htracks.placeFrame_call htiled
    obtain ⟨-, rfl⟩ := FunctionTable.get?_eq_some hget
    exact ⟨f, rfl, hget, start, post, hanatomy.opening_eq, hcode⟩
  · rintro f pre ⟨-, start', post, hopening, hcode⟩
    obtain rfl : start = start' :=
      List.append_cancel_right (hanatomy.opening_eq.symm.trans hopening)
    rw [hcode] at htracks
    refine ⟨(htracks.placeFrame_call htiled).2.2, ?_, ?_⟩
    · exact forall₂_congr fun v hv => imp_congr_right fun _ => htracks.clears_iff htiled hv
    · intro hzero
      exact forall₂_congr fun v hv => imp_congr_right fun _ =>
        htracks.clears_iff_mem htiled hzero hv

/-- Some initializers, one that calls `f` for the value of `g`, and the function `f`. -/
def Tree.initialized (initializers body : List Tree) : Tree :=
  let g : Tree := .ident "g" .absent
  .chain .stmt (initializers ++
    [.keyword .assign g
        (.keyword .call (.ident "f" .absent) (.chain .param [.number (.ofNat 7)])),
      .keyword .define (.keyword .func (.ident "f" .absent) (.chain .param [.ident "x" .absent]))
        (.chain .stmt body),
      .keyword .define (.keyword .func (.ident "main" .absent) .absent)
        (.chain .stmt [.keyword .ret .absent g])])

/-- The function uses a global that is declared before the call. -/
def Tree.usesEarlier : Tree :=
  let k : Tree := .ident "k" .absent
  .initialized [.keyword .assign k (.number (.ofNat 1))]
    [.keyword .ret .absent (.keyword .add (.ident "x" .absent) k)]

/-- The function writes to the global that its result is for. -/
def Tree.usesLater : Tree :=
  .initialized []
    [.keyword .assign (.ident "g" .absent) (.number (.ofNat 5)),
      .keyword .ret .absent (.ident "x" .absent)]

theorem initializer_calls_clear_iff_declared_before_usesEarlier :
    (Arena.ofTree .usesEarlier).compile = .ok (.ofTree .usesEarlier) ∧
      ∃ f pre, InitializerCall (.ofTree .usesEarlier) f pre ∧ "k" ∈ f.body.names ∧
        GlobalsClear (.ofTree .usesEarlier) f pre := by
  have hcompile : (Arena.ofTree .usesEarlier).compile = .ok (.ofTree .usesEarlier) :=
    compile_ofTree (by decide +kernel)
  have hcall : InitializerCall (.ofTree .usesEarlier) ((Program.ofTree .usesEarlier).function "f")
      ((Program.ofTree .usesEarlier).opening.instructions.take 10) :=
    ⟨by decide +kernel, (Program.ofTree .usesEarlier).opening.take 19,
      ((Program.ofTree .usesEarlier).opening.instructions.take 19).drop 11, by decide +kernel,
      by decide +kernel⟩
  have hclear := ((initializer_calls_clear_iff_declared_before _ _ hcompile).2 _ _ hcall).2.1
  exact ⟨hcompile, _, _, hcall, by decide +kernel, hclear.mpr (by decide +kernel)⟩

/-- The argument of the call is stored where `g` is, so that the parameter `x` is the global `g`. -/
theorem initializer_call_overlaps_global :
    (Arena.ofTree .usesLater).compile = .ok (.ofTree .usesLater) ∧
      ∃ f pre v, InitializerCall (.ofTree .usesLater) f pre ∧
        v ∈ (Program.ofTree .usesLater).globals.declared ∧ v.name = "g" ∧ v.name ∈ f.body.names ∧
        .pop (some (.memory ((Program.ofTree .usesLater).globals.slot v.shift))) ∈ pre ∧
        ¬ GlobalsClear (.ofTree .usesLater) f pre := by
  have hcompile : (Arena.ofTree .usesLater).compile = .ok (.ofTree .usesLater) :=
    compile_ofTree (by decide +kernel)
  have hcall : InitializerCall (.ofTree .usesLater) ((Program.ofTree .usesLater).function "f")
      ((Program.ofTree .usesLater).opening.instructions.take 6) :=
    ⟨by decide +kernel, (Program.ofTree .usesLater).opening.take 15,
      ((Program.ofTree .usesLater).opening.instructions.take 15).drop 7, by decide +kernel,
      by decide +kernel⟩
  have hplace : placeFrame .cx 0 <:+ (Program.ofTree .usesLater).opening.instructions.take 6 := by
    decide +kernel
  have hmem : (⟨"g", 0, 0, none⟩ : Variable) ∈ (Program.ofTree .usesLater).globals.declared := by
    decide +kernel
  have hname : "g" ∈ ((Program.ofTree .usesLater).function "f").body.names := by decide +kernel
  refine ⟨hcompile, _, _, ⟨"g", 0, 0, none⟩, hcall, hmem, rfl, hname, by decide +kernel, ?_⟩
  intro hclear
  have hle := (clears_iff hplace (by decide)).mp (hclear _ hmem hname)
  exact absurd hle (by decide)

end StackCompiler
