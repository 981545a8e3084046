import StackCompiler.Proofs.Blocks

/-!
# Frames at a call

The arguments of a call are staged in the slots right behind the caller's frame, and the callee's
frame is placed there, so that the slot of the `i`-th argument is the callee's slot `i`, which is
that of its `i`-th parameter. While a later argument is computed, all slots in use by nested calls
lie above those of the arguments before it. After the call the caller's scopes are what they were.
-/
namespace StackCompiler.Lowering

open Instruction

variable {table : FunctionTable}

/-- Code in which every slot that an argument is staged in is at least `low`, and every call stands
between the shift of `bx` to the callee's frame and the shift back, both by a frame size of at least
`low`. -/
inductive StagesAbove (base : Register) (low : Nat) : List Instruction → Prop
  | nil : StagesAbove base low []
  | other {i : Instruction} {rest : List Instruction} :
      i.callee? = none → (∀ b n, i ≠ .pop (some (.memory ⟨b, n, none⟩))) →
      StagesAbove base low rest → StagesAbove base low (i :: rest)
  | store {n : Nat} {rest : List Instruction} :
      low ≤ n → StagesAbove base low rest →
      StagesAbove base low (.pop (some (.memory ⟨base, n, none⟩)) :: rest)
  | call {size : Nat} {callee : String} {rest : List Instruction} :
      low ≤ size → StagesAbove base low rest →
      StagesAbove base low
        ([.push (.register base), .push (.number (.ofNat size)), .plain .add,
          .pop (some (.register .bx)), .transfer .call callee, .push (.register .ax),
          .push (.register .bx), .push (.number (.ofNat size)), .plain .sub,
          .pop (some (.register .bx))] ++ rest)

namespace StagesAbove

variable {base : Register} {low : Nat}

theorem append {a b : List Instruction} (ha : StagesAbove base low a)
    (hb : StagesAbove base low b) : StagesAbove base low (a ++ b) := by
  induction ha with
  | nil => exact hb
  | other hcall hstore _ ih => exact .other hcall hstore ih
  | store hlow _ ih => exact .store hlow ih
  | call hlow _ ih =>
    rw [List.append_assoc]
    exact .call hlow ih

theorem mono {low' : Nat} {code : List Instruction} (h : StagesAbove base low' code)
    (hle : low ≤ low') : StagesAbove base low code := by
  induction h with
  | nil => exact .nil
  | other hcall hstore _ ih => exact .other hcall hstore ih
  | store hlow _ ih => exact .store (Nat.le_trans hle hlow) ih
  | call hlow _ ih => exact .call (Nat.le_trans hle hlow) ih

theorem push (operand : Operand) : StagesAbove base low [.push operand] :=
  .other rfl (by simp) .nil

theorem plain (operation : Operation) : StagesAbove base low [.plain operation] :=
  .other rfl (by simp) .nil

theorem callSequence {size : Nat} (callee : String) (hlow : low ≤ size) :
    StagesAbove base low (Instruction.callSequence base size callee) :=
  .call hlow .nil

theorem popRegister (r : Register) : StagesAbove base low [.pop (some (.register r))] :=
  .other rfl (by simp) .nil

end StagesAbove

/-- Expressions use slots and frame sizes from the end of the current frame on. -/
theorem Lowers.stagesAbove {role : Role} {s : Scopes} {t : Term} {code : List Instruction}
    (h : Lowers table role s t code) : StagesAbove s.current.base s.current.size code := by
  induction h with
  | number => exact .push _
  | read _ _ _ ih => exact ih.append (.push _)
  | call _ _ _ ih => exact ih.append (.callSequence _ (Nat.le_refl _))
  | binary _ _ _ iha ihb => exact (iha.append ihb).append (.plain _)
  | unary _ _ ih => exact ih.append (.plain _)
  | input => exact .plain _
  | surplus _ ih => exact ih.append (.plain _)
  | zero => exact (StagesAbove.push _).append (.popRegister _)
  | index _ ih => exact ih.append (.popRegister _)
  | nothing => exact .nil
  | argument _ _ ihs ihv =>
    rw [Scopes.current_reserve] at ihv
    exact (ihs.append (ihv.mono (Nat.le_add_right _ _))).append (.store (Nat.le_add_right _ _) .nil)

/-- The code of staged arguments, from that of each argument. -/
def stagedCode (base : Register) (size : Nat) (codes : List (List Instruction)) :
    List Instruction :=
  (codes.mapIdx fun j code => code ++ [.pop (some (.memory ⟨base, size + j, none⟩))]).flatten

/-- Each argument is lowered with the slots of those before it reserved. -/
theorem runs_arguments {args : Term} (hchain : args.IsChain .param) {s s' : Scopes}
    {staged : List Instruction} (h : Runs (arguments table args) s staged s') :
    ∃ codes, codes.length = args.links.length ∧
      staged = stagedCode s.current.base s.current.size codes ∧
      ∀ j code arg, codes[j]? = some code → args.links[j]? = some arg →
        Runs (expression table arg) (s.reserve j) code (s.reserve j) ∧
          StagesAbove s.current.base (s.current.size + j) code := by
  induction hchain generalizing staged s' with
  | absent =>
    simp only [arguments, runs_pure] at h
    obtain ⟨rfl, rfl⟩ := h
    exact ⟨[], rfl, rfl, by simp⟩
  | @link id before last hbefore hlast ih =>
    simp only [arguments, runs_bind, runs_stage, runs_pure] at h
    obtain ⟨staged, s₁, hstaged, value, s₂, hvalue, slot, s₃, ⟨rfl, rfl⟩, rfl, rfl⟩ := h
    obtain ⟨codes, hlength, rfl, hcodes⟩ := ih hstaged
    obtain ⟨rfl, -⟩ := (lowers_of_runs table before).2 hbefore _ _ _ hstaged
    obtain ⟨rfl, hlowers⟩ := lowers_of_runs_expression hvalue hlast
    refine ⟨codes ++ [value], by simp [Term.links, hlength], ?_, ?_⟩
    · simp [stagedCode, List.mapIdx_append, hlength, Frame.slot]
    · intro j code arg hcode harg
      rw [Term.links] at harg
      rcases Nat.lt_or_ge j codes.length with hj | hj
      · rw [List.getElem?_append_left hj] at hcode
        rw [List.getElem?_append_left (hlength ▸ hj)] at harg
        exact hcodes j code arg hcode harg
      · obtain rfl : j = codes.length := by
          have hbound := (List.getElem?_eq_some_iff.mp hcode).1
          simp only [List.length_append, List.length_singleton] at hbound
          omega
        rw [List.getElem?_concat_length, Option.some_inj] at hcode
        rw [hlength, List.getElem?_concat_length, Option.some_inj] at harg
        subst hcode harg
        have habove := hlowers.stagesAbove
        rw [Scopes.current_reserve] at habove
        rw [hlength]
        exact ⟨hvalue, habove⟩

/-- Parameters take the next slots, one each. -/
theorem Declares.shift {globals f g : Frame} {ts : List Term} (h : Declares globals f ts g)
    {i : Nat} {t : Term} (ht : ts[i]? = some t) :
    ∃ v, t.ident? = some v.name ∧ g.find? v.name = some v ∧ v.shift = f.size + i ∧
      v.length = none := by
  induction h generalizing i with
  | nil => simp at ht
  | cons _ hdeclare hrest ih =>
    have hfind := Frame.find?_of_declare hdeclare
    obtain ⟨_, _, _, _, length, hterm, -, hlength, rfl, -, rfl⟩ := Frame.declare_eq_ok.mp hdeclare
    cases hterm
    cases hlength
    cases i with
    | zero =>
      rw [List.getElem?_cons_zero, Option.some_inj] at ht
      subst ht
      exact ⟨_, rfl, hrest.extends.find? hfind, rfl, rfl⟩
    | succ i =>
      obtain ⟨v, hname, hv, hshift, hplain⟩ := ih (by simpa using ht)
      refine ⟨v, hname, hv, ?_, hplain⟩
      simp only [Variable.size, Option.getD_none] at hshift
      omega

/-- The `i`-th parameter of a function is at shift `i` of its frame. -/
theorem Defines.shift {globals frame : Frame} {f : Function} {code : Code}
    (h : Defines table globals f code frame) {i : Nat} {t : Term} (ht : f.params[i]? = some t) :
    ∃ v, t.ident? = some v.name ∧ frame.find? v.name = some v ∧ v.shift = i ∧ v.length = none := by
  obtain ⟨-, start, body, hdeclares, hbody, -⟩ := h
  obtain ⟨v, hname, hv, hshift, hplain⟩ := hdeclares.shift ht
  have hextends : start.Extends frame := hbody.extends.current
  refine ⟨v, hname, hextends.find? hv, ?_, hplain⟩
  rw [hshift]
  exact Nat.zero_add i

/-- A call stages its arguments behind the caller's frame and then passes control with a frame that
starts there, where the callee has its parameters. Slots and frame sizes of calls inside an argument
lie above the slots of the arguments before it, and the scopes are as before the call. -/
theorem call_stages_arguments_as_parameters (table : FunctionTable) (id : NodeId)
    (callee args : Term) (s s' : Scopes) (code : List Instruction)
    (h : Runs (call table (.node id (.keyword .call) callee args)) s code s') :
    s' = s ∧ ∃ (f : Function) (codes : List (List Instruction)),
      table.lookup (.node id (.keyword .call) callee args) = .ok f ∧
      args.links.length = f.arity ∧ codes.length = f.arity ∧
      code = (codes.mapIdx fun j argument =>
          argument ++ [.pop (some (.memory ⟨s.current.base, s.current.size + j, none⟩))]).flatten ++
        [.push (.register s.current.base), .push (.number (.ofNat s.current.size)), .plain .add,
          .pop (some (.register .bx)), .transfer .call f.name, .push (.register .ax),
          .push (.register .bx), .push (.number (.ofNat s.current.size)), .plain .sub,
          .pop (some (.register .bx))] ∧
      (∀ j argument arg, codes[j]? = some argument → args.links[j]? = some arg →
        Runs (expression table arg) (s.reserve j) argument (s.reserve j) ∧
          StagesAbove s.current.base (s.current.size + j) argument) ∧
      ∀ s₀ s₁ block frame, Runs (definition table f) s₀ (block, frame) s₁ →
        ∀ i param, f.params[i]? = some param → ∃ v, param.ident? = some v.name ∧
          frame.find? v.name = some v ∧ v.length = none ∧ v.shift = i := by
  obtain ⟨f, staged, s₁, hresolve, hchain, harity, hstaged, hrelease, rfl⟩ := runs_callWith.mp h
  obtain ⟨codes, hlength, hcode, hcodes⟩ := runs_arguments hchain hstaged
  obtain ⟨rfl, -⟩ := (lowers_of_runs table args).2 hchain _ _ _ hstaged
  obtain rfl : s' = s := runs_release_reserve.mp hrelease
  refine ⟨rfl, f, codes, hresolve, harity, hlength.trans harity, ?_, hcodes, ?_⟩
  · rw [hcode]
    rfl
  · intro s₀ s₁ block frame hdefinition i param hparam
    obtain ⟨-, hdefines⟩ := defines_of_runs hdefinition
    obtain ⟨v, hname, hv, hshift, hplain⟩ := hdefines.shift hparam
    exact ⟨v, hname, hv, hplain, hshift⟩

/-- A call whose argument is a call. -/
def nestedCall : Term :=
  let callee : Term := .node 0 (.ident "count") .absent .absent
  let inner : Term := .node 3 (.keyword .call) callee
    (.node 2 (.keyword .param) .absent (.node 1 (.number (.ofNat 3)) .absent .absent))
  .node 5 (.keyword .call) callee (.node 4 (.keyword .param) .absent inner)

/-- Behind two variables the outer call stages its argument in slot 2, as the inner one does before
it, and both calls find the parameter of their callee there. -/
theorem call_stages_arguments_as_parameters_nested :
    let table := Program.countdown.functions
    let s : Scopes := ⟨.empty .cx, some ⟨.bx, [⟨"a", 0, 0, none⟩, ⟨"b", 1, 1, none⟩], 2, 0⟩⟩
    let inner : List Instruction := [
      .push (.number (.ofNat 3)), .pop (some (.memory ⟨.bx, 2, none⟩)),
      .push (.register .bx), .push (.number (.ofNat 2)), .plain .add, .pop (some (.register .bx)),
      .transfer .call "count", .push (.register .ax),
      .push (.register .bx), .push (.number (.ofNat 2)), .plain .sub, .pop (some (.register .bx))]
    let outer : List Instruction := [
      .pop (some (.memory ⟨.bx, 2, none⟩)),
      .push (.register .bx), .push (.number (.ofNat 2)), .plain .add, .pop (some (.register .bx)),
      .transfer .call "count", .push (.register .ax),
      .push (.register .bx), .push (.number (.ofNat 2)), .plain .sub, .pop (some (.register .bx))]
    Runs (call table nestedCall) s (inner ++ outer) s ∧
      ∃ (f : Function) (codes : List (List Instruction)), table.lookup nestedCall = .ok f ∧
        codes.length = f.arity ∧
        ∀ j argument arg, codes[j]? = some argument → nestedCall.right.links[j]? = some arg →
          StagesAbove .bx (2 + j) argument := by
  intro table s inner outer
  have hruns : Runs (call table nestedCall) s (inner ++ outer) s :=
    ⟨by decide +kernel, by decide +kernel⟩
  obtain ⟨-, f, codes, hlookup, -, hlength, -, hcodes, -⟩ :=
    call_stages_arguments_as_parameters table _ _ _ s s _ hruns
  refine ⟨hruns, f, codes, hlookup, hlength, ?_⟩
  intro j argument arg hargument harg
  exact (hcodes j argument arg hargument harg).2

end StackCompiler.Lowering
