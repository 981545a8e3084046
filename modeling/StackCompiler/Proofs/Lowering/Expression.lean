import StackCompiler.Lowering.Expression
import StackCompiler.Proofs.Operators
import StackCompiler.Proofs.Term.Chain

/-!
# What lowering an expression gives

`Lowers` describes, form by form, the code of an expression, of the load of an element shift and of
staged arguments. Lowering gives exactly such code and leaves the scopes as they were: the slots
that a call reserves are released again before control is passed.
-/
namespace StackCompiler

namespace Scopes

/-- The scopes with more slots of the current frame reserved. -/
def reserve (s : Scopes) (count : Nat) : Scopes :=
  s.setCurrent { s.current with size := s.current.size + count, staged := s.current.staged + count }

@[simp] theorem current_setCurrent (s : Scopes) (f : Frame) : (s.setCurrent f).current = f := by
  unfold setCurrent current
  cases s.locals <;> rfl

@[simp] theorem setCurrent_setCurrent (s : Scopes) (f g : Frame) :
    (s.setCurrent f).setCurrent g = s.setCurrent g := by
  obtain ⟨globals, locals⟩ := s
  cases locals <;> rfl

@[simp] theorem setCurrent_current (s : Scopes) : s.setCurrent s.current = s := by
  obtain ⟨globals, locals⟩ := s
  cases locals <;> rfl

@[simp] theorem current_reserve (s : Scopes) (count : Nat) :
    (s.reserve count).current =
      { s.current with size := s.current.size + count, staged := s.current.staged + count } := by
  simp [reserve]

@[simp] theorem reserve_zero (s : Scopes) : s.reserve 0 = s := by
  unfold reserve
  exact s.setCurrent_current

theorem reserve_reserve (s : Scopes) (a b : Nat) : (s.reserve a).reserve b = s.reserve (a + b) := by
  simp [reserve, Nat.add_assoc]

end Scopes

namespace Lowering

open Instruction

theorem runs_loadShift {index : Term} {code : Lowering (List Instruction)} {s s' : Scopes}
    {load : List Instruction} :
    Runs (loadShift index code) s load s' ↔
      (index.isAbsent = true ∧ s' = s ∧
          load = [.push (.number (.ofNat 0)), .pop (some (.register .hx))]) ∨
        (index.isAbsent = false ∧
          ∃ value, Runs code s value s' ∧ load = value ++ [.pop (some (.register .hx))]) := by
  unfold loadShift
  cases index.isAbsent <;> simp [and_comm]

theorem addressOf_eq_ok {frame : Frame} {v : Variable} {id : NodeId} {indexed : Bool}
    {address : Address} :
    Scopes.addressOf frame v id indexed = .ok address ↔
      v.isArray = indexed ∧ address = frame.address v := by
  unfold Scopes.addressOf
  split_ifs with h <;> simp [h, eq_comm]

theorem runs_resolved {id : NodeId} {name : String} {index : Term}
    {code : Lowering (List Instruction)} {s s' : Scopes} {address : Address}
    {load : List Instruction} :
    Runs (resolved id name index code) s (address, load) s' ↔
      ∃ frame v, s.find? name = some (frame, v) ∧ v.isArray = (!index.isAbsent) ∧
        address = frame.address v ∧ Runs (loadShift index code) s load s' := by
  unfold resolved
  rw [runs_bind]
  simp only [runs_scopes, exists_and_left, and_assoc, exists_eq_left]
  cases hfind : s.find? name with
  | none => simp
  | some found =>
    obtain ⟨frame, v⟩ := found
    simp [addressOf_eq_ok, and_assoc, and_comm, and_left_comm]

theorem runs_stage {s s' : Scopes} {slot : Address} :
    Runs stage s slot s' ↔ slot = s.current.slot s.current.size ∧ s' = s.reserve 1 := by
  simp [stage, Frame.stage, Frame.slot, Scopes.reserve, and_comm]

/-- Releasing as many slots as were reserved brings the scopes back. -/
theorem runs_release_reserve {s s' : Scopes} {count : Nat} {u : Unit} :
    Runs (release count) (s.reserve count) u s' ↔ s' = s := by
  induction count generalizing s' with
  | zero => simp [release]
  | succ count ih =>
    have hrelease : (s.reserve (count + 1)).current.release =
        some (s.current.size + count, (s.reserve count).current) := by
      simp [Frame.release]
    have hset : (s.reserve (count + 1)).setCurrent (s.reserve count).current = s.reserve count := by
      simp [Scopes.reserve]
    unfold release
    rw [runs_bind]
    simp only [runs_current, exists_and_left, and_assoc, exists_eq_left, hrelease]
    simp only [runs_bind, runs_setCurrent, hset, exists_eq_left, ih, exists_const]

theorem runs_callWith {table : FunctionTable} {id : NodeId} {callee args : Term}
    {staging : Lowering (List Instruction)} {s s' : Scopes} {code : List Instruction} :
    Runs (callWith table id callee args staging) s code s' ↔
      ∃ f staged s₁, table.resolve id callee = .ok f ∧ args.IsChain .param ∧
        args.links.length = f.arity ∧ Runs staging s staged s₁ ∧
        Runs (release args.links.length) s₁ () s' ∧
        code = staged ++ callSequence s'.current.base s'.current.size f.name := by
  unfold callWith
  simp [Term.elements_eq_ok, and_assoc, Unique.exists_iff]

/-- What a piece of lowered code is for. -/
inductive Role where
  /-- Pushes the value of an expression. -/
  | value
  /-- Loads the value of an index, or zero without one, into `hx`. -/
  | shift
  /-- Stores the arguments of a call in their slots. -/
  | staging

/-- The code of a term in its role. -/
inductive Lowers (table : FunctionTable) : Role → Scopes → Term → List Instruction → Prop
  | number {s : Scopes} {id : NodeId} {n : Number} {left right : Term} :
      Lowers table .value s (.node id (.number n) left right) [.push (.number n)]
  | read {s : Scopes} {id : NodeId} {name : String} {left index : Term} {frame : Frame}
      {v : Variable} {load : List Instruction} :
      s.find? name = some (frame, v) → v.isArray = (!index.isAbsent) →
      Lowers table .shift s index load →
      Lowers table .value s (.node id (.ident name) left index)
        (load ++ [.push (.memory (frame.address v))])
  | call {s : Scopes} {id : NodeId} {callee args : Term} {f : Function}
      {staged : List Instruction} :
      table.resolve id callee = .ok f → args.links.length = f.arity →
      Lowers table .staging s args staged →
      Lowers table .value s (.node id (.keyword .call) callee args)
        (staged ++ callSequence s.current.base s.current.size f.name)
  | binary {s : Scopes} {id : NodeId} {tag : Keyword} {operation : Operation} {left right : Term}
      {a b : List Instruction} :
      tag.meaning? = some (.binary operation) →
      Lowers table .value s left a → Lowers table .value s right b →
      Lowers table .value s (.node id (.keyword tag) left right) (a ++ b ++ [.plain operation])
  | unary {s : Scopes} {id : NodeId} {tag : Keyword} {operation : Operation} {left right : Term}
      {a : List Instruction} :
      tag.meaning? = some (.unary operation) → Lowers table .value s right a →
      Lowers table .value s (.node id (.keyword tag) left right) (a ++ [.plain operation])
  | input {s : Scopes} {id : NodeId} {left : Term} :
      Lowers table .value s (.node id (.keyword .input) left .absent) [.plain .input]
  /-- An operand that the operation does not take stays on the stack. -/
  | surplus {s : Scopes} {id : NodeId} {left right : Term} {a : List Instruction} :
      Lowers table .value s right a →
      Lowers table .value s (.node id (.keyword .input) left right) (a ++ [.plain .input])
  | zero {s : Scopes} :
      Lowers table .shift s .absent [.push (.number (.ofNat 0)), .pop (some (.register .hx))]
  | index {s : Scopes} {index : Term} {value : List Instruction} :
      Lowers table .value s index value →
      Lowers table .shift s index (value ++ [.pop (some (.register .hx))])
  | nothing {s : Scopes} : Lowers table .staging s .absent []
  | argument {s : Scopes} {id : NodeId} {before argument : Term}
      {staged value : List Instruction} :
      Lowers table .staging s before staged →
      Lowers table .value (s.reserve before.links.length) argument value →
      Lowers table .staging s (.node id (.keyword .param) before argument)
        (staged ++ value ++
          [.pop (some (.memory (s.current.slot (s.current.size + before.links.length))))])

/-- Lowering `t` as an expression leaves the scopes as they were. -/
def ExpressionLowers (table : FunctionTable) (t : Term) : Prop :=
  ∀ s code s', Runs (expression table t) s code s' → t.isAbsent = false →
    s' = s ∧ Lowers table .value s t code

/-- Lowering `t` as arguments leaves a slot for each of them. -/
def ArgumentsLower (table : FunctionTable) (t : Term) : Prop :=
  t.IsChain .param → ∀ s code s', Runs (arguments table t) s code s' →
    s' = s.reserve t.links.length ∧ Lowers table .staging s t code

theorem lowers_loadShift {table : FunctionTable} {s s' : Scopes} {index : Term}
    {load : List Instruction} (hindex : ExpressionLowers table index)
    (h : Runs (loadShift index (expression table index)) s load s') :
    s' = s ∧ Lowers table .shift s index load := by
  rcases runs_loadShift.mp h with ⟨habsent, rfl, rfl⟩ | ⟨habsent, value, hvalue, rfl⟩
  · cases index with
    | absent => exact ⟨rfl, .zero⟩
    | dangling id => cases habsent
    | node id kind left right => cases habsent
  · obtain ⟨rfl, hlowers⟩ := hindex s value s' hvalue habsent
    exact ⟨rfl, .index hlowers⟩

/-- Lowering a call brings the scopes back. -/
theorem lowers_callWith {table : FunctionTable} {s s' : Scopes} {id : NodeId} {callee args : Term}
    {code : List Instruction} (hargs : ArgumentsLower table args)
    (h : Runs (callWith table id callee args (arguments table args)) s code s') :
    s' = s ∧ Lowers table .value s (.node id (.keyword .call) callee args) code := by
  obtain ⟨f, staged, s₁, hresolve, hchain, harity, hstaged, hrelease, rfl⟩ := runs_callWith.mp h
  obtain ⟨rfl, hlowers⟩ := hargs hchain s staged s₁ hstaged
  obtain rfl := runs_release_reserve.mp hrelease
  exact ⟨rfl, .call hresolve harity hlowers⟩

theorem expressionLowers_keyword {table : FunctionTable} {id : NodeId} {tag : Keyword}
    {left right : Term} (hleft : ExpressionLowers table left)
    (hright : ExpressionLowers table right) (hargs : ArgumentsLower table right) :
    ExpressionLowers table (.node id (.keyword tag) left right) := by
  intro s code s' h _
  simp only [expression, Keyword.arity?_eq, Keyword.operation?_eq] at h
  split_ifs at h with hcall
  · subst hcall
    exact lowers_callWith hargs h
  cases hmeaning : tag.meaning? with
  | none =>
    rw [hmeaning] at h
    exact absurd h not_runs_throw
  | some operator =>
    rw [hmeaning] at h
    cases operator with
    | binary operation =>
      simp only [Option.map_some, Operator.arity, Operator.operation, runs_bind, runs_lift,
        runs_pure, Term.require_eq_ok] at h
      obtain ⟨_, _, ⟨hl, rfl⟩, a, s₁, ha, _, _, ⟨hr, rfl⟩, b, s₂, hb, rfl, rfl⟩ := h
      obtain ⟨rfl, hla⟩ := hleft _ _ _ ha hl
      obtain ⟨rfl, hlb⟩ := hright _ _ _ hb hr
      exact ⟨rfl, .binary hmeaning hla hlb⟩
    | unary operation =>
      simp only [Option.map_some, Operator.arity, Operator.operation, runs_bind, runs_lift,
        runs_pure, Term.require_eq_ok] at h
      obtain ⟨_, _, ⟨hr, rfl⟩, a, s₁, ha, rfl, rfl⟩ := h
      obtain ⟨rfl, hla⟩ := hright _ _ _ ha hr
      exact ⟨rfl, .unary hmeaning hla⟩
    | input =>
      obtain rfl := Keyword.meaning?_eq_input.mp hmeaning
      simp only [Option.map_some, Operator.arity, Operator.operation, runs_bind, runs_pure] at h
      obtain ⟨a, s₁, ha, rfl, rfl⟩ := h
      -- the child of `in` is not asked for, but lowered if it is there
      cases habsent : right.isAbsent with
      | true =>
        cases right with
        | absent =>
          simp only [expression, runs_pure] at ha
          obtain ⟨rfl, rfl⟩ := ha
          exact ⟨rfl, .input⟩
        | dangling id => cases habsent
        | node id kind left right => cases habsent
      | false =>
        obtain ⟨rfl, hla⟩ := hright _ _ _ ha habsent
        exact ⟨rfl, .surplus hla⟩

theorem argumentsLower_node {table : FunctionTable} {id : NodeId} {kind : Kind}
    {before argument : Term} (hbefore : ArgumentsLower table before)
    (hargument : ExpressionLowers table argument) :
    ArgumentsLower table (.node id kind before argument) := by
  intro hchain s code s' h
  cases hchain with
  | link hlinks hlast =>
    simp only [arguments, runs_bind, runs_stage, runs_pure] at h
    obtain ⟨staged, s₁, hstaged, value, s₂, hvalue, slot, s₃, ⟨rfl, rfl⟩, rfl, rfl⟩ := h
    obtain ⟨rfl, hls⟩ := hbefore hlinks _ _ _ hstaged
    obtain ⟨rfl, hlv⟩ := hargument _ _ _ hvalue hlast
    refine ⟨?_, ?_⟩
    · simp [Scopes.reserve_reserve, Term.links]
    · simpa [Frame.slot] using Lowers.argument hls hlv

theorem lowers_of_runs (table : FunctionTable) (t : Term) :
    ExpressionLowers table t ∧ ArgumentsLower table t := by
  induction t with
  | absent =>
    constructor
    · intro s code s' _ habsent
      cases habsent
    · intro _ s code s' h
      simp only [arguments, runs_pure] at h
      obtain ⟨rfl, rfl⟩ := h
      exact ⟨by simp [Term.links], .nothing⟩
  | dangling id =>
    constructor
    · intro s code s' h _
      simp [expression] at h
    · intro hchain
      cases hchain
  | node id kind left right ihl ihr =>
    refine ⟨?_, argumentsLower_node ihl.2 ihr.1⟩
    cases kind with
    | number n =>
      intro s code s' h _
      simp only [expression, runs_pure] at h
      obtain ⟨rfl, rfl⟩ := h
      exact ⟨rfl, .number⟩
    | ident name =>
      intro s code s' h _
      simp only [expression, runs_bind, runs_pure] at h
      obtain ⟨⟨address, load⟩, _, hresolved, rfl, rfl⟩ := h
      obtain ⟨frame, v, hfind, harray, rfl, hload⟩ := runs_resolved.mp hresolved
      obtain ⟨rfl, hlowers⟩ := lowers_loadShift ihr.1 hload
      exact ⟨rfl, .read hfind harray hlowers⟩
    | keyword tag => exact expressionLowers_keyword ihl.1 ihr.1 ihr.2

/-- Lowering an expression leaves the scopes as they were. -/
theorem lowers_of_runs_expression {table : FunctionTable} {t : Term} {s s' : Scopes}
    {code : List Instruction} (h : Runs (expression table t) s code s')
    (ht : t.isAbsent = false) : s' = s ∧ Lowers table .value s t code :=
  (lowers_of_runs table t).1 s code s' h ht

theorem lowers_of_runs_call {table : FunctionTable} {id : NodeId} {callee args : Term}
    {s s' : Scopes} {code : List Instruction}
    (h : Runs (callWith table id callee args (arguments table args)) s code s') :
    s' = s ∧ Lowers table .value s (.node id (.keyword .call) callee args) code :=
  lowers_callWith (lowers_of_runs table args).2 h

/-- The address of a declared name and the load of its element shift. -/
theorem lowers_of_runs_resolved {table : FunctionTable} {id : NodeId} {name : String} {index : Term}
    {s s' : Scopes} {address : Address} {load : List Instruction}
    (h : Runs (resolved id name index (expression table index)) s (address, load) s') :
    s' = s ∧ ∃ frame v, s.find? name = some (frame, v) ∧ v.isArray = (!index.isAbsent) ∧
      address = frame.address v ∧ Lowers table .shift s index load := by
  obtain ⟨frame, v, hfind, harray, rfl, hload⟩ := runs_resolved.mp h
  obtain ⟨rfl, hlowers⟩ := lowers_loadShift (lowers_of_runs table index).1 hload
  exact ⟨rfl, frame, v, hfind, harray, rfl, hlowers⟩

end Lowering

end StackCompiler
