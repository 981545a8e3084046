import StackCompiler.Proofs.CallFrames
import StackCompiler.Proofs.StackShape
import StackCompiler.Proofs.Addressing

/-!
# What the code of an expression leaves on the stack

Each mnemonic makes the evaluation stack higher or lower by a fixed number of values; a call counts
for nothing, since a function leaves the stack as it finds it. The effects of the instructions of a
piece of code add up to its height.

The code of an expression never takes a value that was on the stack before it. It leaves its own
value, and below that one more value for each `in` it evaluates that has a child: the child is
evaluated, and nothing takes its value.
-/
namespace StackCompiler

/-- By how many values an operation makes the evaluation stack higher. -/
def Operation.effect : Operation → Int
  | .add | .sub | .mul | .div | .pow | .eq | .neq | .above | .below | .aboveEq | .belowEq | .and
  | .or => -1
  | .not | .sin | .cos | .int | .ret | .halt => 0
  | .input => 1
  | .out => -1
  | .shw => -2

def Mnemonic.effect : Mnemonic → Int
  | .push => 1
  | .pop => -1
  | .transfer .jumpEq => -2
  | .transfer _ => 0
  | .plain operation => operation.effect

theorem Operation.effect_of_isUnary {operation : Operation} (h : operation.isUnary = true) :
    operation.effect = 0 := by
  cases operation <;> first | rfl | cases h

theorem Operation.effect_of_isBinary {operation : Operation} (h : operation.isBinary = true) :
    operation.effect = -1 := by
  cases operation <;> first | rfl | cases h

/-- A step of the machine changes the height of its stack by the effect of the mnemonic. -/
theorem Machine.Step.length_stack {m : Machine} {code rest : List Item} {i : Instruction}
    {σ : List m.Value} {ρ : Register → m.Value} {w : World m} {κ : List (List Item)}
    {next : m.State} (h : m.Step code ⟨.instruction i :: rest, σ, ρ, w, κ⟩ next) :
    (next.stack.length : Int) = σ.length + i.mnemonic.effect := by
  cases h with
  | unary hoperation _ =>
    simp [Instruction.mnemonic, Mnemonic.effect, Operation.effect_of_isUnary hoperation]
  | binary hoperation _ =>
    simp only [Instruction.mnemonic, Mnemonic.effect, Operation.effect_of_isBinary hoperation,
      List.length_cons]
    omega
  | _ => simp [Instruction.mnemonic, Mnemonic.effect, Operation.effect] <;> omega

namespace Instruction

/-- No instruction lowers the stack by more than it takes. -/
theorem neg_pops_le_effect (i : Instruction) : -(i.pops : Int) ≤ i.mnemonic.effect := by
  cases i with
  | push operand => simp [pops, mnemonic, Mnemonic.effect]
  | pop operand => simp [pops, mnemonic, Mnemonic.effect]
  | transfer kind label => cases kind <;> simp [pops, mnemonic, Mnemonic.effect]
  | plain operation => cases operation <;> decide

/-- By how many values a piece of code makes the evaluation stack higher. -/
def height : List Instruction → Int
  | [] => 0
  | i :: code => i.mnemonic.effect + height code

theorem height_append (a b : List Instruction) : height (a ++ b) = height a + height b := by
  induction a with
  | nil => exact (Int.zero_add _).symm
  | cons i a ih =>
    simp only [List.cons_append, height, ih]
    omega

theorem height_push (operand : Operand) : height [.push operand] = 1 := rfl

theorem height_pop (operand : Option Operand) : height [.pop operand] = -1 := rfl

theorem height_plain (operation : Operation) : height [.plain operation] = operation.effect := by
  simp [height, mnemonic, Mnemonic.effect]

theorem height_callSequence (base : Register) (size : Nat) (callee : String) :
    height (callSequence base size callee) = 1 := by
  rfl

/-- From `n` values on, each instruction of the code finds the values that it takes. -/
def Supplied : Int → List Instruction → Prop
  | _, [] => True
  | n, i :: rest => i.pops ≤ n ∧ Supplied (n + i.mnemonic.effect) rest

theorem supplied_append {n : Int} {a b : List Instruction} :
    Supplied n (a ++ b) ↔ Supplied n a ∧ Supplied (n + height a) b := by
  induction a generalizing n with
  | nil => simp [Supplied, height]
  | cons i a ih => simp [Supplied, height, ih, and_assoc, Int.add_assoc]

theorem supplied_singleton {n : Int} {i : Instruction} : Supplied n [i] ↔ i.pops ≤ n := by
  simp [Supplied]

theorem Supplied.mono {n m : Int} {code : List Instruction} (h : Supplied n code) (hle : n ≤ m) :
    Supplied m code := by
  induction code generalizing n m with
  | nil => trivial
  | cons i code ih => exact ⟨Int.le_trans h.1 hle, ih h.2 (by omega)⟩

theorem Supplied.append {a b : List Instruction} (ha : Supplied 0 a) (hb : Supplied 0 b)
    (h : 0 ≤ height a) : Supplied 0 (a ++ b) :=
  supplied_append.mpr ⟨ha, hb.mono (by omega)⟩

theorem Supplied.concat {a : List Instruction} {i : Instruction} (ha : Supplied 0 a)
    (h : i.pops ≤ height a) : Supplied 0 (a ++ [i]) :=
  supplied_append.mpr ⟨ha, supplied_singleton.mpr (by omega)⟩

theorem supplied_callSequence (base : Register) (size : Nat) (callee : String) :
    Supplied 0 (callSequence base size callee) := by
  simp [Supplied, callSequence, pops, mnemonic, Mnemonic.effect,
    Operation.effect, Operation.pops, Operation.isBinary]

/-- Code that finds all its values never goes below the values that were there before it. -/
theorem Supplied.height_nonneg {n : Int} {code before : List Instruction} (h : Supplied n code)
    (hn : 0 ≤ n) (hbefore : before <+: code) : 0 ≤ n + height before := by
  induction before generalizing n code with
  | nil => simpa [height] using hn
  | cons i before ih =>
    cases code with
    | nil => simp at hbefore
    | cons j code =>
      obtain ⟨rfl, htail⟩ := List.cons_prefix_cons.mp hbefore
      have hnext : 0 ≤ n + i.mnemonic.effect := by
        have heffect := i.neg_pops_le_effect
        have hpops := h.1
        omega
      have hrest := ih h.2 hnext htail
      rw [height]
      omega

end Instruction

namespace Term

/-- The parts of an expression, itself among them, that are evaluated. The name of a callee is not,
nor is the left child of an operator that does not take it. -/
def evaluated : Term → List Term
  | .node id (.ident name) left index => index.evaluated ++ [.node id (.ident name) left index]
  | .node id (.keyword tag) left right =>
    (if evaluatesLeft tag then left.evaluated else []) ++ right.evaluated ++
      [.node id (.keyword tag) left right]
  | .node id (.number n) left right => [.node id (.number n) left right]
  | _ => []

/-- An `in` with a child that it does not take. -/
def isLoadedInput (t : Term) : Bool :=
  t.keyword? = some .input && !t.right.isAbsent

/-- How many values an expression leaves on the stack below its own. -/
def surplus (t : Term) : Nat :=
  t.evaluated.countP isLoadedInput

theorem surplus_eq_zero_iff {t : Term} :
    t.surplus = 0 ↔ ∀ u ∈ t.evaluated, u.keyword? = some .input → u.right.isAbsent = true := by
  simp [surplus, List.countP_eq_zero, isLoadedInput]

theorem surplus_ident (id : NodeId) (name : String) (left index : Term) :
    (Term.node id (.ident name) left index).surplus = index.surplus := by
  simp [surplus, evaluated, List.countP_append, isLoadedInput, keyword?]

theorem surplus_keyword {id : NodeId} {tag : Keyword} {left right : Term} (htag : tag ≠ .input) :
    (Term.node id (.keyword tag) left right).surplus =
      (if evaluatesLeft tag then left.surplus else 0) + right.surplus := by
  simp only [surplus, evaluated, List.countP_append]
  split_ifs <;> simp [isLoadedInput, keyword?, htag]

theorem surplus_call (id : NodeId) (callee args : Term) :
    (Term.node id (.keyword .call) callee args).surplus = args.surplus := by
  rw [surplus_keyword (by decide)]
  exact Nat.zero_add _

theorem surplus_param (id : NodeId) (before last : Term) :
    (Term.node id (.keyword .param) before last).surplus = before.surplus + last.surplus :=
  surplus_keyword (by decide)

theorem surplus_binary {id : NodeId} {tag : Keyword} {operation : Operation} {left right : Term}
    (h : tag.meaning? = some (.binary operation)) :
    (Term.node id (.keyword tag) left right).surplus = left.surplus + right.surplus := by
  rw [surplus_keyword (by rintro rfl; cases h)]
  cases tag <;> cases h <;> rfl

theorem surplus_unary {id : NodeId} {tag : Keyword} {operation : Operation} {left right : Term}
    (h : tag.meaning? = some (.unary operation)) :
    (Term.node id (.keyword tag) left right).surplus = right.surplus := by
  rw [surplus_keyword (by rintro rfl; cases h)]
  cases tag <;> cases h <;> exact Nat.zero_add _

theorem surplus_input {id : NodeId} {left right : Term} (h : right.isAbsent = false) :
    (Term.node id (.keyword .input) left right).surplus = right.surplus + 1 := by
  have hloaded : (Term.node id (.keyword .input) left right).isLoadedInput = true := by
    simp [isLoadedInput, keyword?, Term.right, h]
  have hleft : evaluatesLeft .input = false := rfl
  simp only [surplus, evaluated, hleft, List.countP_append]
  simp [hloaded]

end Term

namespace Lowering

open Instruction

variable {table : FunctionTable}

/-- How many values code in its role is meant to leave on the stack. -/
def Role.values : Role → Nat
  | .value => 1
  | .shift => 0
  | .staging => 0

theorem Lowers.isAbsent_eq {s : Scopes} {t : Term} {code : List Instruction}
    (h : Lowers table .value s t code) : t.isAbsent = false := by
  cases h <;> rfl

/-- Code leaves what its role asks for, and the values that nothing takes. -/
theorem Lowers.height_eq {role : Role} {s : Scopes} {t : Term} {code : List Instruction}
    (h : Lowers table role s t code) : height code = role.values + t.surplus := by
  induction h with
  | number => rfl
  | read _ _ _ ih =>
    rw [height_append, ih, height_push, Term.surplus_ident]
    simp only [Role.values]
    omega
  | call _ _ _ ih =>
    rw [height_append, ih, height_callSequence, Term.surplus_call]
    simp only [Role.values]
    omega
  | binary hmeaning _ _ iha ihb =>
    have heffect := Operation.effect_of_isBinary (Keyword.isBinary_of_meaning hmeaning)
    rw [height_append, height_append, iha, ihb, height_plain, heffect, Term.surplus_binary hmeaning]
    simp only [Role.values]
    omega
  | unary hmeaning _ ih =>
    have heffect := Operation.effect_of_isUnary (Keyword.isUnary_of_meaning hmeaning)
    rw [height_append, ih, height_plain, heffect, Term.surplus_unary hmeaning]
    simp only [Role.values]
    omega
  | input => rfl
  | surplus hoperand ih =>
    rw [height_append, ih, height_plain, Term.surplus_input hoperand.isAbsent_eq]
    simp only [Role.values, Operation.effect]
    omega
  | zero => rfl
  | index _ ih =>
    rw [height_append, ih, height_pop]
    simp only [Role.values]
    omega
  | nothing => rfl
  | argument _ _ ihs ihv =>
    rw [height_append, height_append, ihs, ihv, height_pop, Term.surplus_param]
    simp only [Role.values]
    omega

theorem Lowers.values_le_height {role : Role} {s : Scopes} {t : Term} {code : List Instruction}
    (h : Lowers table role s t code) : role.values ≤ height code := by
  rw [h.height_eq]
  omega

/-- Code takes only values that it has left on the stack itself. -/
theorem Lowers.supplied {role : Role} {s : Scopes} {t : Term} {code : List Instruction}
    (h : Lowers table role s t code) : Supplied 0 code := by
  induction h with
  | number => exact supplied_singleton.mpr (Int.le_refl 0)
  | read _ _ hload ih => exact ih.concat hload.values_le_height
  | call _ _ hstaged ih => exact ih.append (supplied_callSequence _ _ _) hstaged.values_le_height
  | binary hmeaning ha hb iha ihb =>
    have hone := ha.values_le_height
    have htwo := hb.values_le_height
    have hpops := Operation.pops_of_isBinary (Keyword.isBinary_of_meaning hmeaning)
    simp only [Role.values] at hone htwo
    apply (iha.append ihb (by omega)).concat
    rw [height_append, pops, hpops]
    omega
  | unary hmeaning ha ih =>
    have hpops := Operation.pops_of_isUnary (Keyword.isUnary_of_meaning hmeaning)
    apply ih.concat
    rw [pops, hpops]
    exact ha.values_le_height
  | input => exact supplied_singleton.mpr (Int.le_refl 0)
  | surplus ha ih =>
    exact ih.concat (Int.le_trans (by decide) ha.values_le_height)
  | zero => exact ⟨Int.le_refl 0, Int.le_refl 1, trivial⟩
  | index hvalue ih => exact ih.concat hvalue.values_le_height
  | nothing => trivial
  | argument hstaged hvalue ihs ihv =>
    have hnone := hstaged.values_le_height
    have hone := hvalue.values_le_height
    simp only [Role.values] at hnone hone
    apply (ihs.append ihv hnone).concat
    rw [height_append, pops]
    omega

/-- An expression leaves one value and those that nothing takes: it leaves exactly one if no `in`
that it evaluates has a child. In no case does its code reach below the values that were there
before. -/
theorem expression_leaves_one_value_iff (table : FunctionTable) (s s' : Scopes) (t : Term)
    (code : List Instruction) (h : Runs (expression table t) s code s') (ht : t.isAbsent = false) :
    Supplied 0 code ∧ (∀ before, before <+: code → 0 ≤ height before) ∧
      height code = 1 + t.surplus ∧
      (height code = 1 ↔
        ∀ u ∈ t.evaluated, u.keyword? = some .input → u.right.isAbsent = true) := by
  obtain ⟨-, hlowers⟩ := lowers_of_runs_expression h ht
  have hheight : height code = 1 + t.surplus := hlowers.height_eq
  refine ⟨hlowers.supplied, ?_, hheight, ?_⟩
  · intro before hbefore
    have hfloor := hlowers.supplied.height_nonneg (Int.le_refl 0) hbefore
    rwa [Int.zero_add] at hfloor
  · rw [← Term.surplus_eq_zero_iff, hheight]
    omega

/-- Two calls, one in the other, leave one value. -/
theorem expression_leaves_one_value_iff_nested :
    let s : Scopes := ⟨.empty .cx, some ⟨.bx, [⟨"a", 0, 0, none⟩, ⟨"b", 1, 1, none⟩], 2, 0⟩⟩
    ∃ code, Runs (expression Program.countdown.functions nestedCall) s code s ∧
      height code = 1 := by
  intro s
  let store : Instruction := .pop (some (.memory ⟨.bx, 2, none⟩))
  let code := [.push (.number (.ofNat 3)), store] ++ callSequence .bx 2 "count" ++ [store] ++
    callSequence .bx 2 "count"
  have hruns : Runs (expression Program.countdown.functions nestedCall) s code s :=
    ⟨by decide +kernel, by decide +kernel⟩
  obtain ⟨-, -, -, hone⟩ := expression_leaves_one_value_iff _ s s nestedCall code hruns rfl
  exact ⟨code, hruns, hone.mpr (by decide +kernel)⟩

/-- The number in `in 1` stays on the stack below what is read. -/
theorem input_leaves_two_values :
    let one : Term := .node 0 (.number (.ofNat 1)) .absent .absent
    let code := [.push (.number (.ofNat 1)), .plain .input]
    Runs (expression [] (.node 1 (.keyword .input) .absent one)) ⟨.empty .cx, none⟩ code
        ⟨.empty .cx, none⟩ ∧
      height code = 2 := by
  exact ⟨⟨by decide +kernel, by decide +kernel⟩, rfl⟩

end Lowering

end StackCompiler
