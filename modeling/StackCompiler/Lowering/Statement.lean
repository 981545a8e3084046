import StackCompiler.Lowering.Expression

/-!
# Lowering of statements

A statement leaves the evaluation stack as it was. It may declare variables in the current frame.
Labels carry the position of their statement and so belong to it alone.
-/
namespace StackCompiler.Lowering

open Instruction

/-- The address of an assignment's target and the load of its element shift. A name that is new is
declared in the current frame, and its first element is meant. -/
def target (table : FunctionTable) (t : Term) : Lowering (Address × List Instruction) := do
  let name ← t.expectIdent
  if ((← scopes).find? name).isSome then resolved t.id name t.right (expression table t.right)
  else
    let (v, frame) ← (← current).declare t
    setCurrent frame
    return (frame.address v, [.push (.number (.ofNat 0)), .pop (some (.register .hx))])

/-- The value first, then the target. -/
def assignment (table : FunctionTable) (id : NodeId) (left right : Term) : Lowering Code := do
  left.require id "assignment target"
  right.require id "assigned value"
  let value ← expression table right
  let (address, load) ← target table left
  return .ofInstructions (value ++ load ++ [.pop (some (.memory address))])

/-- Pushes the address of the shown variable, then the value to show with it. -/
def display (table : FunctionTable) (id : NodeId) (left right : Term) : Lowering Code := do
  left.require id "shown variable"
  let name ← left.expectIdent
  let (address, load) ← resolved left.id name left.right (expression table left.right)
  right.require id "shown value"
  let value ← expression table right
  return .ofInstructions (load ++ [.push (.address address)] ++ value ++ [.plain .shw])

/-- A statement that evaluates its right child and then runs `rest`. -/
def evaluated (table : FunctionTable) (id : NodeId) (right : Term) (what : String)
    (rest : List Instruction) : Lowering Code := do
  right.require id what
  let value ← expression table right
  return .ofInstructions (value ++ rest)

/-- Goes to `label` if the condition is zero. -/
def test (condition : List Instruction) (label : String) : Code :=
  .ofInstructions (condition ++ [.push (.number (.ofNat 0)), .transfer .jumpEq label])

def conditional (id : NodeId) (condition : List Instruction) (thenCode : Code)
    (elseCode : Option Code) : Code :=
  let fail := id.label "if_fail"
  let finish := id.label "if_end"
  let branches := match elseCode with
    | some elseCode =>
      thenCode ++ .ofInstructions [.transfer .jump finish] ++ .label fail ++ elseCode ++
        .label finish
    | none => thenCode ++ .label fail
  .comment "IF" ++ Code.indented (test condition fail ++ branches)

def loop (id : NodeId) (condition : List Instruction) (body : Code) : Code :=
  let top := id.label "while"
  let finish := id.label "while_end"
  .comment "WHILE" ++ .label top ++
    Code.indented (test condition finish ++ body ++ .ofInstructions [.transfer .jump top]) ++
    .label finish

mutual

def statement (table : FunctionTable) : Term → Lowering Code
  | .absent => pure []
  | .dangling id => throw (.unexpectedNode id "statement")
  | .node id (.keyword .assign) left right => assignment table id left right
  | .node id (.keyword .ifThen) condition decision => do
    condition.require id "condition"
    decision.require id "branches"
    match decision with
    | .node decisionId (.keyword .decision) thenPart elsePart => do
      thenPart.require decisionId "then branch"
      let condition ← expression table condition
      let _ ← thenPart.elements .stmt
      let thenCode ← statements table thenPart
      if elsePart.isAbsent then return conditional id condition thenCode none
      else
        let _ ← elsePart.elements .stmt
        let elseCode ← statements table elsePart
        return conditional id condition thenCode (some elseCode)
    | other => throw (.unexpectedNode other.id (Term.quotedKeyword .decision))
  | .node id (.keyword .whileLoop) condition body => do
    condition.require id "condition"
    body.require id "loop body"
    let condition ← expression table condition
    let _ ← body.elements .stmt
    let body ← statements table body
    return loop id condition body
  | .node id (.keyword .ret) _ right =>
    evaluated table id right "return value" [.pop (some (.register .ax)), .plain .ret]
  | .node id (.keyword .display) left right => display table id left right
  | .node id (.keyword .out) _ right => evaluated table id right "output value" [.plain .out]
  | .node id (.keyword .call) callee args => do
    let call ← callWith table id callee args (arguments table args)
    return .ofInstructions (call ++ [.pop none])
  | .node id (.keyword .define) _ _ => throw (.nestedDefine id)
  | .node id _ _ _ => throw (.unexpectedNode id "statement")

/-- The code of a chain of statements, which is known to be one. -/
def statements (table : FunctionTable) : Term → Lowering Code
  | .node _ _ before last => do
    let code ← statements table before
    let lastCode ← statement table last
    return code ++ lastCode
  | _ => pure []

end

theorem statement_conditional_other {table : FunctionTable} {id : NodeId}
    {condition decision : Term} (h : decision.keyword? ≠ some .decision) :
    statement table (.node id (.keyword .ifThen) condition decision) = (do
      condition.require id "condition"
      decision.require id "branches"
      throw (.unexpectedNode decision.id (Term.quotedKeyword .decision))) := by
  rw [statement.eq_def]
  dsimp only
  split
  · exact absurd rfl h
  · rfl

/-- The code of a chain of statements. Its links are checked before any statement is lowered. -/
def block (table : FunctionTable) (t : Term) : Lowering Code := do
  let _ ← t.elements .stmt
  statements table t

/-- Declares parameters, which are plain variables and do not hide a global. -/
def parameters : List Term → Lowering Unit
  | [] => pure ()
  | t :: rest => do
    let name ← t.expectIdent
    if !t.right.isAbsent then throw (.invalidDeclaration t.id name)
    if ((← scopes).globals.find? name).isSome then throw (.duplicateVariable t.id name)
    let (_, frame) ← (← current).declare t
    setCurrent frame
    parameters rest

/-- The code of a function under its label, and its final frame. The parameters take the first
slots. -/
def definition (table : FunctionTable) (f : Function) : Lowering (Code × Frame) := do
  f.body.require f.node "function body"
  let (code, frame) ← withLocals do
    parameters f.params
    block table f.body
  emit (.locals f.name frame)
  return (.label f.name ++ Code.indented code, frame)

/-- Lowers a function by itself over the given globals. -/
def function (table : FunctionTable) (globals : Frame) (f : Function) : Lowered (Code × Frame) :=
  definition table f ⟨globals, none⟩

end StackCompiler.Lowering
