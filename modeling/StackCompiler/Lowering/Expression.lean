import StackCompiler.Lowering.Basic

/-!
# Lowering of expressions

The code of an expression leaves one value on the evaluation stack. Operands come first, left to
right, then the operator; nothing is skipped. An operand in memory is addressed through `hx`, which
is loaded right before the instruction that uses it.

The arguments of a call are staged in slots at the end of the caller's frame, where the frame of the
callee starts, so that each argument lies where the callee has its parameter.
-/
namespace StackCompiler

namespace Instruction

/-- Passes control to `callee`, whose frame starts `size` slots above `base`, and pushes its result.
-/
def callSequence (base : Register) (size : Nat) (callee : String) : List Instruction :=
  [.push (.register base), .push (.number (.ofNat size)), .plain .add, .pop (some (.register .bx)),
    .transfer .call callee, .push (.register .ax), .push (.register .bx),
    .push (.number (.ofNat size)), .plain .sub, .pop (some (.register .bx))]

end Instruction

namespace Lowering

open Instruction

/-- Loads the element shift of an operand: the value of its index, which `code` gives, or zero
without one. -/
def loadShift (index : Term) (code : Lowering (List Instruction)) :
    Lowering (List Instruction) := do
  let value ← if index.isAbsent then pure [.push (.number (.ofNat 0))] else code
  return value ++ [.pop (some (.register .hx))]

/-- The address and the load of the element shift for a name that has to be declared. -/
def resolved (id : NodeId) (name : String) (index : Term) (code : Lowering (List Instruction)) :
    Lowering (Address × List Instruction) := do
  match (← scopes).find? name with
  | none => throw (.unresolvedVariable id name)
  | some (frame, v) =>
    let address ← Scopes.addressOf frame v id !index.isAbsent
    let load ← loadShift index code
    return (address, load)

/-- Reserves the next slot of the current frame for an argument. -/
def stage : Lowering Address := do
  let (slot, frame) := (← current).stage
  setCurrent frame
  return frame.slot slot

def release : Nat → Lowering Unit
  | 0 => pure ()
  | count + 1 => do
    if let some (_, frame) := (← current).release then setCurrent frame
    release count

/-- A call whose arguments `args` are staged by `staging`. They are lowered only if the call fits
its callee, and their slots are free again when control is passed. -/
def callWith (table : FunctionTable) (id : NodeId) (callee args : Term)
    (staging : Lowering (List Instruction)) : Lowering (List Instruction) := do
  let f ← table.resolve id callee
  let count := (← args.elements .param).length
  if count ≠ f.arity then throw (.arityMismatch id f.name f.arity count)
  let staged ← staging
  release count
  let frame ← current
  emit (.call f.name frame.size frame.base)
  return staged ++ callSequence frame.base frame.size f.name

mutual

/-- The code of an expression. There is none for one that is absent. -/
def expression (table : FunctionTable) : Term → Lowering (List Instruction)
  | .absent => pure []
  | .dangling id => throw (.unexpectedNode id "expression")
  | .node _ (.number value) _ _ => pure [.push (.number value)]
  | .node id (.ident name) _ index => do
    let (address, load) ← resolved id name index (expression table index)
    return load ++ [.push (.memory address)]
  | .node id (.keyword tag) left right =>
    if tag = .call then callWith table id left right (arguments table right)
    else
      match tag.arity?, tag.operation? with
      | some .binary, some operation => do
        left.require id "left operand"
        let a ← expression table left
        right.require id "right operand"
        let b ← expression table right
        return a ++ b ++ [.plain operation]
      | some .unary, some operation => do
        right.require id "operand"
        let a ← expression table right
        return a ++ [.plain operation]
      | some .nullary, some operation => do
        let a ← expression table right
        return a ++ [.plain operation]
      | _, _ => throw (.unexpectedNode id "expression")

/-- The code that stages the arguments of a chain and leaves their slots reserved. -/
def arguments (table : FunctionTable) : Term → Lowering (List Instruction)
  | .node _ _ before argument => do
    let staged ← arguments table before
    let value ← expression table argument
    let slot ← stage
    return staged ++ value ++ [.pop (some (.memory slot))]
  | _ => pure []

end

/-- The code of a call, its result left on the evaluation stack. -/
def call (table : FunctionTable) (t : Term) : Lowering (List Instruction) :=
  callWith table t.id t.left t.right (arguments table t.right)

end Lowering

end StackCompiler
