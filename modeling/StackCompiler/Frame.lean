import StackCompiler.Arena.Term

/-!
# Frames

The layout of the variables of one function, or of the globals, relative to a base register. A
variable takes the slots at the end of the frame when it is declared. Above the variables, slots for
the arguments of a call under preparation can be reserved and released again.
-/
namespace StackCompiler

structure Variable where
  name : String
  /-- The identifier that declares it. -/
  node : NodeId
  shift : Nat
  /-- The number of elements of an array. -/
  length : Option Nat
  deriving DecidableEq, Repr

namespace Variable

def isArray (v : Variable) : Bool :=
  v.length.isSome

def size (v : Variable) : Nat :=
  v.length.getD 1

end Variable

structure Frame where
  base : Register
  /-- In order of declaration. -/
  declared : List Variable
  /-- All slots in use, the reserved ones among them. -/
  size : Nat
  /-- How many slots are reserved for arguments. -/
  staged : Nat
  deriving DecidableEq, Repr

namespace Frame

def maxSize : Nat := 2147483647

def empty (base : Register) : Frame :=
  ⟨base, [], 0, 0⟩

def find? (f : Frame) (name : String) : Option Variable :=
  f.declared.find? (·.name == name)

/-- The length that the index of a declaration gives: a literal whole number of at least one. -/
def lengthOf? (index : Term) : Option (Option Nat) :=
  if index.isAbsent then some none
  else
    match index.number?.bind Number.toNat? with
    | some n => if 1 ≤ n ∧ n ≤ maxSize then some (some n) else none
    | none => none

/-- Declares the identifier `t`: `a` takes one slot, `a[n]` takes `n`. -/
def declare (f : Frame) (t : Term) : Except CompileError (Variable × Frame) := do
  let name ← t.expectIdent
  if (f.find? name).isSome then throw (.duplicateVariable t.id name)
  match lengthOf? t.right with
  | none => throw (.invalidDeclaration t.id name)
  | some length =>
    let v : Variable := ⟨name, t.id, f.size, length⟩
    if maxSize < f.size + v.size then throw (.invalidDeclaration t.id name)
    return (v, { f with declared := f.declared ++ [v], size := f.size + v.size })

def stage (f : Frame) : Nat × Frame :=
  (f.size, { f with size := f.size + 1, staged := f.staged + 1 })

/-- Releases the slot at the end, if any is reserved. -/
def release (f : Frame) : Option (Nat × Frame) :=
  if f.staged = 0 then none
  else some (f.size - 1, { f with size := f.size - 1, staged := f.staged - 1 })

/-- The slot that was reserved last is released first, and the frame is then as it was. -/
@[simp] theorem release_stage (f : Frame) : f.stage.2.release = some (f.stage.1, f) := by
  simp [stage, release]

/-- The address of an element of `v`, its index in `hx`. -/
def address (f : Frame) (v : Variable) : Address :=
  ⟨f.base, v.shift, some .hx⟩

def slot (f : Frame) (n : Nat) : Address :=
  ⟨f.base, n, none⟩

def variableText (v : Variable) : String :=
  "  " ++ v.name ++ " @ " ++ toString v.shift ++
    (match v.length with
      | some n => " [" ++ toString n ++ "]"
      | none => "") ++ "\n"

def text (f : Frame) : String :=
  "scope " ++ f.base.name ++ " (size " ++ toString f.size ++ ")\n" ++
    String.join (f.declared.map variableText)

end Frame

end StackCompiler
