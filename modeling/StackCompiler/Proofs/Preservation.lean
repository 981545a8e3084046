import StackCompiler.Proofs.Blocks
import StackCompiler.Proofs.Semantics

/-!
# Compiled code does what its source means

A finished evaluation of a term is followed by the machine on the code of the term, with the same
memory, input and output, whatever lies on the evaluation stack and the return stack. The frame
bases stay as they are; the register of the element shift is loaded anew for each access, so that
nested indices do not disturb each other.
-/
namespace StackCompiler

namespace Machine

variable {m : Machine} {code : List Item}

/-- Registers with the frame bases of others. -/
def SameBases (ρ ρ₀ : Register → m.Value) : Prop :=
  ρ .bx = ρ₀ .bx ∧ ρ .cx = ρ₀ .cx

theorem SameBases.update {ρ ρ₀ : Register → m.Value} (h : SameBases ρ ρ₀) {r : Register}
    (hr : r = .ax ∨ r = .hx) (v : m.Value) : SameBases (Function.update ρ r v) ρ₀ := by
  rcases hr with rfl | rfl <;> simpa [SameBases] using h

end Machine

namespace Lowering

open Instruction Machine

/-- Tables in which the bases are those of the globals and of the running function. -/
def BasesOf (tables : Scopes) : Prop :=
  ∀ name frame v, tables.find? name = some (frame, v) → frame.base = .bx ∨ frame.base = .cx

variable {table : FunctionTable} {m : Machine} {tables : Scopes} {ρ₀ : Register → m.Value}
  {code : List Item}

/-- Where the tables extend the scopes, an address in the scopes is the place in the tables. -/
theorem cellOf_address (htables : BasesOf tables) {s : Scopes} (hs : s.Extends tables)
    {name : String}
    {frame frame' : Frame} {v v' : Variable} (hfind : s.find? name = some (frame, v))
    (hfind' : tables.find? name = some (frame', v')) {ρ : Register → m.Value}
    (hρ : SameBases ρ ρ₀) {i : m.Value} (hi : ρ .hx = i) :
    m.cellOf ρ (frame.address v) = m.place ρ₀ frame' v' i := by
  obtain ⟨frame'', hlater, hbase⟩ := hs.find? hfind
  rw [hlater, Option.some_inj, Prod.mk.injEq] at hfind'
  obtain ⟨rfl, rfl⟩ := hfind'
  have hsame : ρ frame''.base = ρ₀ frame''.base := by
    rcases htables name frame'' v hlater with h | h <;> rw [h]
    · exact hρ.1
    · exact hρ.2
  rw [Machine.cellOf, Machine.place, ← hsame, ← hi, hbase]
  rfl

theorem reaches_loadZero {rest : List Item} {σ : List m.Value} {ρ : Register → m.Value}
    {w : World m} {κ : List (List Item)} :
    m.Reaches code
      ⟨[.push (.number (.ofNat 0)), .pop (some (.register .hx))].map .instruction ++ rest,
        σ, ρ, w, κ⟩
      ⟨rest, σ, Function.update ρ .hx m.zero, w, κ⟩ :=
  Step.push.andThen Step.popRegister.reaches

theorem Lowers.unary_inv {s : Scopes} {id : NodeId} {tag : Keyword} {operation : Operation}
    {left right : Term} {is : List Instruction}
    (h : Lowers table .value s (.node id (.keyword tag) left right) is)
    (hmeaning : tag.meaning? = some (.unary operation)) :
    ∃ a, Lowers table .value s right a ∧ is = a ++ [.plain operation] := by
  cases h with
  | call => cases hmeaning
  | binary hmeaning' => simp [hmeaning'] at hmeaning
  | unary hmeaning' hvalue =>
    simp only [hmeaning', Option.some.injEq, Operator.unary.injEq] at hmeaning
    exact ⟨_, hvalue, by rw [hmeaning]⟩
  | input => cases hmeaning
  | surplus => cases hmeaning

theorem Lowers.binary_inv {s : Scopes} {id : NodeId} {tag : Keyword} {operation : Operation}
    {left right : Term} {is : List Instruction}
    (h : Lowers table .value s (.node id (.keyword tag) left right) is)
    (hmeaning : tag.meaning? = some (.binary operation)) :
    ∃ a b, Lowers table .value s left a ∧ Lowers table .value s right b ∧
      is = a ++ b ++ [.plain operation] := by
  cases h with
  | call => cases hmeaning
  | binary hmeaning' ha hb =>
    simp only [hmeaning', Option.some.injEq, Operator.binary.injEq] at hmeaning
    exact ⟨_, _, ha, hb, by rw [hmeaning]⟩
  | unary hmeaning' => simp [hmeaning'] at hmeaning
  | input => cases hmeaning
  | surplus => cases hmeaning

theorem Lowers.input_inv {s : Scopes} {id : NodeId} {left : Term} {is : List Instruction}
    (h : Lowers table .value s (.node id (.keyword .input) left .absent) is) :
    is = [.plain .input] := by
  cases h with
  | binary hmeaning => cases hmeaning
  | unary hmeaning => cases hmeaning
  | input => rfl
  | surplus hvalue => cases hvalue

/-- Pushes the element of a variable that `hx` selects. -/
theorem step_read (htables : BasesOf tables) {s : Scopes} (hs : s.Extends tables) {name : String}
    {frame frame' : Frame} {v v' : Variable} (hfind : s.find? name = some (frame, v))
    (hfind' : tables.find? name = some (frame', v')) {ρ : Register → m.Value}
    (hρ : SameBases ρ ρ₀) {i : m.Value} (hi : ρ .hx = i) {rest : List Item} {σ : List m.Value}
    {w : World m} {κ : List (List Item)} :
    m.Step code ⟨.instruction (.push (.memory (frame.address v))) :: rest, σ, ρ, w, κ⟩
      ⟨rest, w.memory (m.place ρ₀ frame' v' i) :: σ, ρ, w, κ⟩ := by
  rw [← cellOf_address htables hs hfind hfind' hρ hi]
  exact Step.push

/-- The code of an expression pushes the value of the expression. -/
theorem Lowers.simulates (code : List Item) (htables : BasesOf tables) {s : Scopes}
    (hs : s.Extends tables) {t : Term} {is : List Instruction} {w w' : World m} {v : m.Value}
    (heval : Evaluates m tables ρ₀ t w v w') (h : Lowers table .value s t is) (rest : List Item)
    (σ : List m.Value) {ρ : Register → m.Value} (κ : List (List Item)) (hρ : SameBases ρ ρ₀) :
    ∃ ρ', SameBases ρ' ρ₀ ∧
      m.Reaches code ⟨is.map .instruction ++ rest, σ, ρ, w, κ⟩ ⟨rest, v :: σ, ρ', w', κ⟩ := by
  induction heval generalizing is rest σ ρ with
  | number =>
    cases h
    exact ⟨ρ, hρ, Step.push.reaches⟩
  | plain hfind' =>
    cases h with
    | read hfind _ hload =>
      cases hload with
      | zero =>
        have hρ' := hρ.update (.inr rfl) m.zero
        rw [List.map_append, List.append_assoc]
        exact ⟨_, hρ', reaches_loadZero.trans
          (step_read htables hs hfind hfind' hρ' (Function.update_self ..)).reaches⟩
      | index hvalue => cases hvalue
  | @element _ _ _ _ _ _ _ i _ hfind' heval ih =>
    cases h with
    | read hfind _ hload =>
      cases hload with
      | zero => cases heval
      | index hvalue =>
        rw [List.map_append, List.append_assoc, List.map_append, List.append_assoc]
        obtain ⟨ρ₁, hρ₁, hreach⟩ := ih hvalue _ σ hρ
        have hρ' := hρ₁.update (.inr rfl) i
        exact ⟨_, hρ', hreach.trans (Step.popRegister.andThen
          (step_read htables hs hfind hfind' hρ' (Function.update_self ..)).reaches)⟩
  | unary hmeaning _ hresult ih =>
    obtain ⟨a, ha, rfl⟩ := h.unary_inv hmeaning
    rw [List.map_append, List.append_assoc]
    obtain ⟨ρ', hρ', hreach⟩ := ih ha _ σ hρ
    exact ⟨ρ', hρ', hreach.trans (Step.unary (Keyword.isUnary_of_meaning hmeaning) hresult).reaches⟩
  | binary hmeaning _ _ hresult iha ihb =>
    obtain ⟨a, b, ha, hb, rfl⟩ := h.binary_inv hmeaning
    rw [List.map_append, List.append_assoc, List.map_append, List.append_assoc]
    obtain ⟨ρ₁, hρ₁, hreacha⟩ := iha ha _ σ hρ
    obtain ⟨ρ', hρ', hreachb⟩ := ihb hb _ _ hρ₁
    exact ⟨ρ', hρ', (hreacha.trans hreachb).trans
      (Step.binary (Keyword.isBinary_of_meaning hmeaning) hresult).reaches⟩
  | input =>
    obtain rfl := h.input_inv
    exact ⟨ρ, hρ, Step.input.reaches⟩

/-- The load of an element shift leaves the selected element in `hx`. -/
theorem Lowers.simulates_shift (code : List Item) (htables : BasesOf tables) {s : Scopes}
    (hs : s.Extends tables) {index : Term} {is : List Instruction} {w w' : World m} {i : m.Value}
    (hselects : Selects m tables ρ₀ index w i w') (h : Lowers table .shift s index is)
    (rest : List Item) (σ : List m.Value) {ρ : Register → m.Value} (κ : List (List Item))
    (hρ : SameBases ρ ρ₀) :
    ∃ ρ', SameBases ρ' ρ₀ ∧ ρ' .hx = i ∧
      m.Reaches code ⟨is.map .instruction ++ rest, σ, ρ, w, κ⟩ ⟨rest, σ, ρ', w', κ⟩ := by
  cases hselects with
  | first =>
    cases h with
    | zero => exact ⟨_, hρ.update (.inr rfl) _, Function.update_self .., reaches_loadZero⟩
    | index hvalue => cases hvalue
  | index heval =>
    cases h with
    | zero => cases heval
    | index hvalue =>
      rw [List.map_append, List.append_assoc]
      obtain ⟨ρ₁, hρ₁, hreach⟩ := hvalue.simulates code htables hs heval _ σ κ hρ
      exact ⟨_, hρ₁.update (.inr rfl) i, Function.update_self ..,
        hreach.trans Step.popRegister.reaches⟩

/-- The load for an assignment's target makes its address that of the cell to write. -/
theorem Targets.simulates (code : List Item) (htables : BasesOf tables) {s s' : Scopes}
    (hs : s'.Extends tables) {left : Term} (hforeign : Foreign s left) {address : Address}
    {load : List Instruction}
    {w w' : World m} {cell : m.Value} (hlocates : Locates m tables ρ₀ left w cell w')
    (h : Targets table s left address load s') (rest : List Item) (σ : List m.Value)
    {ρ : Register → m.Value} (κ : List (List Item)) (hρ : SameBases ρ ρ₀) :
    ∃ ρ', SameBases ρ' ρ₀ ∧ m.cellOf ρ' address = cell ∧
      m.Reaches code ⟨load.map .instruction ++ rest, σ, ρ, w, κ⟩ ⟨rest, σ, ρ', w', κ⟩ := by
  cases h with
  | declared hfind _ hload =>
    cases hlocates with
    | declaration hfind' hnode =>
      obtain ⟨_, hlater, -⟩ := hs.find? hfind
      rw [hlater, Option.some_inj, Prod.mk.injEq] at hfind'
      obtain ⟨-, rfl⟩ := hfind'
      exact absurd (by simp [Term.ids, hnode]) (hforeign _ (Scopes.mem_declared_of_find? hfind))
    | element hfind' _ hselects =>
      obtain ⟨ρ', hρ', hi, hreach⟩ := hload.simulates_shift code htables hs hselects rest σ κ hρ
      exact ⟨ρ', hρ', cellOf_address htables hs hfind hfind' hρ' hi, hreach⟩
  | fresh hnone hdeclare =>
    obtain ⟨hfind, hid⟩ := Scopes.find?_of_declare hnone hdeclare
    cases hlocates with
    | declaration hfind' _ =>
      have hρ' := hρ.update (.inr rfl) m.zero
      exact ⟨_, hρ', cellOf_address htables hs hfind hfind' hρ' (Function.update_self ..),
        reaches_loadZero⟩
    | element hfind' hnode _ =>
      obtain ⟨_, hlater, -⟩ := hs.find? hfind
      rw [hlater, Option.some_inj, Prod.mk.injEq] at hfind'
      obtain ⟨-, rfl⟩ := hfind'
      exact absurd hid hnode

/-- A test goes on behind it if the condition holds, and otherwise at its label. -/
theorem Lowers.simulates_test (code : List Item) (htables : BasesOf tables) {s : Scopes}
    (hs : s.Extends tables) {t : Term} {is : List Instruction} {w w' : World m} {v : m.Value}
    (heval : Evaluates m tables ρ₀ t w v w') (h : Lowers table .value s t is) (l : String)
    (rest : List Item) (σ : List m.Value) {ρ : Register → m.Value} (κ : List (List Item))
    (hρ : SameBases ρ ρ₀) :
    ∃ ρ', SameBases ρ' ρ₀ ∧
      (¬ m.equal v m.zero →
        m.Reaches code ⟨testCommands is l ++ rest, σ, ρ, w, κ⟩ ⟨rest, σ, ρ', w', κ⟩) ∧
      (m.equal v m.zero →
        m.Reaches code ⟨testCommands is l ++ rest, σ, ρ, w, κ⟩ ⟨seek l code, σ, ρ', w', κ⟩) := by
  obtain ⟨ρ', hρ', hreach⟩ := h.simulates code htables hs heval
    (.instruction (.push (.number (.ofNat 0))) :: .instruction (.transfer .jumpEq l) :: rest) σ κ hρ
  rw [testCommands, List.append_assoc]
  refine ⟨ρ', hρ', ?_, ?_⟩
  · intro hunequal
    exact hreach.trans (Step.push.andThen (Step.passUnequal hunequal).reaches)
  · intro hequal
    exact hreach.trans (Step.push.andThen (Step.jumpEqual hequal).reaches)

/-- Where control is when the code `block` of statements has ended: behind it, or at a `ret` inside
it with the value to return in `ax`. -/
def Ends (block rest : List Item) (ρ : Register → m.Value) : Outcome m.Value → List Item → Prop
  | .normal, r => r = rest
  | .returned v, r => ρ .ax = v ∧
      ∃ inner, (.instruction (.plain .ret) :: inner) <:+ block ∧
        r = .instruction (.plain .ret) :: inner ++ rest

/-- From `start` the machine gets to the end of `block` as the outcome tells, with nothing left on
the stacks and the frame bases as they were. -/
def Follows (code : List Item) (ρ₀ : Register → m.Value) (block rest start : List Item)
    (σ : List m.Value) (κ : List (List Item)) (ρ : Register → m.Value) (w : World m)
    (o : Outcome m.Value) (w' : World m) : Prop :=
  ∃ ρ' r, SameBases ρ' ρ₀ ∧ Ends block rest ρ' o r ∧
    m.Reaches code ⟨start, σ, ρ, w, κ⟩ ⟨r, σ, ρ', w', κ⟩

namespace Follows

variable {block rest start : List Item} {σ : List m.Value} {κ : List (List Item)}
  {ρ ρ₁ : Register → m.Value} {w w₁ w' : World m} {o : Outcome m.Value}

theorem after {start' : List Item}
    (hreach : m.Reaches code ⟨start', σ, ρ₁, w₁, κ⟩ ⟨start, σ, ρ, w, κ⟩)
    (h : Follows code ρ₀ block rest start σ κ ρ w o w') :
    Follows code ρ₀ block rest start' σ κ ρ₁ w₁ o w' := by
  obtain ⟨ρ', r, hρ', hends, hreach'⟩ := h
  exact ⟨ρ', r, hρ', hends, hreach.trans hreach'⟩

/-- What ends a part of a block ends the block, if control leaves the part for the end of the block.
-/
theorem leave {a b : List Item} (h : Follows code ρ₀ block (b ++ rest) start σ κ ρ w o w')
    (hleave : o = .normal →
      ∀ ρ', m.Reaches code ⟨b ++ rest, σ, ρ', w', κ⟩ ⟨rest, σ, ρ', w', κ⟩) :
    Follows code ρ₀ (a ++ (block ++ b)) rest start σ κ ρ w o w' := by
  obtain ⟨ρ', r, hρ', hends, hreach⟩ := h
  cases o with
  | normal =>
    obtain rfl : r = b ++ rest := hends
    exact ⟨ρ', rest, hρ', rfl, hreach.trans (hleave rfl ρ')⟩
  | returned v =>
    obtain ⟨hax, inner, hinner, rfl⟩ := hends
    refine ⟨ρ', _, hρ', ⟨hax, inner ++ b, ?_, ?_⟩, hreach⟩
    · obtain ⟨before, rfl⟩ := hinner
      exact ⟨a ++ before, by simp⟩
    · simp

theorem within (a : List Item) (h : Follows code ρ₀ block rest start σ κ ρ w o w') :
    Follows code ρ₀ (a ++ block) rest start σ κ ρ w o w' := by
  have hleave := leave (a := a) (b := []) h fun _ _ => .refl _
  rwa [List.append_nil] at hleave

end Follows

section Statements

variable {s s' : Scopes} {rest : List Item} {σ : List m.Value} {κ : List (List Item)}
  {ρ : Register → m.Value} {w w₁ w₂ : World m} {v : m.Value}

theorem follows_assign (htables : BasesOf tables) (hs : s'.Extends tables) {left right : Term}
    {value load : List Instruction} {address : Address} {cell : m.Value}
    (hvalue : Lowers table .value s right value) (htarget : Targets table s left address load s')
    (hforeign : Foreign s left) (heval : Evaluates m tables ρ₀ right w v w₁)
    (hlocates : Locates m tables ρ₀ left w₁ cell w₂) (hρ : SameBases ρ ρ₀) :
    Follows code ρ₀
      (Code.ofInstructions (value ++ load ++ [.pop (some (.memory address))])).commands rest
      ((Code.ofInstructions (value ++ load ++ [.pop (some (.memory address))])).commands ++ rest)
      σ κ ρ w .normal
      (w₂.store cell v) := by
  simp only [Code.commands_ofInstructions, List.map_append, List.append_assoc]
  obtain ⟨ρ₁, hρ₁, hreach₁⟩ :=
    hvalue.simulates code htables (htarget.extends.trans hs) heval _ σ κ hρ
  obtain ⟨ρ₂, hρ₂, rfl, hreach₂⟩ :=
    htarget.simulates code htables hs hforeign hlocates _ (v :: σ) κ hρ₁
  exact ⟨ρ₂, rest, hρ₂, rfl, hreach₁.trans (hreach₂.trans Step.popMemory.reaches)⟩

theorem follows_ret (htables : BasesOf tables) (hs : s.Extends tables) {right : Term}
    {value : List Instruction} (hvalue : Lowers table .value s right value)
    (heval : Evaluates m tables ρ₀ right w v w₁) (hρ : SameBases ρ ρ₀) :
    Follows code ρ₀
      (Code.ofInstructions (value ++ [.pop (some (.register .ax)), .plain .ret])).commands rest
      ((Code.ofInstructions (value ++ [.pop (some (.register .ax)), .plain .ret])).commands ++ rest)
      σ κ ρ w
      (.returned v) w₁ := by
  simp only [Code.commands_ofInstructions, List.map_append, List.append_assoc]
  obtain ⟨ρ₁, hρ₁, hreach⟩ := hvalue.simulates code htables hs heval _ σ κ hρ
  refine ⟨_, .instruction (.plain .ret) :: rest, hρ₁.update (.inl rfl) v,
    ⟨Function.update_self .., [], ?_, rfl⟩, hreach.trans Step.popRegister.reaches⟩
  exact ⟨value.map .instruction ++ [.instruction (.pop (some (.register .ax)))], by simp⟩

theorem follows_out (htables : BasesOf tables) (hs : s.Extends tables) {right : Term}
    {value : List Instruction} (hvalue : Lowers table .value s right value)
    (heval : Evaluates m tables ρ₀ right w v w₁) (hρ : SameBases ρ ρ₀) :
    Follows code ρ₀ (Code.ofInstructions (value ++ [.plain .out])).commands rest
      ((Code.ofInstructions (value ++ [.plain .out])).commands ++ rest) σ κ ρ w .normal
      (w₁.write (.value v)) := by
  simp only [Code.commands_ofInstructions, List.map_append, List.append_assoc]
  obtain ⟨ρ₁, hρ₁, hreach⟩ := hvalue.simulates code htables hs heval _ σ κ hρ
  exact ⟨ρ₁, rest, hρ₁, rfl, hreach.trans Step.out.reaches⟩

theorem follows_display (htables : BasesOf tables) (hs : s.Extends tables) {index right : Term}
    {name : String} {frame frame' : Frame} {x x' : Variable} {load value : List Instruction}
    {i : m.Value} (hfind : s.find? name = some (frame, x))
    (hload : Lowers table .shift s index load)
    (hvalue : Lowers table .value s right value) (hfind' : tables.find? name = some (frame', x'))
    (hselects : Selects m tables ρ₀ index w i w₁) (heval : Evaluates m tables ρ₀ right w₁ v w₂)
    (hρ : SameBases ρ ρ₀) :
    Follows code ρ₀
      (Code.ofInstructions
        (load ++ [.push (.address (frame.address x))] ++ value ++ [.plain .shw])).commands rest
      ((Code.ofInstructions
        (load ++ [.push (.address (frame.address x))] ++ value ++ [.plain .shw])).commands ++ rest)
      σ κ ρ w .normal (w₂.write (.shown (m.place ρ₀ frame' x' i) v)) := by
  simp only [Code.commands_ofInstructions, List.map_append, List.append_assoc]
  obtain ⟨ρ₁, hρ₁, hi, hreach₁⟩ := hload.simulates_shift code htables hs hselects _ σ κ hρ
  have hcell := cellOf_address htables hs hfind hfind' hρ₁ hi
  obtain ⟨ρ₂, hρ₂, hreach₂⟩ :=
    hvalue.simulates code htables hs heval _ (m.cellOf ρ₁ (frame.address x) :: σ) κ hρ₁
  rw [← hcell]
  exact ⟨ρ₂, rest, hρ₂, rfl,
    hreach₁.trans (Step.push.andThen (hreach₂.trans Step.shw.reaches))⟩

/-- A condition that holds leads into the first branch, and behind the conditional from there. -/
theorem follows_ifThen_true (htables : BasesOf tables) (hs : s.Extends tables) {condition : Term}
    {is : List Instruction} {id : NodeId} {a : Code} {o : Outcome m.Value}
    (htest : Lowers table .value s condition is) (heval : Evaluates m tables ρ₀ condition w v w₁)
    (hunequal : ¬ m.equal v m.zero) (hρ : SameBases ρ ρ₀)
    (hbranch : ∀ ρ₁, SameBases ρ₁ ρ₀ → Follows code ρ₀ a.commands
      ([.label (id.label "if_fail")] ++ rest)
      (a.commands ++ ([.label (id.label "if_fail")] ++ rest)) σ κ ρ₁ w₁ o w₂) :
    Follows code ρ₀ (conditional id is a none).commands rest
      ((conditional id is a none).commands ++ rest) σ κ ρ w o w₂ := by
  rw [commands_ifThen, List.append_assoc, List.append_assoc]
  obtain ⟨ρ₁, hρ₁, hpass, -⟩ := htest.simulates_test code htables hs heval _ _ σ κ hρ
  exact ((hbranch ρ₁ hρ₁).leave fun _ _ => Step.label.reaches).after (hpass hunequal)

theorem follows_ifThen_false (htables : BasesOf tables) (hs : s.Extends tables) {condition : Term}
    {is : List Instruction} {id : NodeId} {a : Code} (htest : Lowers table .value s condition is)
    (heval : Evaluates m tables ρ₀ condition w v w₁) (hequal : m.equal v m.zero)
    (hρ : SameBases ρ ρ₀)
    (hfail : seek (id.label "if_fail") code = .label (id.label "if_fail") :: rest) :
    Follows code ρ₀ (conditional id is a none).commands rest
      ((conditional id is a none).commands ++ rest) σ κ ρ w .normal w₁ := by
  rw [commands_ifThen, List.append_assoc, List.append_assoc]
  obtain ⟨ρ₁, hρ₁, -, hjump⟩ := htest.simulates_test code htables hs heval _ _ σ κ hρ
  have hreach := hjump hequal
  rw [hfail] at hreach
  exact ⟨ρ₁, rest, hρ₁, rfl, hreach.trans Step.label.reaches⟩

theorem follows_ifElse_true (htables : BasesOf tables) (hs : s.Extends tables) {condition : Term}
    {is : List Instruction} {id : NodeId} {a b : Code} {o : Outcome m.Value}
    (htest : Lowers table .value s condition is) (heval : Evaluates m tables ρ₀ condition w v w₁)
    (hunequal : ¬ m.equal v m.zero) (hρ : SameBases ρ ρ₀) {between : List Item}
    (hbetween : between = .instruction (.transfer .jump (id.label "if_end")) ::
      .label (id.label "if_fail") :: (b.commands ++ [.label (id.label "if_end")]))
    (hfinish : seek (id.label "if_end") code = .label (id.label "if_end") :: rest)
    (hbranch : ∀ ρ₁, SameBases ρ₁ ρ₀ → Follows code ρ₀ a.commands (between ++ rest)
      (a.commands ++ (between ++ rest)) σ κ ρ₁ w₁ o w₂) :
    Follows code ρ₀ (conditional id is a (some b)).commands rest
      ((conditional id is a (some b)).commands ++ rest) σ κ ρ w o w₂ := by
  rw [commands_ifElse, ← hbetween, List.append_assoc, List.append_assoc]
  obtain ⟨ρ₁, hρ₁, hpass, -⟩ := htest.simulates_test code htables hs heval _ _ σ κ hρ
  refine ((hbranch ρ₁ hρ₁).leave fun _ ρ' => ?_).after (hpass hunequal)
  rw [hbetween]
  refine Step.jump.andThen ?_
  rw [hfinish]
  exact Step.label.reaches

theorem follows_ifElse_false (htables : BasesOf tables) (hs : s.Extends tables) {condition : Term}
    {is : List Instruction} {id : NodeId} {a b : Code} {o : Outcome m.Value}
    (htest : Lowers table .value s condition is) (heval : Evaluates m tables ρ₀ condition w v w₁)
    (hequal : m.equal v m.zero) (hρ : SameBases ρ ρ₀)
    (hfail : seek (id.label "if_fail") code = .label (id.label "if_fail") ::
      (b.commands ++ ([.label (id.label "if_end")] ++ rest)))
    (hbranch : ∀ ρ₁, SameBases ρ₁ ρ₀ → Follows code ρ₀ b.commands
      ([.label (id.label "if_end")] ++ rest)
      (b.commands ++ ([.label (id.label "if_end")] ++ rest)) σ κ ρ₁ w₁ o w₂) :
    Follows code ρ₀ (conditional id is a (some b)).commands rest
      ((conditional id is a (some b)).commands ++ rest) σ κ ρ w o w₂ := by
  obtain ⟨ρ₁, hρ₁, -, hjump⟩ := htest.simulates_test code htables hs heval _ _ σ κ hρ
  have hreach := hjump hequal
  rw [hfail] at hreach
  have hblock := ((hbranch ρ₁ hρ₁).leave (a := testCommands is (id.label "if_fail") ++
    (a.commands ++ [.instruction (.transfer .jump (id.label "if_end")),
      .label (id.label "if_fail")])) fun _ _ => Step.label.reaches).after
    (hreach.trans Step.label.reaches)
  rw [commands_ifElse, List.append_assoc]
  simpa only [List.append_assoc, List.cons_append, List.nil_append] using hblock

theorem follows_loop_false (htables : BasesOf tables) (hs : s.Extends tables) {condition : Term}
    {is : List Instruction} {id : NodeId} {a : Code} (htest : Lowers table .value s condition is)
    (heval : Evaluates m tables ρ₀ condition w v w₁) (hequal : m.equal v m.zero)
    (hρ : SameBases ρ ρ₀)
    (hfinish : seek (id.label "while_end") code = .label (id.label "while_end") :: rest) :
    Follows code ρ₀ (loop id is a).commands rest ((loop id is a).commands ++ rest) σ κ ρ w .normal
      w₁ := by
  rw [commands_loop, List.append_assoc, List.cons_append]
  obtain ⟨ρ₁, hρ₁, -, hjump⟩ := htest.simulates_test code htables hs heval _ _ σ κ hρ
  have hreach := hjump hequal
  rw [hfinish] at hreach
  exact ⟨ρ₁, rest, hρ₁, rfl, Step.label.andThen (hreach.trans Step.label.reaches)⟩

/-- A condition that holds leads into the body of a loop. -/
theorem reaches_loop_body (htables : BasesOf tables) (hs : s.Extends tables) {condition : Term}
    {is : List Instruction} {id : NodeId} {a : Code} (htest : Lowers table .value s condition is)
    (heval : Evaluates m tables ρ₀ condition w v w₁) (hunequal : ¬ m.equal v m.zero)
    (hρ : SameBases ρ ρ₀) :
    ∃ ρ₁, SameBases ρ₁ ρ₀ ∧ m.Reaches code ⟨(loop id is a).commands ++ rest, σ, ρ, w, κ⟩
      ⟨a.commands ++ ([.instruction (.transfer .jump (id.label "while")),
        .label (id.label "while_end")] ++ rest), σ, ρ₁, w₁, κ⟩ := by
  rw [commands_loop, List.append_assoc, List.cons_append, List.append_assoc]
  obtain ⟨ρ₁, hρ₁, hpass, -⟩ := htest.simulates_test code htables hs heval _ _ σ κ hρ
  exact ⟨ρ₁, hρ₁, Step.label.andThen (hpass hunequal)⟩

/-- A turn of a loop that ends normally leads to the next one. -/
theorem follows_loop_again (htables : BasesOf tables) (hs : s.Extends tables) {condition : Term}
    {is : List Instruction} {id : NodeId} {a : Code} {w₃ : World m} {o : Outcome m.Value}
    (htest : Lowers table .value s condition is) (heval : Evaluates m tables ρ₀ condition w v w₁)
    (hunequal : ¬ m.equal v m.zero) (hρ : SameBases ρ ρ₀)
    (htop : seek (id.label "while") code = (loop id is a).commands ++ rest)
    (hturn : ∀ ρ₁, SameBases ρ₁ ρ₀ → Follows code ρ₀ a.commands
      ([.instruction (.transfer .jump (id.label "while")), .label (id.label "while_end")] ++ rest)
      (a.commands ++ ([.instruction (.transfer .jump (id.label "while")),
        .label (id.label "while_end")] ++ rest)) σ κ ρ₁ w₁ .normal w₂)
    (hagain : ∀ ρ₂, SameBases ρ₂ ρ₀ → Follows code ρ₀ (loop id is a).commands rest
      ((loop id is a).commands ++ rest) σ κ ρ₂ w₂ o w₃) :
    Follows code ρ₀ (loop id is a).commands rest ((loop id is a).commands ++ rest) σ κ ρ w o
      w₃ := by
  obtain ⟨ρ₁, hρ₁, henter⟩ := reaches_loop_body htables hs htest heval hunequal hρ
  obtain ⟨ρ₂, _, hρ₂, rfl, hbody⟩ := hturn ρ₁ hρ₁
  refine (hagain ρ₂ hρ₂).after (henter.trans (hbody.trans (Step.jump.andThen ?_)))
  rw [htop]
  exact .refl _

theorem follows_loop_return (htables : BasesOf tables) (hs : s.Extends tables) {condition : Term}
    {is : List Instruction} {id : NodeId} {a : Code} {r : m.Value}
    (htest : Lowers table .value s condition is) (heval : Evaluates m tables ρ₀ condition w v w₁)
    (hunequal : ¬ m.equal v m.zero) (hρ : SameBases ρ ρ₀)
    (hturn : ∀ ρ₁, SameBases ρ₁ ρ₀ → Follows code ρ₀ a.commands
      ([.instruction (.transfer .jump (id.label "while")), .label (id.label "while_end")] ++ rest)
      (a.commands ++ ([.instruction (.transfer .jump (id.label "while")),
        .label (id.label "while_end")] ++ rest)) σ κ ρ₁ w₁ (.returned r) w₂) :
    Follows code ρ₀ (loop id is a).commands rest ((loop id is a).commands ++ rest) σ κ ρ w
      (.returned r) w₂ := by
  obtain ⟨ρ₁, hρ₁, henter⟩ := reaches_loop_body htables hs htest heval hunequal hρ
  refine Follows.after henter ?_
  rw [commands_loop]
  exact (hturn ρ₁ hρ₁).leave fun h => by cases h

end Statements

theorem suffix_right {a b : List Item} (h : (a ++ b) <:+ code) : b <:+ code :=
  (List.suffix_append a b).trans h

section Places

variable {id : NodeId} {is : List Instruction} {a b : Code} {rest : List Item}

theorem placed_ifThen (h : ((conditional id is a none).commands ++ rest) <:+ code) :
    (a.commands ++ ([.label (id.label "if_fail")] ++ rest)) <:+ code ∧
      (.label (id.label "if_fail") :: rest) <:+ code := by
  rw [commands_ifThen, List.append_assoc, List.append_assoc] at h
  exact ⟨suffix_right h, suffix_right (suffix_right h)⟩

theorem placed_ifElse (h : ((conditional id is a (some b)).commands ++ rest) <:+ code) :
    (a.commands ++ (.instruction (.transfer .jump (id.label "if_end")) ::
        .label (id.label "if_fail") :: (b.commands ++ [.label (id.label "if_end")]) ++
          rest)) <:+ code ∧
      (.label (id.label "if_fail") ::
        (b.commands ++ ([.label (id.label "if_end")] ++ rest))) <:+ code ∧
      (.label (id.label "if_end") :: rest) <:+ code := by
  rw [commands_ifElse, List.append_assoc, List.append_assoc] at h
  have hthen := suffix_right h
  have hjump := suffix_right hthen
  have hfail : (.label (id.label "if_fail") ::
      (b.commands ++ ([.label (id.label "if_end")] ++ rest))) <:+ code := by
    rw [← List.append_assoc]
    exact (List.suffix_cons _ _).trans hjump
  exact ⟨hthen, hfail, suffix_right ((List.suffix_cons _ _).trans hfail)⟩

theorem placed_loop (h : ((loop id is a).commands ++ rest) <:+ code) :
    (a.commands ++ ([.instruction (.transfer .jump (id.label "while")),
        .label (id.label "while_end")] ++ rest)) <:+ code ∧
      (.label (id.label "while_end") :: rest) <:+ code := by
  rw [commands_loop, List.append_assoc, List.append_assoc] at h
  have hbody := suffix_right h
  exact ⟨hbody, (List.suffix_cons _ _).trans (suffix_right hbody)⟩

end Places

/-- The code of statements does what the statements do, wherever it stands in a program whose labels
are found at their places. -/
theorem Compiles.simulates (htables : BasesOf tables)
    (hseek : ∀ l r, (.label l :: r) <:+ code → seek l code = .label l :: r)
    {form : Form} {t : Term} {w w' : World m} {o : Outcome m.Value}
    (hexec : Executes m tables ρ₀ form t w o w') {s s' : Scopes} {block : Code}
    (h : Compiles table form s t block s') (hs : s'.Extends tables) (hids : t.ids.Nodup)
    (hforeign : Foreign s t) {rest : List Item} (hplaced : (block.commands ++ rest) <:+ code)
    (σ : List m.Value) {ρ : Register → m.Value} (κ : List (List Item)) (hρ : SameBases ρ ρ₀) :
    Follows code ρ₀ block.commands rest (block.commands ++ rest) σ κ ρ w o w' := by
  -- on the evaluation and not on the code: a loop is compiled once and evaluated at every turn
  induction hexec generalizing s s' block rest ρ with
  | assign heval hlocates =>
    cases h with
    | assign hvalue htarget =>
      exact follows_assign htables hs hvalue htarget (hforeign.mono Term.ids_left_subset) heval
        hlocates hρ
  | @ifTrue _ d _ thenPart elsePart _ _ _ _ _ heval hunequal _ ih =>
    obtain ⟨-, hdecision, -⟩ := Term.nodup_ids_node hids
    obtain ⟨hidsThen, -, -⟩ := Term.nodup_ids_node hdecision
    have hforeignThen : Foreign s thenPart :=
      (hforeign.mono Term.ids_right_subset).mono Term.ids_left_subset
    cases h with
    | ifThen htest _ hthen =>
      exact follows_ifThen_true htables (hthen.extends.trans hs) htest heval hunequal hρ
        fun ρ₁ hρ₁ => ih hthen hs hidsThen hforeignThen (placed_ifThen hplaced).1 hρ₁
    | ifElse htest _ _ hthen helse =>
      obtain ⟨hplacedThen, -, hfinish⟩ := placed_ifElse hplaced
      exact follows_ifElse_true htables ((hthen.extends.trans helse.extends).trans hs) htest heval
        hunequal hρ rfl (hseek _ _ hfinish) fun ρ₁ hρ₁ =>
          ih hthen (helse.extends.trans hs) hidsThen hforeignThen hplacedThen hρ₁
  | @ifFalse _ d _ thenPart elsePart _ _ _ _ _ heval hequal hexec ih =>
    obtain ⟨-, hdecision, -⟩ := Term.nodup_ids_node hids
    obtain ⟨-, hidsElse, hdisjoint⟩ := Term.nodup_ids_node hdecision
    have hforeignElse : Foreign s elsePart :=
      (hforeign.mono Term.ids_right_subset).mono Term.ids_right_subset
    cases h with
    | ifThen htest _ hthen =>
      cases hexec
      exact follows_ifThen_false htables (hthen.extends.trans hs) htest heval hequal hρ
        (hseek _ _ (placed_ifThen hplaced).2)
    | ifElse htest _ _ hthen helse =>
      obtain ⟨-, hfail, -⟩ := placed_ifElse hplaced
      exact follows_ifElse_false htables ((hthen.extends.trans helse.extends).trans hs) htest heval
        hequal hρ (hseek _ _ hfail) fun ρ₁ hρ₁ =>
          ih helse hs hidsElse (hthen.foreign hforeignElse hdisjoint)
            ((List.suffix_cons _ _).trans hfail) hρ₁
  | whileFalse heval hequal =>
    cases h with
    | whileLoop htest _ hbody =>
      exact follows_loop_false htables (hbody.extends.trans hs) htest heval hequal hρ
        (hseek _ _ (placed_loop hplaced).2)
  | whileTrue heval hunequal _ _ ihbody ihloop =>
    obtain ⟨-, hidsBody, -⟩ := Term.nodup_ids_node hids
    have hforeignBody := hforeign.mono Term.ids_right_subset
    cases h with
    | whileLoop htest hpresent hbody =>
      obtain ⟨hplacedBody, -⟩ := placed_loop hplaced
      apply follows_loop_again htables (hbody.extends.trans hs) htest heval hunequal hρ
      · rw [commands_loop] at hplaced ⊢
        exact hseek _ _ hplaced
      · exact fun ρ₁ hρ₁ => ihbody hbody hs hidsBody hforeignBody hplacedBody hρ₁
      · exact fun ρ₂ hρ₂ =>
          ihloop (.whileLoop htest hpresent hbody) hs hids hforeign hplaced hρ₂
  | whileReturn heval hunequal _ ih =>
    obtain ⟨-, hidsBody, -⟩ := Term.nodup_ids_node hids
    have hforeignBody := hforeign.mono Term.ids_right_subset
    cases h with
    | whileLoop htest hpresent hbody =>
      obtain ⟨hplacedBody, -⟩ := placed_loop hplaced
      apply follows_loop_return htables (hbody.extends.trans hs) htest heval hunequal hρ
      exact fun ρ₁ hρ₁ => ih hbody hs hidsBody hforeignBody hplacedBody hρ₁
  | ret heval =>
    cases h with
    | ret hvalue => exact follows_ret htables hs hvalue heval hρ
  | display hfind' hselects heval =>
    cases h with
    | display hfind _ hload hvalue =>
      exact follows_display htables hs hfind hload hvalue hfind' hselects heval hρ
  | out heval =>
    cases h with
    | out hvalue => exact follows_out htables hs hvalue heval hρ
  | nil =>
    cases h
    exact ⟨ρ, rest, hρ, rfl, .refl _⟩
  | cons _ _ ih ihlast =>
    obtain ⟨hbefore, hlast, hdisjoint⟩ := Term.nodup_ids_node hids
    cases h with
    | cons hcode hlastCode =>
      rw [Code.commands, Code.view_append, List.append_assoc] at hplaced
      rw [Code.commands, Code.view_append, List.append_assoc]
      obtain ⟨ρ₁, _, hρ₁, rfl, hreach⟩ := ih hcode (hlastCode.extends.trans hs) hbefore
        (hforeign.mono Term.ids_left_subset) hplaced hρ
      have hforeign' := hcode.foreign (hforeign.mono Term.ids_right_subset) hdisjoint
      have hrest := ihlast hlastCode hs hlast hforeign' ((List.suffix_append _ _).trans hplaced) hρ₁
      exact (hrest.within _).after hreach
  | consReturn _ ih =>
    obtain ⟨hbefore, -, -⟩ := Term.nodup_ids_node hids
    cases h with
    | cons hcode hlastCode =>
      rw [Code.commands, Code.view_append, List.append_assoc] at hplaced
      rw [Code.commands, Code.view_append, List.append_assoc]
      have hreturn := ih hcode (hlastCode.extends.trans hs) hbefore
        (hforeign.mono Term.ids_left_subset) hplaced hρ
      exact hreturn.leave (a := []) fun h => by cases h

theorem Anatomy.globals_base {t : Term} {p : Program} {start bodies : Code}
    (h : Anatomy t p start bodies) : p.globals.base = .cx :=
  h.initializes.extends.current.base

theorem basesOf_tables {globals frame : Frame} (hglobals : globals.base = .cx)
    (hframe : frame.base = .bx) : BasesOf ⟨globals, some frame⟩ := by
  intro name found v hfind
  unfold Scopes.find? at hfind
  cases hglobal : globals.find? name with
  | some x =>
    simp only [hglobal, Option.some.injEq, Prod.mk.injEq] at hfind
    exact .inr (hfind.1 ▸ hglobals)
  | none =>
    simp only [hglobal, Option.map_eq_some_iff, Prod.mk.injEq] at hfind
    obtain ⟨_, _, rfl, _⟩ := hfind
    exact .inl hframe

/-- Neither a global nor a parameter is declared inside the body of a function. -/
theorem Anatomy.foreign {t : Term} {p : Program} {start bodies : Code}
    (h : Anatomy t p start bodies) (hids : t.ids.Nodup) {f : Function} (hf : f ∈ p.functions)
    {frame : Frame} (hparams : Declares p.globals (.empty .bx) f.params frame) :
    Foreign ⟨p.globals, some frame⟩ f.body := by
  rcases h.collects.origin hf with hf | ⟨header, nameId, left, index, params, hlinks, hmem⟩
  · cases hf
  obtain ⟨-, -, hdisjoint⟩ := Term.nodup_ids_node (Term.nodup_ids_of_links hids hmem)
  intro v hv hbody
  rcases List.mem_append.mp hv with hv | hv
  · rcases h.initializes.node_mem hv with hv | ⟨u, hu, hassign, hid⟩
    · cases hv
    · refine Term.disjoint_ids_of_links hids hu hmem ?_ hid (Term.ids_right_subset hbody)
      rintro rfl
      cases hassign
  · rcases hparams.node_mem hv with hv | hid
    · cases hv
    · rw [hlinks] at hid
      exact hdisjoint (Term.ids_right_subset (params.ids_links_sublist.subset hid)) hbody

end Lowering

open Lowering in
/-- If the body of a function ends normally or returns a value, the machine gets from the start of
the function's block to its end or to a `ret` in it with the value in `ax`. Memory, input and output
are then those of the evaluation; the stacks and the frame bases are what they were. -/
theorem body_executes_as_evaluated (t : Tree) (p : Program) (h : (Arena.ofTree t).compile = .ok p)
    (f : Function) (hf : f ∈ p.functions) (m : Machine) (ρ : Register → m.Value) (w w' : World m)
    (σ : List m.Value) (κ : List (List Item)) (o : Outcome m.Value)
    (hexec : m.Executes ⟨p.globals, p.frame? f.name⟩ ρ .chain f.body w o w') :
    ∃ before after, p.code = before ++ p.block f.name ++ after ∧
      ∃ ρ' r, ρ' .bx = ρ .bx ∧ ρ' .cx = ρ .cx ∧
        m.Reaches p.code.commands ⟨(p.block f.name).commands ++ after.commands, σ, ρ, w, κ⟩
          ⟨r, σ, ρ', w', κ⟩ ∧
        match o with
        | .normal => r = after.commands
        | .returned v => ρ' .ax = v ∧ ∃ inner,
            (.instruction (.plain .ret) :: inner) <:+ (p.block f.name).commands ∧
              r = .instruction (.plain .ret) :: inner ++ after.commands := by
  obtain ⟨start, bodies, hanatomy⟩ := anatomy_of_compile h
  have hids := nodup_ids_ofTree t
  obtain ⟨before, after, frame, hcode, hdefines, hframe⟩ := hanatomy.blocks.2 f hf
  obtain ⟨-, first, body, hparams, hbody, hblock⟩ := hdefines
  rw [hframe] at hexec
  have htables : BasesOf ⟨p.globals, some frame⟩ := by
    apply basesOf_tables hanatomy.globals_base
    exact hbody.extends.current.base.trans hparams.extends.base
  have hseek : ∀ l r, (.label l :: r) <:+ p.code.commands →
      Machine.seek l p.code.commands = .label l :: r := by
    intro l r hsuffix
    apply Machine.seek_eq_of_suffix _ hsuffix
    rw [Code.filterMap_commands]
    exact hanatomy.nodup_labels hids
  have hidsBody : f.body.ids.Nodup :=
    (List.nodup_flatMap.mp (hanatomy.nodup_ids hids)).1 f hf
  have hcommands : (p.block f.name).commands = .label f.name :: body.commands := by simp [hblock]
  have hplaced : (body.commands ++ after.commands) <:+ p.code.commands := by
    refine ⟨before.commands ++ [.label f.name], ?_⟩
    simp only [hcode, Code.commands, Code.view_append] at hcommands ⊢
    rw [hcommands]
    simp
  obtain ⟨ρ', r, hρ', hends, hreach⟩ := hbody.simulates htables hseek hexec (.refl _) hidsBody
    (hanatomy.foreign hids hf hparams) hplaced σ κ ⟨rfl, rfl⟩
  refine ⟨before, after, hcode, ρ', r, hρ'.1, hρ'.2, ?_, ?_⟩
  · rw [hcommands]
    exact Machine.Step.label.andThen hreach
  · cases o with
    | normal => exact hends
    | returned v =>
      obtain ⟨hax, inner, hinner, hr⟩ := hends
      rw [hcommands]
      exact ⟨hax, inner, hinner.trans (List.suffix_cons _ _), hr⟩

/-- The function with the loop. -/
def Function.count : Function :=
  let ident (id : NodeId) (name : String) : Term := .node id (.ident name) .absent .absent
  let add : Term := .node 13 (.keyword .assign) (ident 9 "total")
    (.node 12 (.keyword .add) (ident 10 "total") (ident 11 "n"))
  let subtract : Term := .node 19 (.keyword .assign) (ident 15 "n")
    (.node 18 (.keyword .sub) (ident 16 "n") (.node 17 (.number (.ofNat 1)) .absent .absent))
  let loop : Term := .node 21 (.keyword .whileLoop) (ident 8 "n")
    (.node 20 (.keyword .stmt) (.node 14 (.keyword .stmt) .absent add) subtract)
  ⟨"count", 26, [ident 5 "n"], .node 25 (.keyword .stmt) (.node 22 (.keyword .stmt) .absent loop)
    (.node 24 (.keyword .ret) .absent (ident 23 "total"))⟩

namespace Machine

theorem integers_zero : integers.zero = (0 : Int) := by
  show (((Number.ofNat 0).toNat?.getD 0 : Nat) : Int) = 0
  decide +kernel

theorem integers_one : integers.literal (.ofNat 1) = (1 : Int) := by
  show (((Number.ofNat 1).toNat?.getD 0 : Nat) : Int) = 1
  decide +kernel

/-- Where the parameter is at cell one and the global at cell zero, and hold one and two, the loop
turns once and three is returned. -/
theorem count_executes {tables : Scopes} {ρ : Register → Int} {globals locals : Frame}
    (hn : tables.find? "n" = some (locals, ⟨"n", 5, 0, none⟩))
    (htotal : tables.find? "total" = some (globals, ⟨"total", 0, 0, none⟩))
    (hlocals : ρ locals.base = 1) (hglobals : ρ globals.base = 0) {w : World .integers}
    (hone : w.memory (1 : Int) = (1 : Int)) (htwo : w.memory (0 : Int) = (2 : Int)) :
    ∃ w', integers.Executes tables ρ .chain Function.count.body w (.returned (3 : Int)) w' := by
  have hplaceN : integers.place ρ locals ⟨"n", 5, 0, none⟩ integers.zero = (1 : Int) := by
    rw [integers_zero]
    show ρ locals.base + (0 : Nat) + 0 = 1
    rw [hlocals]
    rfl
  have hplaceTotal : integers.place ρ globals ⟨"total", 0, 0, none⟩ integers.zero = (0 : Int) := by
    rw [integers_zero]
    show ρ globals.base + (0 : Nat) + 0 = 0
    rw [hglobals]
    rfl
  have hevalN (id : NodeId) (w : World .integers) : integers.Evaluates tables ρ
      (.node id (.ident "n") .absent .absent) w (w.memory (1 : Int)) w := by
    rw [← hplaceN]
    exact .plain hn
  have hevalTotal (id : NodeId) (w : World .integers) : integers.Evaluates tables ρ
      (.node id (.ident "total") .absent .absent) w (w.memory (0 : Int)) w := by
    rw [← hplaceTotal]
    exact .plain htotal
  have hlocateN (w : World .integers) :
      integers.Locates tables ρ (.node 15 (.ident "n") .absent .absent) w (1 : Int) w := by
    rw [← hplaceN]
    exact .element hn (by decide) .first
  have hlocateTotal (w : World .integers) :
      integers.Locates tables ρ (.node 9 (.ident "total") .absent .absent) w (0 : Int) w := by
    rw [← hplaceTotal]
    exact .element htotal (by decide) .first
  let w₁ := w.store (0 : Int) (3 : Int)
  let w₂ := w₁.store (1 : Int) (0 : Int)
  have hbody : integers.Executes tables ρ .chain Function.count.body.left.right.right w .normal
      w₂ := by
    refine .cons (.cons .nil (.assign (.binary rfl (hevalTotal 10 w) (hevalN 11 w) ?_)
      (hlocateTotal w))) (.assign (.binary rfl (hevalN 16 w₁) .number ?_) (hlocateN w₁))
    · rw [hone, htwo]
      rfl
    · rw [integers_one]
      show integers.binary .sub (w.memory (1 : Int)) (1 : Int) (0 : Int)
      rw [hone]
      rfl
  have hloop : integers.Executes tables ρ .statement Function.count.body.left.right w .normal
      w₂ := by
    refine .whileTrue (hevalN 8 w) ?_ hbody (.whileFalse (hevalN 8 w₂) ?_)
    · rw [integers_zero, hone]
      exact Int.one_ne_zero
    · rw [integers_zero]
      rfl
  exact ⟨w₂, .cons (.cons .nil hloop) (.ret (hevalTotal 23 w₂))⟩

end Machine

theorem body_executes_as_evaluated_countdown :
    let p := Program.countdown
    let tables : Scopes := ⟨p.globals, p.frame? "count"⟩
    let ρ : Register → Int := fun r => if r = .bx then 1 else 0
    let memory : Int → Int := fun cell => if cell = 0 then 2 else 1
    let w : World .integers := ⟨memory, [], []⟩
    ∃ w' after ρ' r, Function.count ∈ p.functions ∧
      Machine.integers.Executes tables ρ .chain Function.count.body w (.returned (3 : Int)) w' ∧
      Machine.integers.Reaches p.code.commands
        ⟨(p.block "count").commands ++ after, [], ρ, w, []⟩ ⟨r, [], ρ', w', []⟩ ∧
      ρ' .ax = (3 : Int) := by
  intro p tables ρ memory w
  have hmem : Function.count ∈ p.functions := by decide +kernel
  have hn : tables.find? "n" = some (⟨.bx, [⟨"n", 5, 0, none⟩], 1, 0⟩, ⟨"n", 5, 0, none⟩) := by
    decide +kernel
  have htotal : tables.find? "total" =
      some (⟨.cx, [⟨"total", 0, 0, none⟩], 1, 0⟩, ⟨"total", 0, 0, none⟩) := by
    decide +kernel
  obtain ⟨w', hexec⟩ := Machine.count_executes (ρ := ρ) hn htotal rfl rfl (w := w) rfl rfl
  obtain ⟨before, after, -, ρ', r, -, -, hreach, hax, -⟩ :=
    body_executes_as_evaluated _ p compile_countdown Function.count hmem .integers ρ w w' [] []
      (.returned (3 : Int)) hexec
  exact ⟨w', after.commands, ρ', r, hmem, hexec, hreach, hax⟩

end StackCompiler
