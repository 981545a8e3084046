import StackCompiler.Proofs.Addressing
import StackCompiler.Proofs.Execution
import Mathlib.Logic.Relation

/-!
# Where control runs out of a function

Control runs from a line of the code to the next one, or to the line of a label that is jumped to. A
function is left at the end of its block exactly if its body can complete: not through a `return`,
and through a branch only if one of its two parts can complete.

`Conducts` describes a piece of code by the points that are reached in it from its start. Pieces are
put together by their points: those of both parts of a sequence, if the first part is passed, and
those of the parts of a branch or a loop, with the lines that lead from one to the other.
-/
namespace StackCompiler

namespace Term

mutual

/-- Whether control can pass a statement. -/
def completes : Term → Bool
  | .node _ (.keyword .ret) _ _ => false
  | .node _ (.keyword .ifThen) _ (.node _ (.keyword .decision) thenPart elsePart) =>
    elsePart.isAbsent || thenPart.completesAll || elsePart.completesAll
  | _ => true

/-- Whether control can pass all statements of a chain. -/
def completesAll : Term → Bool
  | .node _ _ before last => before.completesAll && last.completes
  | _ => true

end

end Term

namespace Item

/-- Whether control can run on to the next line. -/
def continues : Item → Bool
  | .instruction (.transfer .jump _) => false
  | .instruction (.plain .ret) => false
  | .instruction (.plain .halt) => false
  | _ => true

/-- The label that control can jump to. -/
def jump? : Item → Option String
  | .instruction i => i.jumpTarget?
  | _ => none

/-- Whether control can only run on to the next line. -/
def isStraight (item : Item) : Bool :=
  item.continues && item.jump?.isNone

@[simp] theorem isStraight_push (operand : Operand) :
    (instruction (.push operand)).isStraight = true := rfl

@[simp] theorem isStraight_pop (operand : Option Operand) :
    (instruction (.pop operand)).isStraight = true := rfl

@[simp] theorem isStraight_call (l : String) :
    (instruction (.transfer .call l)).isStraight = true := rfl

@[simp] theorem isStraight_label (l : String) : (label l).isStraight = true := rfl

@[simp] theorem isStraight_comment (text : String) : (comment text).isStraight = true := rfl

/-- Operators leave control alone. -/
theorem isStraight_operator {tag : Keyword} {operator : Operator}
    (h : tag.meaning? = some operator) :
    (instruction (.plain operator.operation)).isStraight = true := by
  cases tag <;> cases h <;> rfl

end Item

/-- Control can run from one line to another. -/
inductive Flows (items : List Item) : Nat → Nat → Prop
  | next {i : Nat} {item : Item} :
      items[i]? = some item → item.continues = true → Flows items i (i + 1)
  | jump {i j : Nat} {item : Item} {l : String} : items[i]? = some item → item.jump? = some l →
      items[j]? = some (.label l) → Flows items i j

/-- Control can run from one line to another, through lines from `low` on and before `high` only. -/
def Passes (items : List Item) (low high : Nat) : Nat → Nat → Prop :=
  Relation.ReflTransGen fun i j => low ≤ i ∧ i < high ∧ Flows items i j

namespace Program

/-- The line of a label. -/
def position (p : Program) (l : String) : Nat :=
  (p.code.takeWhile fun line => line.item ≠ .label l).length

/-- Control can run from the label of a function to the point behind the last line of its block
without leaving the block. -/
def FallsThrough (p : Program) (name : String) : Prop :=
  let first := p.position name
  let past := first + (p.block name).length
  Passes p.code.items first past first past

end Program

namespace Flows

variable {items : List Item} {i j : Nat} {item : Item}

theorem cases_of_getElem? (h : Flows items i j) (hitem : items[i]? = some item) :
    item.continues = true ∧ j = i + 1 ∨ ∃ l, item.jump? = some l ∧ items[j]? = some (.label l) := by
  cases h with
  | next hi hcontinues =>
    cases hitem.symm.trans hi
    exact .inl ⟨hcontinues, rfl⟩
  | jump hi hjump hlabel =>
    cases hitem.symm.trans hi
    exact .inr ⟨_, hjump, hlabel⟩

/-- From a straight line control runs on to the next. -/
theorem eq_succ (h : Flows items i j) (hitem : items[i]? = some item)
    (hstraight : item.isStraight = true) : j = i + 1 := by
  rw [Item.isStraight, Bool.and_eq_true] at hstraight
  rcases h.cases_of_getElem? hitem with ⟨-, hj⟩ | ⟨l, hl, -⟩
  · exact hj
  · simp [hl] at hstraight

end Flows

/-- No label is set twice. -/
def LabelsUnique (items : List Item) : Prop :=
  ∀ (l : String) (i j : Nat), items[i]? = some (.label l) → items[j]? = some (.label l) → i = j

theorem labelsUnique_of_nodup {items : List Item} (h : (items.filterMap Item.label?).Nodup) :
    LabelsUnique items := by
  induction items with
  | nil => simp [LabelsUnique]
  | cons item items ih =>
    intro l i j hi hj
    have hitems : (items.filterMap Item.label?).Nodup :=
      h.sublist ((List.sublist_cons_self item items).filterMap Item.label?)
    -- a label at the head is not set again behind it
    have hhead {n : Nat} (hitem : item = .label l) (hn : items[n]? = some (.label l)) : False := by
      subst hitem
      simp only [List.filterMap_cons, Item.label?, List.nodup_cons] at h
      exact h.1 (Machine.mem_labels_iff.mpr (List.mem_of_getElem? hn))
    cases i with
    | zero =>
      cases j with
      | zero => rfl
      | succ j => exact (hhead (Option.some.inj hi) hj).elim
    | succ i =>
      cases j with
      | zero => exact (hhead (Option.some.inj hj) hi).elim
      | succ j => exact congrArg Nat.succ (ih hitems l i j hi hj)

namespace Passes

variable {items : List Item} {low high : Nat}

theorem mono {low' high' i j : Nat} (h : Passes items low high i j) (hlow : low' ≤ low)
    (hhigh : high ≤ high') : Passes items low' high' i j := by
  induction h with
  | refl => exact .refl
  | tail _ hstep ih => exact ih.tail ⟨hlow.trans hstep.1, hstep.2.1.trans_le hhigh, hstep.2.2⟩

theorem trans {i j l : Nat} (h : Passes items low high i j) (h' : Passes items low high j l) :
    Passes items low high i l :=
  Relation.ReflTransGen.trans h h'

theorem step {i j : Nat} (hlow : low ≤ i) (hhigh : i < high) (h : Flows items i j) :
    Passes items low high i j :=
  .single ⟨hlow, hhigh, h⟩

end Passes

/-- A piece of `n` lines from line `k` on, which control can pass exactly if `c` holds. -/
structure Conducts (items : List Item) (k n : Nat) (c : Prop) : Prop where
  passes : c → Passes items k (k + n) k (k + n)
  /-- The points that are reached, with all that follow them, and the end only if it may be. -/
  reached : ∃ S : Nat → Prop, S k ∧
    ∀ i, S i → (k ≤ i ∧ i < k + n ∧ ∀ j, Flows items i j → S j) ∨ (i = k + n ∧ c)

namespace Conducts

variable {items : List Item} {k m n : Nat} {c d : Prop}

theorem passes_iff (h : Conducts items k n c) : Passes items k (k + n) k (k + n) ↔ c := by
  refine ⟨fun hpasses => ?_, h.passes⟩
  obtain ⟨S, hstart, hS⟩ := h.reached
  have hall {j : Nat} (hj : Passes items k (k + n) k j) : S j := by
    induction hj with
    | refl => exact hstart
    | tail _ hstep ih =>
      rcases hS _ ih with ⟨-, -, hnext⟩ | ⟨hend, -⟩
      · exact hnext _ hstep.2.2
      · exact absurd hend (Nat.ne_of_lt hstep.2.1)
  rcases hS _ (hall hpasses) with ⟨-, hlt, -⟩ | ⟨-, hc⟩
  · exact absurd hlt (Nat.lt_irrefl _)
  · exact hc

theorem cast (h : Conducts items k m c) (hn : m = n) (hiff : c ↔ d) : Conducts items k n d :=
  hn ▸ propext hiff ▸ h

/-- Straight lines are passed. -/
theorem straight
    (h : ∀ i, k ≤ i → i < k + n → ∃ item, items[i]? = some item ∧ item.isStraight = true) :
    Conducts items k n True where
  passes _ := by
    have hall {i : Nat} (hi : i ≤ n) : Passes items k (k + n) k (k + i) := by
      induction i with
      | zero => exact .refl
      | succ i ih =>
        obtain ⟨item, hitem, hstraight⟩ := h (k + i) (by omega) (by omega)
        rw [Item.isStraight, Bool.and_eq_true] at hstraight
        exact (ih (by omega)).tail ⟨by omega, by omega, .next hitem hstraight.1⟩
    exact hall (Nat.le_refl n)
  reached := by
    refine ⟨fun i => k ≤ i ∧ i ≤ k + n, ⟨Nat.le_refl _, Nat.le_add_right _ _⟩,
      fun i ⟨hlow, hhigh⟩ => ?_⟩
    rcases Nat.lt_or_eq_of_le hhigh with hlt | rfl
    · refine .inl ⟨hlow, hlt, fun j hflows => ?_⟩
      obtain ⟨item, hitem, hstraight⟩ := h i hlow hlt
      have hj := hflows.eq_succ hitem hstraight
      omega
    · exact .inr ⟨rfl, trivial⟩

/-- Nothing passes a line that control does not leave. -/
theorem stop {item : Item} (hitem : items[k]? = some item) (hcontinues : item.continues = false)
    (hjump : item.jump? = none) : Conducts items k 1 False where
  passes := False.elim
  reached := by
    refine ⟨fun i => i = k, rfl, ?_⟩
    rintro i rfl
    refine .inl ⟨Nat.le_refl _, Nat.lt_succ_self _, fun j hflows => ?_⟩
    rcases hflows.cases_of_getElem? hitem with ⟨hcontinues', -⟩ | ⟨l, hl, -⟩
    · simp [hcontinues] at hcontinues'
    · simp [hjump] at hl

/-- A sequence is passed if both parts are. -/
theorem append (h : Conducts items k m c) {j : Nat} (h' : Conducts items j n d) (hj : j = k + m) :
    Conducts items k (m + n) (c ∧ d) where
  passes := by
    subst hj
    rintro ⟨hc, hd⟩
    have hfirst := (h.passes hc).mono (Nat.le_refl _) (show k + m ≤ k + m + n by omega)
    have hsecond := (h'.passes hd).mono (Nat.le_add_right k m) (Nat.le_refl _)
    rw [← Nat.add_assoc]
    exact hfirst.trans hsecond
  reached := by
    subst hj
    obtain ⟨S, hstart, hS⟩ := h.reached
    obtain ⟨T, hstart', hT⟩ := h'.reached
    have hsecond (hc : c) (i : Nat) (hi : T i) :
        (k ≤ i ∧ i < k + (m + n) ∧ ∀ j, Flows items i j → S j ∨ c ∧ T j) ∨
          (i = k + (m + n) ∧ c ∧ d) := by
      rcases hT i hi with ⟨hlow, hhigh, hnext⟩ | ⟨rfl, hd⟩
      · exact .inl ⟨by omega, by omega, fun j hflows => .inr ⟨hc, hnext j hflows⟩⟩
      · exact .inr ⟨by omega, hc, hd⟩
    refine ⟨fun i => S i ∨ c ∧ T i, .inl hstart, ?_⟩
    rintro i (hi | ⟨hc, hi⟩)
    · rcases hS i hi with ⟨hlow, hhigh, hnext⟩ | ⟨rfl, hc⟩
      · exact .inl ⟨hlow, by omega, fun j hflows => .inl (hnext j hflows)⟩
      -- the end of the first part is the start of the second
      · exact hsecond hc _ hstart'
    · exact hsecond hc i hi

/-- A part that can be skipped by a jump to the label behind it is passed. -/
theorem skip (hunique : LabelsUnique items) {l : String}
    (hjump : items[k]? = some (.instruction (.transfer .jumpEq l))) (h : Conducts items (k + 1) m c)
    (hlabel : items[k + 1 + m]? = some (.label l)) : Conducts items k (1 + m) True where
  passes _ := by
    rw [← Nat.add_assoc]
    exact .step (Nat.le_refl k) (by omega) (.jump hjump rfl hlabel)
  reached := by
    obtain ⟨S, hstart, hS⟩ := h.reached
    refine ⟨fun i => i = k ∨ S i ∨ i = k + 1 + m, .inl rfl, ?_⟩
    rintro i (rfl | hi | rfl)
    · refine .inl ⟨Nat.le_refl _, by omega, fun j hflows => ?_⟩
      rcases hflows.cases_of_getElem? hjump with ⟨-, rfl⟩ | ⟨l', hl', hj⟩
      · exact .inr (.inl hstart)
      · cases hl'
        exact .inr (.inr (hunique _ _ _ hj hlabel))
    · rcases hS i hi with ⟨hlow, hhigh, hnext⟩ | ⟨rfl, -⟩
      · exact .inl ⟨by omega, by omega, fun j hflows => .inr (.inl (hnext j hflows))⟩
      · exact .inr ⟨by omega, trivial⟩
    · exact .inr ⟨by omega, trivial⟩

/-- Of two parts, the first of which jumps over the second, one has to be passed. -/
theorem choice (hunique : LabelsUnique items) {fail finish : String}
    (hfailing : items[k]? = some (.instruction (.transfer .jumpEq fail)))
    (h : Conducts items (k + 1) m c)
    (hfinishing : items[k + 1 + m]? = some (.instruction (.transfer .jump finish)))
    (hfail : items[k + 1 + m + 1]? = some (.label fail)) (h' : Conducts items (k + 1 + m + 2) n d)
    (hfinish : items[k + 1 + m + 2 + n]? = some (.label finish)) :
    Conducts items k (1 + m + 2 + n) (c ∨ d) where
  passes := by
    have hend : k + (1 + m + 2 + n) = k + 1 + m + 2 + n := by omega
    rw [hend]
    rintro (hc | hd)
    · have henter : Passes items k (k + 1 + m + 2 + n) k (k + 1) :=
        .step (Nat.le_refl k) (by omega) (.next hfailing rfl)
      have hpart :=
        (h.passes hc).mono (Nat.le_add_right k 1) (show k + 1 + m ≤ k + 1 + m + 2 + n by omega)
      exact (henter.trans hpart).trans (.step (by omega) (by omega) (.jump hfinishing rfl hfinish))
    · have hskip : Passes items k (k + 1 + m + 2 + n) k (k + 1 + m + 1) :=
        .step (Nat.le_refl k) (by omega) (.jump hfailing rfl hfail)
      have henter : Passes items k (k + 1 + m + 2 + n) (k + 1 + m + 1) (k + 1 + m + 2) :=
        .step (by omega) (by omega) (.next hfail rfl)
      have hpart := (h'.passes hd).mono (show k ≤ k + 1 + m + 2 by omega) (Nat.le_refl _)
      exact (hskip.trans henter).trans hpart
  reached := by
    obtain ⟨S, hstart, hS⟩ := h.reached
    obtain ⟨T, hstart', hT⟩ := h'.reached
    refine ⟨fun i => i = k ∨ S i ∨ i = k + 1 + m + 1 ∨ T i ∨ (i = k + 1 + m + 2 + n ∧ (c ∨ d)),
      .inl rfl, ?_⟩
    rintro i (rfl | hi | rfl | hi | ⟨rfl, hcd⟩)
    · refine .inl ⟨Nat.le_refl _, by omega, fun j hflows => ?_⟩
      rcases hflows.cases_of_getElem? hfailing with ⟨-, rfl⟩ | ⟨l, hl, hj⟩
      · exact .inr (.inl hstart)
      · cases hl
        exact .inr (.inr (.inl (hunique _ _ _ hj hfail)))
    · rcases hS i hi with ⟨hlow, hhigh, hnext⟩ | ⟨rfl, hc⟩
      · exact .inl ⟨by omega, by omega, fun j hflows => .inr (.inl (hnext j hflows))⟩
      · refine .inl ⟨by omega, by omega, fun j hflows => ?_⟩
        rcases hflows.cases_of_getElem? hfinishing with ⟨hcontinues, -⟩ | ⟨l, hl, hj⟩
        · cases hcontinues
        · cases hl
          exact .inr (.inr (.inr (.inr ⟨hunique _ _ _ hj hfinish, .inl hc⟩)))
    · refine .inl ⟨by omega, by omega, fun j hflows => ?_⟩
      obtain rfl := hflows.eq_succ hfail rfl
      exact .inr (.inr (.inr (.inl hstart')))
    · rcases hT i hi with ⟨hlow, hhigh, hnext⟩ | ⟨rfl, hd⟩
      · exact .inl ⟨by omega, by omega, fun j hflows => .inr (.inr (.inr (.inl (hnext j hflows))))⟩
      · exact .inr ⟨by omega, .inr hd⟩
    · exact .inr ⟨by omega, hcd⟩

/-- A loop is passed by the jump out of it, whether its body can be passed or not. -/
theorem loop (hunique : LabelsUnique items) {top finish : String}
    (htop : items[k]? = some (.label top)) (htest : Conducts items k m True)
    (hleaving : items[k + m]? = some (.instruction (.transfer .jumpEq finish)))
    (h : Conducts items (k + m + 1) n c)
    (hreturning : items[k + m + 1 + n]? = some (.instruction (.transfer .jump top)))
    (hfinish : items[k + m + 1 + n + 1]? = some (.label finish)) :
    Conducts items k (m + 1 + n + 1) True where
  passes _ := by
    have hend : k + (m + 1 + n + 1) = k + m + 1 + n + 1 := by omega
    have hpart :=
      (htest.passes trivial).mono (Nat.le_refl k) (show k + m ≤ k + m + 1 + n + 1 by omega)
    rw [hend]
    exact hpart.trans (.step (by omega) (by omega) (.jump hleaving rfl hfinish))
  reached := by
    obtain ⟨R, hstart, hR⟩ := htest.reached
    obtain ⟨S, hstart', hS⟩ := h.reached
    refine ⟨fun i => R i ∨ S i ∨ i = k + m + 1 + n + 1, .inl hstart, ?_⟩
    rintro i (hi | hi | rfl)
    · rcases hR i hi with ⟨hlow, hhigh, hnext⟩ | ⟨rfl, -⟩
      · exact .inl ⟨hlow, by omega, fun j hflows => .inl (hnext j hflows)⟩
      · refine .inl ⟨by omega, by omega, fun j hflows => ?_⟩
        rcases hflows.cases_of_getElem? hleaving with ⟨-, rfl⟩ | ⟨l, hl, hj⟩
        · exact .inr (.inl hstart')
        · cases hl
          exact .inr (.inr (hunique _ _ _ hj hfinish))
    · rcases hS i hi with ⟨hlow, hhigh, hnext⟩ | ⟨rfl, -⟩
      · exact .inl ⟨by omega, by omega, fun j hflows => .inr (.inl (hnext j hflows))⟩
      · refine .inl ⟨by omega, by omega, fun j hflows => ?_⟩
        rcases hflows.cases_of_getElem? hreturning with ⟨hcontinues, -⟩ | ⟨l, hl, hj⟩
        · cases hcontinues
        · cases hl
          exact .inl (hunique _ _ _ hj htop ▸ hstart)
    · exact .inr ⟨by omega, trivial⟩

end Conducts

/-- A piece of code stands at a line. -/
def Placed (items piece : List Item) (k : Nat) : Prop :=
  ∃ before after, items = before ++ piece ++ after ∧ before.length = k

namespace Placed

variable {items a b piece : List Item} {item : Item} {k j : Nat}

theorem left (h : Placed items (a ++ b) k) : Placed items a k := by
  obtain ⟨before, after, rfl, rfl⟩ := h
  exact ⟨before, b ++ after, by simp, rfl⟩

theorem right (h : Placed items (a ++ b) k) : Placed items b (k + a.length) := by
  obtain ⟨before, after, rfl, rfl⟩ := h
  exact ⟨before ++ a, after, by simp, List.length_append⟩

theorem getElem? (h : Placed items piece k) {i : Nat} (hi : piece[i]? = some item) :
    items[k + i]? = some item := by
  obtain ⟨before, after, rfl, rfl⟩ := h
  have hlt := (List.getElem?_eq_some_iff.mp hi).1
  rwa [List.append_assoc, List.getElem?_append_right (Nat.le_add_right _ _),
    Nat.add_sub_cancel_left, List.getElem?_append_left hlt]

theorem head (h : Placed items (item :: b) k) : items[k]? = some item := by
  have hfirst : (item :: b)[0]? = some item := rfl
  exact h.getElem? hfirst

theorem tail (h : Placed items (item :: b) k) : Placed items b (k + 1) :=
  right (a := [item]) h

theorem conducts_straight (h : Placed items piece k)
    (hpiece : ∀ item ∈ piece, item.isStraight = true) : Conducts items k piece.length True := by
  refine .straight fun i hlow hhigh => ?_
  obtain ⟨j, rfl⟩ := Nat.exists_eq_add_of_le hlow
  have hj : j < piece.length := by omega
  exact ⟨piece[j], h.getElem? (List.getElem?_eq_getElem hj), hpiece _ (List.getElem_mem hj)⟩

theorem conducts_head (h : Placed items (item :: b) k) (hitem : item.isStraight = true) :
    Conducts items k 1 True :=
  conducts_straight (left (a := [item]) h) (by simpa using hitem)

end Placed

namespace Lowering

open Instruction

variable {table : FunctionTable} {globals : Frame}

/-- Whether control can pass a term in its form. -/
def Form.completes : Form → Term → Bool
  | .statement => Term.completes
  | .chain => Term.completesAll

/-- Control runs straight through expressions. -/
theorem Lowers.isStraight {role : Role} {s : Scopes} {t : Term} {code : List Instruction}
    (h : Lowers table role s t code) : ∀ i ∈ code, (Item.instruction i).isStraight = true := by
  have hadd : (Item.instruction (.plain .add)).isStraight = true := rfl
  have hsub : (Item.instruction (.plain .sub)).isStraight = true := rfl
  have hinput : (Item.instruction (.plain .input)).isStraight = true := rfl
  have hsequence (base : Register) (size : Nat) (callee : String) :
      ∀ i ∈ callSequence base size callee, (Item.instruction i).isStraight = true := by
    simp [callSequence, hadd, hsub]
  induction h with
  | number => simp
  | read _ _ _ ih => simpa [or_imp, forall_and] using ih
  | call _ _ _ ih => exact List.forall_mem_append.mpr ⟨ih, hsequence _ _ _⟩
  | binary hmeaning _ _ iha ihb =>
    simpa [or_imp, forall_and] using ⟨iha, ihb, Item.isStraight_operator hmeaning⟩
  | unary hmeaning _ ih =>
    simpa [or_imp, forall_and] using ⟨ih, Item.isStraight_operator hmeaning⟩
  | input => simpa using hinput
  | surplus _ ih => simpa [or_imp, forall_and] using ⟨ih, hinput⟩
  | zero => simp
  | index _ ih => simpa [or_imp, forall_and] using ih
  | nothing => exact List.forall_mem_nil _
  | argument _ _ ihs ihv => simpa [or_imp, forall_and] using ⟨ihs, ihv⟩

theorem Targets.isStraight {s s' : Scopes} {t : Term} {address : Address} {load : List Instruction}
    (h : Targets table s t address load s') :
    ∀ i ∈ load, (Item.instruction i).isStraight = true := by
  cases h with
  | declared _ _ hload => exact hload.isStraight
  | fresh => simp

/-- Instructions that control runs straight through are passed. -/
theorem conducts_ofInstructions {items : List Item} {is : List Instruction} {k : Nat}
    (hplaced : Placed items (Code.ofInstructions is).items k)
    (his : ∀ i ∈ is, (Item.instruction i).isStraight = true) :
    Conducts items k (Code.ofInstructions is).items.length True := by
  refine hplaced.conducts_straight ?_
  rw [Code.items_ofInstructions]
  exact List.forall_mem_map.mpr his

/-- A line and the test of a condition behind it, without the jump. -/
def tested (first : Item) (condition : List Instruction) : List Item :=
  first :: (condition ++ [Instruction.push (.number (.ofNat 0))]).map .instruction

theorem isStraight_tested {first : Item} (hfirst : first.isStraight = true)
    {condition : List Instruction} (h : ∀ i ∈ condition, (Item.instruction i).isStraight = true) :
    ∀ item ∈ tested first condition, item.isStraight = true := by
  simpa [tested, or_imp, forall_and, hfirst] using h

theorem items_ifThen (id : NodeId) (condition : List Instruction) (a : Code) :
    (conditional id condition a none).items =
      tested (.comment "IF") condition ++
        (.instruction (.transfer .jumpEq (id.label "if_fail")) ::
          (a.items ++ [.label (id.label "if_fail")])) := by
  simp [conditional, test, tested]

theorem items_ifElse (id : NodeId) (condition : List Instruction) (a b : Code) :
    (conditional id condition a (some b)).items =
      tested (.comment "IF") condition ++
        (.instruction (.transfer .jumpEq (id.label "if_fail")) ::
          (a.items ++ .instruction (.transfer .jump (id.label "if_end")) ::
            .label (id.label "if_fail") :: (b.items ++ [.label (id.label "if_end")]))) := by
  simp [conditional, test, tested]

theorem items_loop (id : NodeId) (condition : List Instruction) (a : Code) :
    (loop id condition a).items =
      .comment "WHILE" :: (tested (.label (id.label "while")) condition ++
        (.instruction (.transfer .jumpEq (id.label "while_end")) ::
          (a.items ++ [.instruction (.transfer .jump (id.label "while")),
            .label (id.label "while_end")]))) := by
  simp [loop, test, tested]

section Forms

variable {items : List Item} (hunique : LabelsUnique items) {k : Nat} {id : NodeId}
  {condition : List Instruction}
  (hcondition : ∀ i ∈ condition, (Item.instruction i).isStraight = true)
  {a b : Code} {c d : Prop}

include hunique hcondition

theorem conducts_ifThen (hplaced : Placed items (conditional id condition a none).items k)
    (ha : ∀ j, Placed items a.items j → Conducts items j a.items.length c) :
    Conducts items k (conditional id condition a none).items.length True := by
  rw [items_ifThen] at hplaced ⊢
  have htested := hplaced.left.conducts_straight (isStraight_tested rfl hcondition)
  have hpart := hplaced.right.tail
  have hlabel := hpart.right.conducts_straight (by simp)
  have hskip := Conducts.skip hunique hplaced.right.head (ha _ hpart.left) hpart.right.head
  refine (htested.append (hskip.append hlabel (by omega)) rfl).cast ?_ (by simp)
  simp only [List.length_append, List.length_cons, List.length_nil]
  omega

theorem conducts_ifElse (hplaced : Placed items (conditional id condition a (some b)).items k)
    (ha : ∀ j, Placed items a.items j → Conducts items j a.items.length c)
    (hb : ∀ j, Placed items b.items j → Conducts items j b.items.length d) :
    Conducts items k (conditional id condition a (some b)).items.length (c ∨ d) := by
  rw [items_ifElse] at hplaced ⊢
  have htested := hplaced.left.conducts_straight (isStraight_tested rfl hcondition)
  have hpart := hplaced.right.tail
  have hother := hpart.right.tail.tail
  have hlabel := hother.right.conducts_straight (by simp)
  have hchoice := Conducts.choice hunique hplaced.right.head (ha _ hpart.left) hpart.right.head
    hpart.right.tail.head (hb _ hother.left) hother.right.head
  refine (htested.append (hchoice.append hlabel (by omega)) rfl).cast ?_ (by simp)
  simp only [List.length_append, List.length_cons, List.length_nil]
  omega

theorem conducts_loop (hplaced : Placed items (loop id condition a).items k)
    (ha : ∀ j, Placed items a.items j → Conducts items j a.items.length c) :
    Conducts items k (loop id condition a).items.length True := by
  rw [items_loop] at hplaced ⊢
  have hcomment := hplaced.conducts_head rfl
  have hinner := hplaced.tail
  have htested := hinner.left.conducts_straight (isStraight_tested rfl hcondition)
  have hpart := hinner.right.tail
  have hlabel := hpart.right.tail.conducts_straight (by simp)
  have hloop := Conducts.loop hunique hinner.head htested hinner.right.head (ha _ hpart.left)
    hpart.right.head hpart.right.tail.head
  refine (hcomment.append (hloop.append hlabel (by omega)) rfl).cast ?_ (by simp)
  simp only [List.length_append, List.length_cons, List.length_nil]
  omega

end Forms

/-- Control can pass the code of a term exactly if the term can complete. -/
theorem Compiles.conducts {form : Form} {s s' : Scopes} {t : Term} {code : Code}
    (h : Compiles table form s t code s') {items : List Item} (hunique : LabelsUnique items)
    {k : Nat} (hplaced : Placed items code.items k) :
    Conducts items k code.items.length (form.completes t = true) := by
  induction h generalizing k with
  | assign hvalue htarget =>
    refine (conducts_ofInstructions hplaced ?_).cast rfl (by simp [Form.completes, Term.completes])
    simpa [or_imp, forall_and] using ⟨hvalue.isStraight, htarget.isStraight⟩
  | ifThen htest _ _ ih =>
    refine (conducts_ifThen hunique htest.isStraight hplaced fun j => ih).cast rfl ?_
    simp [Form.completes, Term.completes, Term.isAbsent]
  | ifElse htest _ helse _ _ ihthen ihelse =>
    refine (conducts_ifElse hunique htest.isStraight hplaced (fun j => ihthen)
      fun j => ihelse).cast rfl ?_
    simp [Form.completes, Term.completes, helse]
  | whileLoop htest _ _ ih =>
    refine (conducts_loop hunique htest.isStraight hplaced fun j => ih).cast rfl ?_
    simp [Form.completes, Term.completes]
  | @ret _ _ _ _ value hvalue =>
    let ended : List Instruction := value ++ [.pop (some (.register .ax))]
    have hitems :
        (Code.ofInstructions (value ++ [.pop (some (.register .ax)), .plain .ret])).items =
        ended.map .instruction ++ [.instruction (.plain .ret)] := by simp [ended]
    rw [hitems] at hplaced ⊢
    have hstraight : ∀ item ∈ ended.map Item.instruction, item.isStraight = true := by
      simpa [ended, or_imp, forall_and] using hvalue.isStraight
    have hstop := Conducts.stop hplaced.right.head rfl rfl
    refine ((hplaced.left.conducts_straight hstraight).append hstop rfl).cast (by simp) ?_
    simp [Form.completes, Term.completes]
  | display _ _ hload hvalue =>
    refine (conducts_ofInstructions hplaced ?_).cast rfl (by simp [Form.completes, Term.completes])
    have hshw : (Item.instruction (.plain .shw)).isStraight = true := rfl
    simpa [or_imp, forall_and, hshw] using ⟨hload.isStraight, hvalue.isStraight⟩
  | out hvalue =>
    refine (conducts_ofInstructions hplaced ?_).cast rfl (by simp [Form.completes, Term.completes])
    have hout : (Item.instruction (.plain .out)).isStraight = true := rfl
    simpa [or_imp, forall_and, hout] using hvalue.isStraight
  | call hvalue =>
    refine (conducts_ofInstructions hplaced ?_).cast rfl (by simp [Form.completes, Term.completes])
    simpa [or_imp, forall_and] using hvalue.isStraight
  | nil =>
    refine (hplaced.conducts_straight (List.forall_mem_nil _)).cast rfl ?_
    simp [Form.completes, Term.completesAll]
  | cons _ _ ih ihlast =>
    rw [Code.items, Code.view_append] at hplaced ⊢
    refine ((ih hplaced.left).append (ihlast hplaced.right) rfl).cast (by simp) ?_
    simp [Form.completes, Term.completesAll]

/-- Control can pass the block of a function exactly if the body can complete. -/
theorem Defines.conducts {f : Function} {code : Code} {frame : Frame}
    (h : Defines table globals f code frame) {items : List Item} (hunique : LabelsUnique items)
    {k : Nat} (hplaced : Placed items code.items k) :
    Conducts items k code.items.length (f.body.completesAll = true) := by
  obtain ⟨-, start, body, -, hbody, rfl⟩ := h
  simp only [Code.items, Code.view_append, Code.view_label, Code.view_indented,
    Option.toList_some] at hplaced ⊢
  have hlabel := hplaced.conducts_head rfl
  refine (hlabel.append (hbody.conducts hunique hplaced.tail) rfl).cast ?_
    (by simp [Form.completes])
  rw [List.length_append, List.length_singleton]

/-- The label of a function stands at the first line of its block. -/
theorem position_eq {p : Program} {f : Function} {code : Code} {frame : Frame}
    (h : Defines p.functions p.globals f code frame) {a b : Code} (hcode : p.code = a ++ code ++ b)
    (hcount : p.code.labels.count f.name ≤ 1) : p.position f.name = a.length := by
  have hnot := h.name_notMem_before hcount (hcode.trans (List.append_assoc a code b))
  have hbefore : ∀ line ∈ a, decide (line.item ≠ .label f.name) = true := by
    intro line hline
    rw [decide_eq_true_iff]
    intro hitem
    exact hnot (Code.mem_view.mpr ⟨line, hline, by rw [hitem, Item.label?]⟩)
  obtain ⟨-, start, body, -, -, rfl⟩ := h
  rw [Program.position, hcode, List.append_assoc, List.takeWhile_append_of_pos hbefore]
  simp [Code.label]

end Lowering

namespace Code

theorem filterMap_items (code : Code) : code.items.filterMap Item.label? = code.labels := by
  rw [items, filterMap_view]
  rfl

theorem length_items (code : Code) : code.items.length = code.length := by
  simp [view]

end Code

open Lowering in
/-- In a program from a tree, control can run from the label of a function to the point behind its
block without leaving the block if and only if the body of the function can complete. -/
theorem falls_through_iff_body_completes (t : Tree) (p : Program)
    (h : (Arena.ofTree t).compile = .ok p)
    (f : Function) (hf : f ∈ p.functions) : p.FallsThrough f.name ↔ f.body.completesAll = true := by
  obtain ⟨start, bodies, hanatomy⟩ := anatomy_of_compile h
  obtain ⟨a, b, frame, hcode, hdefines, -⟩ := hanatomy.blocks.2 f hf
  have hunique : LabelsUnique p.code.items := by
    apply labelsUnique_of_nodup
    rw [Code.filterMap_items]
    exact hanatomy.nodup_labels (nodup_ids_ofTree t)
  have hplaced : Placed p.code.items (p.block f.name).items a.length := by
    refine ⟨a.items, b.items, ?_, Code.length_items a⟩
    simpa using congrArg Code.items hcode
  have hconducts := hdefines.conducts hunique hplaced
  rw [Program.FallsThrough, position_eq hdefines hcode (hanatomy.count_name hf),
    ← Code.length_items (p.block f.name)]
  exact hconducts.passes_iff

/-- A function whose branch has one part only, and an entry function that returns on both of its
ways. -/
def Tree.leaky : Tree :=
  let x : Tree := .ident "x" .absent
  let one : Tree := .number (.ofNat 1)
  let leave : Tree := .chain .stmt [.keyword .ret .absent one]
  .chain .stmt
    [.keyword .define (.keyword .func (.ident "f" .absent) (.chain .param [x]))
        (.chain .stmt [.keyword .ifThen x (.keyword .decision leave .absent)]),
      .keyword .define (.keyword .func (.ident "main" .absent) .absent)
        (.chain .stmt [.keyword .ifThen one (.keyword .decision leave leave),
          .keyword .whileLoop one leave])]

/-- Control falls out of the first function into the entry function, but not out of that one, where
a loop stands behind a branch that never completes. -/
theorem falls_through_iff_body_completes_leaky :
    (Arena.ofTree .leaky).compile = .ok (.ofTree .leaky) ∧
      (Program.ofTree .leaky).functions.map Function.name = ["f", "main"] ∧
      ∀ f ∈ (Program.ofTree .leaky).functions,
        (Program.ofTree .leaky).FallsThrough f.name ↔ f.name = "f" := by
  have hcompile := compile_ofTree (t := .leaky) (by decide +kernel)
  have hbodies : ∀ f ∈ (Program.ofTree .leaky).functions,
      f.body.completesAll = true ↔ f.name = "f" := by
    decide +kernel
  refine ⟨hcompile, by decide +kernel, fun f hf => ?_⟩
  exact (falls_through_iff_body_completes _ _ hcompile f hf).trans (hbodies f hf)

end StackCompiler
