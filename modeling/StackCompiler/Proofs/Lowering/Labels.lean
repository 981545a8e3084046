import StackCompiler.Proofs.Lowering.Program
import Mathlib.Data.List.Nodup

/-!
# Labels and transfers of control

A generated label tells its kind and its position: the kind ends at the point, and the numeral
behind it determines the position. Names of functions have no point, so no generated label is one of
them.

Statements set each label at most once for each of their positions, and jump to labels of their own.
Expressions set none and do not jump; they call functions of the table only.
-/
namespace StackCompiler

namespace NodeId

theorem digitChar_inj {m n : Nat} (hm : m < 16) (hn : n < 16)
    (h : Nat.digitChar m = Nat.digitChar n) : m = n := by
  have hall : ∀ i j : Fin 16, Nat.digitChar i = Nat.digitChar j → i = j := by decide
  simpa using hall ⟨m, hm⟩ ⟨n, hn⟩ h

theorem toDigits_injective : Function.Injective (Nat.toDigits 16) := by
  intro m
  induction m using Nat.strongRecOn with
  | ind m ih =>
    intro n h
    by_cases hm : m < 16 <;> by_cases hn : n < 16
    · rw [Nat.toDigits_of_lt_base hm, Nat.toDigits_of_lt_base hn] at h
      exact digitChar_inj hm hn (List.singleton_inj.mp h)
    · rw [Nat.toDigits_of_lt_base hm, Nat.toDigits_of_base_le (by decide) (Nat.not_lt.mp hn)] at h
      exact absurd (List.append_eq_singleton_iff.mp h.symm) (by simp)
    · rw [Nat.toDigits_of_lt_base hn, Nat.toDigits_of_base_le (by decide) (Nat.not_lt.mp hm)] at h
      exact absurd (List.append_eq_singleton_iff.mp h) (by simp)
    · rw [Nat.toDigits_of_base_le (by decide) (Nat.not_lt.mp hm),
        Nat.toDigits_of_base_le (by decide) (Nat.not_lt.mp hn)] at h
      obtain ⟨hquotient, hdigit⟩ := List.append_inj' h rfl
      have hdiv : m / 16 = n / 16 := ih (m / 16) (by omega) hquotient
      have hmod := digitChar_inj (Nat.mod_lt m (by decide)) (Nat.mod_lt n (by decide))
        (List.singleton_inj.mp hdigit)
      omega

theorem toList_label (id : NodeId) (kind : String) :
    (id.label kind).toList = kind.toList ++ '.' :: Nat.toDigits 16 id := by
  simp [label]

/-- A label of a kind without a point tells its kind and its position. -/
theorem label_inj {i j : NodeId} {kind kind' : String} (hkind : '.' ∉ kind.toList)
    (hkind' : '.' ∉ kind'.toList) (h : i.label kind = j.label kind') : kind = kind' ∧ i = j := by
  have hlist := congrArg String.toList h
  rw [toList_label, toList_label] at hlist
  have hhead := congrArg (List.takeWhile (· ≠ '.')) hlist
  rw [List.takeWhile_append_of_pos (by simpa using fun c hc => ne_of_mem_of_not_mem hc hkind),
    List.takeWhile_append_of_pos
      (by simpa using fun c hc => ne_of_mem_of_not_mem hc hkind')] at hhead
  obtain rfl : kind = kind' := String.toList_inj.mp (by simpa using hhead)
  have htail := List.append_cancel_left hlist
  exact ⟨rfl, toDigits_injective (List.cons.inj htail).2⟩

/-- The kinds of the labels that statements set. -/
def labelKinds : List String :=
  ["if_fail", "if_end", "while", "while_end"]

theorem point_notMem_labelKinds {kind : String} (h : kind ∈ labelKinds) : '.' ∉ kind.toList := by
  simp only [labelKinds, List.mem_cons, List.not_mem_nil, or_false] at h
  rcases h with rfl | rfl | rfl | rfl <;> decide

/-- The labels that a statement at a position may set. -/
def labels (id : NodeId) : List String :=
  labelKinds.map id.label

theorem point_mem_of_mem_labels {id : NodeId} {l : String} (h : l ∈ labels id) :
    '.' ∈ l.toList := by
  obtain ⟨kind, -, rfl⟩ := List.mem_map.mp h
  rw [toList_label]
  exact List.mem_append_right _ List.mem_cons_self

/-- Different positions have different labels. -/
theorem nodup_flatMap_labels {ids : List NodeId} (h : ids.Nodup) : (ids.flatMap labels).Nodup := by
  rw [List.nodup_flatMap]
  constructor
  · intro id _
    refine List.Nodup.map_on ?_ (by decide)
    intro kind hkind kind' hkind' heq
    exact (label_inj (point_notMem_labelKinds hkind) (point_notMem_labelKinds hkind') heq).1
  · refine h.imp ?_
    intro i j hne l hi hj
    obtain ⟨kind, hkind, rfl⟩ := List.mem_map.mp hi
    obtain ⟨kind', hkind', heq⟩ := List.mem_map.mp hj
    exact hne
      (label_inj (point_notMem_labelKinds hkind') (point_notMem_labelKinds hkind) heq).2.symm

end NodeId

namespace Instruction

/-- The label that a jump goes to. -/
def jumpTarget? : Instruction → Option String
  | .transfer .jump label => some label
  | .transfer .jumpEq label => some label
  | _ => none

/-- The label that a call goes to. -/
def callee? : Instruction → Option String
  | .transfer .call label => some label
  | _ => none

end Instruction

namespace Code

/-- The labels that jumps go to. -/
@[simp] abbrev jumps (code : Code) : List String :=
  code.instructions.filterMap Instruction.jumpTarget?

/-- The labels that calls go to. -/
@[simp] abbrev calls (code : Code) : List String :=
  code.instructions.filterMap Instruction.callee?

end Code

namespace Lowering

open Instruction

variable {table : FunctionTable}

/-- Expressions do not jump. -/
theorem Lowers.jumps {role : Role} {s : Scopes} {t : Term} {code : List Instruction}
    (h : Lowers table role s t code) : code.filterMap jumpTarget? = [] := by
  induction h with
  | number => rfl
  | read _ _ _ ih => simp [ih, List.filterMap_cons, jumpTarget?]
  | call _ _ _ ih =>
    simp [ih, callSequence, List.filterMap_cons, jumpTarget?]
  | binary _ _ _ iha ihb => simp [iha, ihb, List.filterMap_cons, jumpTarget?]
  | unary _ _ ih => simp [ih, List.filterMap_cons, jumpTarget?]
  | input => rfl
  | surplus _ ih => simp [ih, List.filterMap_cons, jumpTarget?]
  | zero => rfl
  | index _ ih => simp [ih, List.filterMap_cons, jumpTarget?]
  | nothing => rfl
  | argument _ _ ihs ihv => simp [ihs, ihv, List.filterMap_cons, jumpTarget?]

/-- Expressions call functions of the table. -/
theorem Lowers.calls {role : Role} {s : Scopes} {t : Term} {code : List Instruction}
    (h : Lowers table role s t code) : code.filterMap callee? ⊆ table.map Function.name := by
  induction h with
  | number => exact List.nil_subset _
  | read _ _ _ ih => simpa [List.filterMap_cons, callee?] using ih
  | call hresolve _ _ ih =>
    have hmem := List.mem_map_of_mem (f := Function.name) (FunctionTable.mem_of_resolve hresolve)
    have hsequence (base : Register) (size : Nat) (name : String) :
        (callSequence base size name).filterMap callee? = [name] := rfl
    rw [List.filterMap_append, hsequence]
    exact List.append_subset.mpr ⟨ih, List.cons_subset.mpr ⟨hmem, List.nil_subset _⟩⟩
  | binary _ _ _ iha ihb => simpa [List.filterMap_cons, callee?] using ⟨iha, ihb⟩
  | unary _ _ ih => simpa [List.filterMap_cons, callee?] using ih
  | input => exact List.nil_subset _
  | surplus _ ih => simpa [List.filterMap_cons, callee?] using ih
  | zero => exact List.nil_subset _
  | index _ ih => simpa [List.filterMap_cons, callee?] using ih
  | nothing => exact List.nil_subset _
  | argument _ _ ihs ihv => simpa [List.filterMap_cons, callee?] using ⟨ihs, ihv⟩

theorem Targets.jumps {s s' : Scopes} {t : Term} {address : Address} {load : List Instruction}
    (h : Targets table s t address load s') : load.filterMap jumpTarget? = [] := by
  cases h with
  | declared _ _ hload => exact hload.jumps
  | fresh => rfl

theorem Targets.calls {s s' : Scopes} {t : Term} {address : Address} {load : List Instruction}
    (h : Targets table s t address load s') : load.filterMap callee? ⊆ table.map Function.name := by
  cases h with
  | declared _ _ hload => exact hload.calls
  | fresh => exact List.nil_subset _

section Forms

variable (id : NodeId) (condition : List Instruction) (a b : Code)

theorem labels_ifThen :
    (conditional id condition a none).labels = a.labels ++ [id.label "if_fail"] := by
  simp [conditional, test]

theorem labels_ifElse :
    (conditional id condition a (some b)).labels =
      a.labels ++ [id.label "if_fail"] ++ b.labels ++ [id.label "if_end"] := by
  simp [conditional, test]

theorem labels_loop :
    (loop id condition a).labels = [id.label "while"] ++ a.labels ++ [id.label "while_end"] := by
  simp [loop, test]

theorem instructions_ifThen :
    (conditional id condition a none).instructions =
      condition ++ [.push (.number (.ofNat 0)), .transfer .jumpEq (id.label "if_fail")] ++
        a.instructions := by
  simp [conditional, test]

theorem instructions_ifElse :
    (conditional id condition a (some b)).instructions =
      condition ++ [.push (.number (.ofNat 0)), .transfer .jumpEq (id.label "if_fail")] ++
        a.instructions ++ [.transfer .jump (id.label "if_end")] ++ b.instructions := by
  simp [conditional, test]

theorem instructions_loop :
    (loop id condition a).instructions =
      condition ++ [.push (.number (.ofNat 0)), .transfer .jumpEq (id.label "while_end")] ++
        a.instructions ++ [.transfer .jump (id.label "while")] := by
  simp [loop, test]

end Forms

/-- Statements set no label more often than their positions allow. -/
theorem Compiles.count_labels {form : Form} {s s' : Scopes} {t : Term} {code : Code}
    (h : Compiles table form s t code s') (l : String) :
    code.labels.count l ≤ (t.ids.flatMap NodeId.labels).count l := by
  induction h with
  | assign => simp
  | ifThen _ _ _ ih =>
    simp only [labels_ifThen, Term.ids, NodeId.labels, NodeId.labelKinds, List.flatMap_append,
      List.flatMap_singleton, List.map_cons, List.count_append, List.count_cons, List.count_nil]
    omega
  | ifElse _ _ _ _ _ ihthen ihelse =>
    simp only [labels_ifElse, Term.ids, NodeId.labels, NodeId.labelKinds, List.flatMap_append,
      List.flatMap_singleton, List.map_cons, List.count_append, List.count_cons, List.count_nil]
    omega
  | whileLoop _ _ _ ih =>
    simp only [labels_loop, Term.ids, NodeId.labels, NodeId.labelKinds, List.flatMap_append,
      List.flatMap_singleton, List.map_cons, List.count_append, List.count_cons, List.count_nil]
    omega
  | ret => simp
  | display => simp
  | out => simp
  | call => simp
  | nil => simp
  | cons _ _ ih ihlast =>
    simp only [Code.labels, Code.view_append, List.count_append, Term.ids,
      List.flatMap_append] at ih ihlast ⊢
    omega

/-- Statements jump to labels of their own. -/
theorem Compiles.jumps_subset {form : Form} {s s' : Scopes} {t : Term} {code : Code}
    (h : Compiles table form s t code s') : code.jumps ⊆ code.labels := by
  induction h with
  | assign hvalue htarget =>
    simp [hvalue.jumps, htarget.jumps, List.filterMap_cons, jumpTarget?]
  | ifThen htest _ _ ih =>
    simp only [Code.jumps, instructions_ifThen, labels_ifThen, List.filterMap_append, htest.jumps,
      List.filterMap_cons, List.filterMap_nil, jumpTarget?] at ih ⊢
    grind
  | ifElse htest _ _ _ _ ihthen ihelse =>
    simp only [Code.jumps, instructions_ifElse, labels_ifElse, List.filterMap_append, htest.jumps,
      List.filterMap_cons, List.filterMap_nil, jumpTarget?] at ihthen ihelse ⊢
    grind
  | whileLoop htest _ _ ih =>
    simp only [Code.jumps, instructions_loop, labels_loop, List.filterMap_append, htest.jumps,
      List.filterMap_cons, List.filterMap_nil, jumpTarget?] at ih ⊢
    grind
  | ret hvalue => simp [hvalue.jumps, List.filterMap_cons, jumpTarget?]
  | display _ _ hload hvalue => simp [hload.jumps, hvalue.jumps, List.filterMap_cons, jumpTarget?]
  | out hvalue => simp [hvalue.jumps, List.filterMap_cons, jumpTarget?]
  | call hvalue => simp [hvalue.jumps, List.filterMap_cons, jumpTarget?]
  | nil => exact List.nil_subset _
  | cons _ _ ih ihlast =>
    simp only [Code.jumps, Code.view_append, List.filterMap_append]
    exact List.append_subset.mpr ⟨List.subset_append_of_subset_left _ ih,
      List.subset_append_of_subset_right _ ihlast⟩

/-- Statements call functions of the table. -/
theorem Compiles.calls_subset {form : Form} {s s' : Scopes} {t : Term} {code : Code}
    (h : Compiles table form s t code s') : code.calls ⊆ table.map Function.name := by
  induction h with
  | assign hvalue htarget =>
    simpa [List.filterMap_cons, callee?] using ⟨hvalue.calls, htarget.calls⟩
  | ifThen htest _ _ ih =>
    simpa [conditional, test, List.filterMap_cons, callee?] using ⟨htest.calls, ih⟩
  | ifElse htest _ _ _ _ ihthen ihelse =>
    simpa [conditional, test, List.filterMap_cons, callee?] using ⟨htest.calls, ihthen, ihelse⟩
  | whileLoop htest _ _ ih =>
    simpa [loop, test, List.filterMap_cons, callee?] using ⟨htest.calls, ih⟩
  | ret hvalue => simpa [List.filterMap_cons, callee?] using hvalue.calls
  | display _ _ hload hvalue =>
    simpa [List.filterMap_cons, callee?] using ⟨hload.calls, hvalue.calls⟩
  | out hvalue => simpa [List.filterMap_cons, callee?] using hvalue.calls
  | call hvalue => simpa [List.filterMap_cons, callee?] using hvalue.calls
  | nil => exact List.nil_subset _
  | cons _ _ ih ihlast =>
    simp only [Code.calls, Code.view_append, List.filterMap_append]
    exact List.append_subset.mpr ⟨ih, ihlast⟩

end Lowering

end StackCompiler
