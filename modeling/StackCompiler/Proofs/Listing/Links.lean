import StackCompiler.Proofs.Listing.ReadBack

/-!
# Links in a listing

Whoever reads a listing leaves out its remarks, which are the lines that start with a semicolon.
Each label that control is transferred to has then one declaration left, except for a function whose
name starts with a semicolon: the name is valid, but the line of its label is a remark.
-/
namespace StackCompiler

open Text Instruction

theorem NodeId.isRemark_of_mem_labels {id : NodeId} {l : String} (h : l ∈ labels id) :
    isRemark l.toList = false := by
  obtain ⟨kind, hkind, rfl⟩ := List.mem_map.mp h
  rw [toList_label]
  simp only [labelKinds, List.mem_cons, List.not_mem_nil, or_false] at hkind
  rcases hkind with rfl | rfl | rfl | rfl <;> rfl

/-- Control is transferred to a label by jumps and by calls. -/
theorem Code.mem_targets {code : Code} {l : String} :
    l ∈ code.instructions.filterMap label? ↔ l ∈ code.jumps ∨ l ∈ code.calls := by
  simp only [jumps, calls, List.mem_filterMap]
  constructor
  · rintro ⟨i, hi, hlabel⟩
    exact (label?_eq_some.mp hlabel).imp (fun hjump => ⟨i, hi, hjump⟩) fun hcall => ⟨i, hi, hcall⟩
  · rintro (⟨i, hi, hjump⟩ | ⟨i, hi, hcall⟩)
    · exact ⟨i, hi, label?_eq_some.mpr (.inl hjump)⟩
    · exact ⟨i, hi, label?_eq_some.mpr (.inr hcall)⟩

namespace Lowering

variable {table : FunctionTable} {globals : Frame}

/-- Jumps go to generated labels. -/
theorem DefinesAll.jumps_generated {fs : List Function} {code : Code}
    {frames : List (String × Frame)}
    (h : DefinesAll table globals fs code frames) {l : String} (hl : l ∈ code.jumps) :
    ∃ id, l ∈ NodeId.labels id := by
  induction h with
  | nil => cases hl
  | cons hdefines _ ih =>
    obtain ⟨-, start, body, -, hbody, rfl⟩ := hdefines
    simp only [Code.jumps, Code.view_append, Code.view_label, Code.view_indented, Item.instruction?,
      Option.toList_none, List.nil_append, List.filterMap_append, List.mem_append] at hl
    rcases hl with hl | hl
    · exact hbody.generated (hbody.jumps_subset hl)
    · exact ih hl

namespace Anatomy

variable {t : Term} {p : Program} {start bodies : Code}

theorem jumps_generated (h : Anatomy t p start bodies) {l : String} (hl : l ∈ p.code.jumps) :
    ∃ id, l ∈ NodeId.labels id := by
  rw [h.jumps_code] at hl
  exact h.definesAll.jumps_generated hl

theorem name_mem_labels (h : Anatomy t p start bodies) {f : Function} (hf : f ∈ p.functions) :
    f.name ∈ p.code.labels := by
  rw [h.labels_code]
  exact h.definesAll.name_mem hf

/-- With an entry function, all labels that control is transferred to are set. -/
theorem targets_subset (h : Anatomy t p start bodies)
    (hentry : (p.functions.get? Program.entry).isSome) :
    p.code.instructions.filterMap label? ⊆ p.code.labels := by
  intro l hl
  rcases Code.mem_targets.mp hl with hjump | hcall
  · exact h.jumps_subset hjump
  · rcases List.mem_cons.mp (h.calls_subset hcall) with rfl | hname
    · obtain ⟨f, hget⟩ := Option.isSome_iff_exists.mp hentry
      obtain ⟨hf, hname⟩ := FunctionTable.get?_eq_some hget
      exact hname ▸ h.name_mem_labels hf
    · obtain ⟨f, hf, rfl⟩ := List.mem_map.mp hname
      exact h.name_mem_labels hf

/-- What is left of the declarations of a label that control is transferred to. -/
theorem count_target (h : Anatomy t p start bodies) (hids : t.ids.Nodup)
    (hentry : (p.functions.get? Program.entry).isSome) (layout : Layout) {l : String}
    (hl : l ∈ p.code.instructions.filterMap label?) :
    (Assembly.effective (p.render layout)).count (l.toList ++ [':']) =
      if isRemark l.toList then 0 else 1 := by
  rw [Program.render, Assembly.count_effective h.opensBlock_head? h.plain,
    List.count_eq_one_of_mem (h.nodup_labels hids) (h.targets_subset hentry hl)]

end Anatomy

end Lowering

open Lowering in
/-- In a listing of a program from a tree with an entry function, each label that a call or a jump
goes to is declared by exactly one line that is not a remark, if and only if no function that is
called has a name which starts with a semicolon. -/
theorem listing_links_iff_no_callee_like_remark (t : Tree) (p : Program)
    (h : (Arena.ofTree t).compile = .ok p) (hentry : (p.functions.get? Program.entry).isSome)
    (layout : Layout) :
    (∀ target ∈ Assembly.targets (p.render layout),
        (Assembly.effective (p.render layout)).count (target.toList ++ [':']) = 1) ↔
      ∀ callee ∈ p.code.calls, callee.toList.head? ≠ some ';' := by
  obtain ⟨start, bodies, hanatomy⟩ := anatomy_of_compile h
  have htargets : Assembly.targets (p.render layout) = p.code.instructions.filterMap label? :=
    Assembly.targets_render hanatomy.opensBlock_head? hanatomy.plain
  have hcount {l : String} := hanatomy.count_target (l := l) (nodup_ids_ofTree t) hentry layout
  rw [htargets]
  constructor
  · intro hlinks callee hcallee hhead
    have hmem := Code.mem_targets.mpr (.inr hcallee)
    have hone := hlinks callee hmem
    rw [hcount hmem, if_pos (by simp [isRemark, hhead])] at hone
    cases hone
  · intro hcallees l hl
    rw [hcount hl, if_neg]
    rcases Code.mem_targets.mp hl with hjump | hcall
    · obtain ⟨id, hid⟩ := hanatomy.jumps_generated hjump
      simp [NodeId.isRemark_of_mem_labels hid]
    · simpa [isRemark] using hcallees l hcall

/-- The calls and jumps of a program with plain names are linked in every layout. -/
theorem listing_links_iff_no_callee_like_remark_countdown :
    (Program.countdown.functions.get? Program.entry).isSome ∧
      Program.countdown.code.calls = ["main", "count"] ∧
      ∀ layout, ∀ target ∈ Assembly.targets (Program.countdown.render layout),
        (Assembly.effective (Program.countdown.render layout)).count
          (target.toList ++ [':']) = 1 := by
  have hentry : (Program.countdown.functions.get? Program.entry).isSome := by decide +kernel
  have hcalls : Program.countdown.code.calls = ["main", "count"] := by decide +kernel
  refine ⟨hentry, hcalls, fun layout => ?_⟩
  refine (listing_links_iff_no_callee_like_remark _ _ compile_countdown hentry layout).mpr ?_
  rw [hcalls]
  decide

/-- An entry function that calls one whose name starts with a semicolon. -/
def Tree.remarked : Tree :=
  .chain .stmt
    [.keyword .define (.keyword .func (.ident ";f" .absent) .absent)
        (.chain .stmt [.keyword .ret .absent (.number (.ofNat 1))]),
      .keyword .define (.keyword .func (.ident "main" .absent) .absent)
        (.chain .stmt [.keyword .ret .absent (.keyword .call (.ident ";f" .absent) .absent)])]

open Lowering in
/-- The program compiles, and its listing calls a function that no line declares but a remark. -/
theorem called_label_lost_in_remark :
    (Arena.ofTree .remarked).compile = .ok (.ofTree .remarked) ∧
      ((Program.ofTree .remarked).functions.get? Program.entry).isSome ∧
      ∀ layout, ";f" ∈ Assembly.targets ((Program.ofTree .remarked).render layout) ∧
        (Assembly.effective ((Program.ofTree .remarked).render layout)).count ";f:".toList = 0 := by
  have hcompile := compile_ofTree (t := .remarked) (by decide +kernel)
  have hentry : ((Program.ofTree .remarked).functions.get? Program.entry).isSome := by
    decide +kernel
  have htarget : ";f" ∈ (Program.ofTree .remarked).code.instructions.filterMap label? := by
    decide +kernel
  obtain ⟨start, bodies, hanatomy⟩ := anatomy_of_compile hcompile
  refine ⟨hcompile, hentry, fun layout => ⟨?_, ?_⟩⟩
  · rwa [Program.render, Assembly.targets_render hanatomy.opensBlock_head? hanatomy.plain]
  · have hremark : isRemark ";f".toList = true := by decide
    have hcolon : ";f".toList ++ [':'] = ";f:".toList := by decide
    have hcount := hanatomy.count_target (nodup_ids_ofTree _) hentry layout htarget
    rwa [hremark, if_pos rfl, hcolon] at hcount

end StackCompiler
