import StackCompiler.Proofs.Addressing
import StackCompiler.Proofs.Listing.Lines
import StackCompiler.Proofs.SlotTracking

/-!
# Programs read back from their listings

All labels of a compiled program are words without colons: names of functions are checked for it,
and generated labels are made so. So each line of its listing is what it is by its text. The shifts
of its operands are words if the program has no more lines than a list can have: a variable ends
within the limit of a frame, and each slot that is reserved above it has a store before it.
-/
namespace StackCompiler

open Text Instruction

namespace NodeId

theorem mem_toDigits {n : Nat} {c : Char} (h : c ∈ Nat.toDigits 16 n) :
    ∃ d < 16, c = Nat.digitChar d := by
  induction n using Nat.strongRecOn with
  | ind n ih =>
    rcases Nat.lt_or_ge n 16 with hn | hn
    · rw [Nat.toDigits_of_lt_base hn, List.mem_singleton] at h
      exact ⟨n, hn, h⟩
    · rw [Nat.toDigits_of_base_le (by decide) hn, List.mem_append, List.mem_singleton] at h
      rcases h with h | h
      · exact ih (n / 16) (by omega) h
      · exact ⟨n % 16, Nat.mod_lt n (by decide), h⟩

theorem isLabel_of_mem_labels {id : NodeId} {l : String} (h : l ∈ labels id) :
    IsLabel l.toList := by
  have hkinds : ∀ kind ∈ labelKinds, IsLabel kind.toList := by decide
  have hdigits : ∀ d : Fin 16, isBlank (Nat.digitChar d) = false ∧ Nat.digitChar d ≠ ':' := by
    decide
  obtain ⟨kind, hkind, rfl⟩ := List.mem_map.mp h
  have hall : ∀ c ∈ (id.label kind).toList, isBlank c = false ∧ c ≠ ':' := by
    rw [toList_label, List.forall_mem_append, List.forall_mem_cons]
    refine ⟨fun c hc => ⟨(hkinds kind hkind).solid c hc, ?_⟩, by decide, fun c hc => ?_⟩
    · rintro rfl
      exact (hkinds kind hkind).colon hc
    obtain ⟨d, hd, rfl⟩ := mem_toDigits hc
    exact hdigits ⟨d, hd⟩
  refine ⟨⟨?_, fun c hc => (hall c hc).1⟩, fun hc => (hall _ hc).2 rfl⟩
  rw [toList_label]
  simp

end NodeId

theorem Function.isLabel_of_isName {name : String} (h : Function.isName name = true) :
    IsLabel name.toList := by
  simp only [Function.isName, Bool.and_eq_true, Bool.not_eq_true', List.any_eq_false,
    Bool.or_eq_true, beq_iff_eq, not_or, Bool.not_eq_true] at h
  obtain ⟨hempty, hall⟩ := h
  refine ⟨⟨?_, fun c hc => (hall c hc).2⟩, fun hc => (hall _ hc).1.2 rfl⟩
  rintro hnil
  rw [String.toList_eq_nil_iff.mp hnil] at hempty
  cases hempty

/-- A label that control is transferred to is the target of a jump or of a call. -/
theorem Instruction.label?_eq_some {i : Instruction} {l : String} :
    i.label? = some l ↔ i.jumpTarget? = some l ∨ i.callee? = some l := by
  cases i with
  | transfer kind label => cases kind <;> simp [label?, jumpTarget?, callee?]
  | _ => simp [label?, jumpTarget?, callee?]

theorem Instruction.inWord_of_address? {i : Instruction}
    (h : ∀ a ∈ i.address?, a.shift < wordLimit) : i.InWord := by
  intro o ho
  cases o with
  | memory a => exact h a (by simp [address?, Option.mem_def.mp ho])
  | address a => exact h a (by simp [address?, Option.mem_def.mp ho])
  | _ => trivial

theorem RealizesAll.exists_use {s : Scopes} {us : List Use} {is : List Instruction}
    (h : RealizesAll s us is) {i : Instruction} (hi : i ∈ is) : ∃ use, Realizes s use i := by
  induction h with
  | nil => cases hi
  | cons hfirst _ ih =>
    rcases List.mem_cons.mp hi with rfl | hi
    · exact ⟨_, hfirst⟩
    · exact ih hi

namespace Scopes.Laid

variable {s : Scopes}

theorem shift_lt (hs : s.Laid) {name : String} {a : Address} (h : s.place? name = some a) :
    a.shift < wordLimit := by
  have hword : Frame.maxSize < wordLimit := by decide
  exact Nat.lt_trans (hs.shift_lt_maxSize h) hword

theorem current_filled (hs : s.Laid) (hstaged : s.current.staged = 0) : s.current.Filled := by
  rw [Frame.Filled, hstaged, Nat.add_zero]
  exact hs.current_tiled.size_eq

end Scopes.Laid

@[simp] def Item.comment? : Item → Option String
  | .comment text => some text
  | _ => none

/-- The remarks in some code. -/
@[simp] abbrev Code.comments (code : Code) : List String :=
  code.view Item.comment?

namespace Lowering

variable {table : FunctionTable} {globals : Frame}

/-- Statements are remarked on by their forms. -/
theorem Compiles.comments_subset {form : Form} {s s' : Scopes} {t : Term} {code : Code}
    (h : Compiles table form s t code s') : code.comments ⊆ ["IF", "WHILE"] := by
  induction h with
  | ifThen _ _ _ ih => simpa [conditional, test] using ih
  | ifElse _ _ _ _ _ ihthen ihelse => simpa [conditional, test] using ⟨ihthen, ihelse⟩
  | whileLoop _ _ _ ih => simpa [loop, test] using ih
  | nil => exact List.nil_subset _
  | cons _ _ ih ihlast =>
    rw [Code.comments, Code.view_append]
    exact List.append_subset.mpr ⟨ih, ihlast⟩
  | _ => simp

theorem Initializes.comments {s s' : Scopes} {ts : List Term} {code : Code}
    (h : Initializes table s ts code s') : code.comments = [] := by
  induction h with
  | nil => rfl
  | assign hassign _ ih =>
    cases hassign
    simp [ih]
  | other _ _ ih => exact ih

theorem DefinesAll.comments_subset {fs : List Function} {code : Code}
    {frames : List (String × Frame)}
    (h : DefinesAll table globals fs code frames) : code.comments ⊆ ["IF", "WHILE"] := by
  induction h with
  | nil => exact List.nil_subset _
  | cons hdefines _ ih =>
    obtain ⟨-, start, body, -, hbody, rfl⟩ := hdefines
    simpa using ⟨hbody.comments_subset, ih⟩

theorem DefinesAll.jumps_subset {fs : List Function} {code : Code} {frames : List (String × Frame)}
    (h : DefinesAll table globals fs code frames) : code.jumps ⊆ code.labels := by
  induction h with
  | nil => exact List.nil_subset _
  | cons hdefines _ ih =>
    simp only [Code.jumps, Code.labels, Code.view_append, List.filterMap_append]
    exact List.append_subset.mpr ⟨List.subset_append_of_subset_left _ hdefines.jumps_subset,
      List.subset_append_of_subset_right _ ih⟩

theorem DefinesAll.calls_subset {fs : List Function} {code : Code} {frames : List (String × Frame)}
    (h : DefinesAll table globals fs code frames) : code.calls ⊆ table.map Function.name := by
  induction h with
  | nil => exact List.nil_subset _
  | cons hdefines _ ih =>
    simp only [Code.calls, Code.view_append, List.filterMap_append]
    exact List.append_subset.mpr ⟨hdefines.calls_subset, ih⟩

/-- Each slot that is reserved comes from an instruction. -/
theorem Tracks.staged_le {start f : Frame} {is : List Instruction} (h : Tracks table start is f) :
    f.staged ≤ start.staged + is.length := by
  induction h with
  | start => exact Nat.le_refl _
  | step _ hstep ih =>
    rw [List.length_append, List.length_singleton]
    cases hstep with
    | neutral => omega
    | store => omega
    | declare _ hdeclare =>
      have hsame := (Frame.extends_of_declare hdeclare).staged
      omega
    | stage =>
      simp only [Frame.reserve]
      omega
    | call =>
      simp only [Frame.reserve] at ih
      omega

/-- An argument is stored behind the variables, and behind no more slots than there are
instructions. -/
theorem Tracks.slot_le {start g : Frame} {is : List Instruction} (h : Tracks table start is g)
    (hfilled : start.Filled) (hstaged : start.staged = 0) {base : Register} {n : Nat}
    (hmem : .pop (some (.memory ⟨base, n, none⟩)) ∈ is) :
    n ≤ Frame.slots g.declared + is.length := by
  induction h with
  | start => cases hmem
  | @step is f g i hbefore hstep ih =>
    obtain ⟨rest, hrest⟩ := hstep.declared
    have hslots : Frame.slots g.declared = Frame.slots f.declared + Frame.slots rest := by
      rw [← hrest, Frame.slots_append]
    rw [List.length_append, List.length_singleton]
    rcases List.mem_append.mp hmem with hmem | hmem
    · have hn := ih hmem
      omega
    · obtain rfl := List.mem_singleton.mp hmem
      cases hstep with
      | neutral hneutral => cases hneutral
      | store hindex => cases hindex
      | stage =>
        have hsize : f.size = Frame.slots f.declared + f.staged := hbefore.filled hfilled
        have hle := hbefore.staged_le
        omega

/-- Code whose operands belong to the frames, and whose arguments are stored at words, has words for
shifts. -/
theorem inWord_of_realizes {s : Scopes} (hs : s.Laid) {us : List Use} {is : List Instruction}
    (h : RealizesAll s us (operands is))
    (hslots : ∀ base n, .pop (some (.memory ⟨base, n, none⟩)) ∈ is → n < wordLimit) :
    ∀ i ∈ is, i.InWord := by
  intro i hi
  apply inWord_of_address?
  intro a ha
  have hoperand : i ∈ operands is := List.mem_filter.mpr ⟨hi, by rw [ha]; rfl⟩
  obtain ⟨use, hrealizes⟩ := h.exists_use hoperand
  cases hrealizes with
  | read hplace =>
    cases ha
    exact hs.shift_lt hplace
  | write hplace =>
    cases ha
    exact hs.shift_lt hplace
  | shown hplace =>
    cases ha
    exact hs.shift_lt hplace
  | argument =>
    cases ha
    exact hslots _ _ hi

/-- The shifts in the code of some statements are words, where these are not too many. -/
theorem inWord_of_tracks {s s' : Scopes} {us : List Use} {code : Code} (hs' : s'.Laid)
    (hrealizes : RealizesAll s' us code.operands) (hfilled : s.current.Filled)
    (hstaged : s.current.staged = 0) (htracks : Tracks table s.current code.instructions s'.current)
    (hlength : code.length < 2 ^ 63) : ∀ i ∈ code.instructions, i.InWord := by
  refine inWord_of_realizes hs' hrealizes fun base n hmem => ?_
  have hslot := htracks.slot_le hfilled hstaged hmem
  have htiled := hs'.current_tiled
  have hsize : Frame.slots s'.current.declared ≤ Frame.maxSize := htiled.size_eq ▸ htiled.bounded
  have hinstructions : code.instructions.length ≤ code.length := List.length_filterMap_le _ _
  have hlimit : 2 ^ 63 + Frame.maxSize < wordLimit := by decide
  omega

theorem Initializes.inWord {s s' : Scopes} {ts : List Term} {code : Code}
    (h : Initializes table s ts code s') (hs : s.Laid) (hstaged : s.current.staged = 0)
    (hlength : code.length < 2 ^ 63) : ∀ i ∈ code.instructions, i.InWord :=
  inWord_of_tracks (h.laid hs) (h.realizes hs.toBased) (hs.current_filled hstaged) hstaged
    (h.tracks ⟨hs.toBased, hstaged⟩ .start) hlength

theorem Defines.inWord {f : Function} {code : Code} {frame : Frame}
    (h : Defines table globals f code frame) (hglobals : Scopes.Laid ⟨globals, none⟩)
    (hlength : code.length < 2 ^ 63) : ∀ i ∈ code.instructions, i.InWord := by
  obtain ⟨-, start, body, hdeclares, hbody, rfl⟩ := h
  have hlaid := hdeclares.laid hglobals.enter
  have hstaged : start.staged = 0 := hdeclares.extends.staged
  have hbodyLength : body.length < 2 ^ 63 := by
    rw [List.length_append, Code.indented, List.length_map] at hlength
    omega
  have hbodyWords := inWord_of_tracks (hbody.laid hlaid) (hbody.realizes hlaid.toBased)
    (hlaid.current_filled hstaged) hstaged (hbody.tracks ⟨hlaid.toBased, hstaged⟩ .start)
    hbodyLength
  simpa using hbodyWords

theorem DefinesAll.inWord {fs : List Function} {code : Code} {frames : List (String × Frame)}
    (h : DefinesAll table globals fs code frames) (hglobals : Scopes.Laid ⟨globals, none⟩)
    (hlength : code.length < 2 ^ 63) : ∀ i ∈ code.instructions, i.InWord := by
  induction h with
  | nil => exact List.forall_mem_nil _
  | cons hdefines _ ih =>
    rw [List.length_append] at hlength
    rw [Code.instructions, Code.view_append, List.forall_mem_append]
    exact ⟨hdefines.inWord hglobals (by omega), ih (by omega)⟩

namespace Anatomy

variable {t : Term} {p : Program} {start bodies : Code}

theorem isLabel_of_mem_labels (h : Anatomy t p start bodies) {l : String} (hl : l ∈ p.code.labels) :
    IsLabel l.toList := by
  rw [h.labels_code] at hl
  have hcount := Nat.lt_of_lt_of_le (List.count_pos_iff.mpr hl) (h.definesAll.count_labels l)
  rcases Nat.add_pos_iff_pos_or_pos.mp hcount with hname | hgenerated
  · obtain ⟨f, hf, rfl⟩ := List.mem_map.mp (List.count_pos_iff.mp hname)
    exact Function.isLabel_of_isName (h.wellNamed.isName f hf)
  · obtain ⟨id, -, hid⟩ := List.mem_flatMap.mp (List.count_pos_iff.mp hgenerated)
    exact NodeId.isLabel_of_mem_labels hid

/-- All jumps of a program are in its functions. -/
theorem jumps_code (h : Anatomy t p start bodies) : p.code.jumps = bodies.jumps := by
  have hinitializers := h.initializes.jumps
  simp only [h.code, Code.jumps, Code.view_append, List.filterMap_append] at hinitializers ⊢
  rw [hinitializers]
  rfl

theorem jumps_subset (h : Anatomy t p start bodies) : p.code.jumps ⊆ p.code.labels := by
  rw [h.labels_code, h.jumps_code]
  exact h.definesAll.jumps_subset

theorem calls_subset (h : Anatomy t p start bodies) :
    p.code.calls ⊆ Program.entry :: p.functions.map Function.name := by
  have hpreamble : (preamble p.globals.size).calls = [Program.entry] := rfl
  simp only [h.code, Code.calls, Code.view_append, List.filterMap_append] at hpreamble ⊢
  rw [hpreamble]
  refine List.append_subset.mpr ⟨List.append_subset.mpr ⟨?_, by simp⟩, ?_⟩
  · exact List.subset_cons_of_subset _ h.initializes.calls_subset
  · exact List.subset_cons_of_subset _ h.definesAll.calls_subset

theorem comments_subset (h : Anatomy t p start bodies) : p.code.comments ⊆ ["IF", "WHILE"] := by
  have hinitializers := h.initializes.comments
  simp only [h.code, Code.comments, Code.view_append] at hinitializers ⊢
  rw [hinitializers]
  exact h.definesAll.comments_subset

/-- Every line of a program is told by its text. -/
theorem plain (h : Anatomy t p start bodies) : p.code.Plain := by
  have hname : ∀ f ∈ p.functions, IsLabel f.name.toList := fun f hf =>
    Function.isLabel_of_isName (h.wellNamed.isName f hf)
  have hentry : IsLabel Program.entry.toList := by decide
  have hforms : ∀ form ∈ ["IF", "WHILE"], IsLabel form.toList := by decide
  intro line hline word hword
  cases hitem : line.item with
  | instruction i =>
    have hi : i ∈ p.code.instructions := 
      Code.mem_view.mpr ⟨line, hline, by rw [hitem, Item.instruction?]⟩
    have hlabel : i.label? = some word := by simpa [hitem, Item.words] using hword
    rcases Instruction.label?_eq_some.mp hlabel with hjump | hcall
    · exact h.isLabel_of_mem_labels (h.jumps_subset (List.mem_filterMap.mpr ⟨i, hi, hjump⟩))
    · rcases List.mem_cons.mp (h.calls_subset (List.mem_filterMap.mpr ⟨i, hi, hcall⟩)) with
        rfl | hmem
      · exact hentry
      · obtain ⟨f, hf, rfl⟩ := List.mem_map.mp hmem
        exact hname f hf
  | label name =>
    obtain rfl : word = name := by simpa [hitem, Item.words] using hword
    exact h.isLabel_of_mem_labels (Code.mem_view.mpr ⟨line, hline, by rw [hitem, Item.label?]⟩)
  | comment text =>
    obtain rfl : word = text := by simpa [hitem, Item.words] using hword
    have hmem : word ∈ p.code.comments :=
      Code.mem_view.mpr ⟨line, hline, by rw [hitem, Item.comment?]⟩
    exact hforms word (h.comments_subset hmem)

theorem inWord (h : Anatomy t p start bodies) (hlength : p.code.length < 2 ^ 63) :
    ∀ i ∈ p.code.instructions, i.InWord := by
  have hpreamble : ∀ i ∈ (preamble p.globals.size).instructions, i.InWord := by
    simp [preamble, InWord, operand?, Operand.InWord]
  rw [h.code, List.length_append, List.length_append] at hlength
  simp only [h.code, Code.instructions, Code.view_append, List.forall_mem_append]
  exact ⟨⟨h.initializes.inWord .empty rfl (by omega), hpreamble⟩,
    h.definesAll.inWord h.laid (by omega)⟩

theorem opensBlock_opening (h : Anatomy t p start bodies) :
    ∀ line ∈ p.opening, line.opensBlock = false := by
  intro line hline
  have hlabels : p.opening.labels = [] := by rw [h.opening_eq, h.labels_opening]
  cases hitem : line.item with
  | label name =>
    have hmem : name ∈ p.opening.labels :=
      Code.mem_view.mpr ⟨line, hline, by rw [hitem, Item.label?]⟩
    rw [hlabels] at hmem
    cases hmem
  | _ => simp [Line.opensBlock, hitem]

theorem opening_ne_nil (h : Anatomy t p start bodies) : p.opening ≠ [] := by
  rw [h.opening_eq]
  exact List.append_ne_nil_of_right_ne_nil _ (List.cons_ne_nil _ _)

/-- The listing does not start with an empty line. -/
theorem opensBlock_head? (h : Anatomy t p start bodies) :
    ∀ line ∈ p.code.head?, line.opensBlock = false := by
  intro line hline
  rw [h.blocks.1, List.head?_append_of_ne_nil _ h.opening_ne_nil] at hline
  exact h.opensBlock_opening line (List.mem_of_mem_head? hline)

end Anatomy

end Lowering

theorem Line.ne_nil_of_mem_shown {layout : Layout} {line : Line} (hline : line.opensBlock = false)
    {l : List Char} (hl : l ∈ line.shown layout) : l ≠ [] := by
  simp only [shown, written, hline, Bool.false_eq_true, if_false, List.nil_append] at hl
  split_ifs at hl
  · rw [List.mem_singleton.mp hl]
    exact line.item.text_ne_nil
  · cases hl

/-- Pieces without empty lines are found again if empty lines are put between them. -/
theorem Assembly.splitOnP_flatMap {first : List (List Char)} {rest : List (List (List Char))}
    (hfirst : ∀ l ∈ first, l ≠ []) (hrest : ∀ piece ∈ rest, ∀ l ∈ piece, l ≠ []) :
    (first ++ rest.flatMap ([] :: ·)).splitOnP List.isEmpty = first :: rest := by
  induction rest generalizing first with
  | nil =>
    rw [List.flatMap_nil, List.append_nil]
    exact List.splitOnP_eq_singleton (by simpa using hfirst)
  | cons piece rest ih =>
    obtain ⟨hpiece, hrest⟩ := List.forall_mem_cons.mp hrest
    rw [List.flatMap_cons, List.cons_append,
      List.splitOnP_append_cons_of_forall_mem (by simpa using hfirst) _ rfl, ih hpiece hrest]

namespace Lowering

/-- The listing of a function's block, behind the empty line that sets it off. -/
theorem Defines.shown {table : FunctionTable} {globals : Frame} {f : Function} {code : Code}
    {frame : Frame} (h : Defines table globals f code frame) (layout : Layout) :
    ∃ piece, code.flatMap (Line.shown layout) = [] :: piece ∧
      piece.head? = some (f.name.toList ++ [':']) ∧ ∀ l ∈ piece, l ≠ [] := by
  obtain ⟨-, start, body, -, -, rfl⟩ := h
  have hindented : ∀ line ∈ body.indented, line.opensBlock = false := by
    intro line hline
    obtain ⟨line, -, rfl⟩ := List.mem_map.mp hline
    unfold Line.opensBlock
    split <;> rfl
  refine ⟨(f.name.toList ++ [':']) :: body.indented.flatMap (Line.shown layout), ?_, rfl, ?_⟩
  · simp [Code.label, Line.shown, Line.written, Line.opensBlock, Line.isShown, Item.text]
  · rw [List.forall_mem_cons]
    refine ⟨by simp, fun l hl => ?_⟩
    obtain ⟨line, hline, hl⟩ := List.mem_flatMap.mp hl
    exact Line.ne_nil_of_mem_shown (hindented line hline) hl

theorem pieces_of_defines {p : Program} (layout : Layout) {fs : List Function}
    (h : ∀ f ∈ fs, ∃ frame, Defines p.functions p.globals f (p.block f.name) frame) :
    ∃ rest, (fs.flatMap fun f => (p.block f.name).flatMap (Line.shown layout)) =
        rest.flatMap ([] :: ·) ∧
      List.Forall₂ (fun f piece => piece.head? = some (f.name.toList ++ [':'])) fs rest ∧
      ∀ piece ∈ rest, ∀ l ∈ piece, l ≠ [] := by
  induction fs with
  | nil => exact ⟨[], rfl, .nil, List.forall_mem_nil _⟩
  | cons f fs ih =>
    obtain ⟨⟨frame, hdefines⟩, hfs⟩ := List.forall_mem_cons.mp h
    obtain ⟨piece, hpiece, hhead, hne⟩ := hdefines.shown layout
    obtain ⟨rest, hrest, hheads, hall⟩ := ih hfs
    refine ⟨piece :: rest, ?_, .cons hhead hheads, List.forall_mem_cons.mpr ⟨hne, hall⟩⟩
    rw [List.flatMap_cons, List.flatMap_cons, hpiece, hrest]

/-- A listing falls into the opening and one piece for each function, which starts with its label.
-/
theorem Anatomy.blocks_render {t : Term} {p : Program} {start bodies : Code}
    (h : Anatomy t p start bodies) (layout : Layout) :
    ∃ first rest, Assembly.blocks (p.render layout) = first :: rest ∧ first ≠ [] ∧
      List.Forall₂ (fun f piece => piece.head? = some (f.name.toList ++ [':']))
        p.functions rest := by
  obtain ⟨hcode, hblocks⟩ := h.blocks
  have hdefines : ∀ f ∈ p.functions,
      ∃ frame, Defines p.functions p.globals f (p.block f.name) frame := by
    intro f hf
    obtain ⟨-, -, frame, -, hdefines, -⟩ := hblocks f hf
    exact ⟨frame, hdefines⟩
  obtain ⟨rest, hrest, hheads, hall⟩ := pieces_of_defines layout hdefines
  have hopening : ∀ l ∈ p.opening.flatMap (Line.shown layout), l ≠ [] := by
    intro l hl
    obtain ⟨line, hline, hl⟩ := List.mem_flatMap.mp hl
    exact Line.ne_nil_of_mem_shown (h.opensBlock_opening line hline) hl
  refine ⟨p.opening.flatMap (Line.shown layout), rest, ?_, ?_, hheads⟩
  · rw [Assembly.blocks, Program.render, Assembly.lines_render h.opensBlock_head? h.plain, hcode,
      List.flatMap_append, List.flatMap_assoc, hrest]
    exact Assembly.splitOnP_flatMap hopening hall
  · intro hnil
    have hhalt : ⟨0, .instruction (.plain .halt)⟩ ∈ p.opening := by
      rw [h.opening_eq]
      exact List.mem_append_right _ (by simp [preamble, Code.ofInstructions])
    have hshown := List.flatMap_eq_nil_iff.mp hnil _ hhalt
    simp [Line.shown, Line.written, Line.isShown] at hshown

end Lowering

open Lowering in
/-- The listing of a compiled program reads back to the program, in every layout: its statements are
read as the instructions of the code, with one NaN for all, the labels that it declares are those of
the code, and its empty lines cut it into the opening and one block for each function, in their
order and under its label. A program has fewer lines than a list can have. -/
theorem listing_reads_back (a : Arena) (p : Program) (h : a.compile = .ok p)
    (hlength : p.code.length < 2 ^ 63) (layout : Layout) :
    (Assembly.statements (p.render layout)).map parse =
        p.code.instructions.map (fun i => .ok i.canonical) ∧
      Assembly.declarations (p.render layout) = p.code.labels.map (fun l => l.toList ++ [':']) ∧
      ∃ first rest, Assembly.blocks (p.render layout) = first :: rest ∧ first ≠ [] ∧
        List.Forall₂ (fun f piece => piece.head? = some (f.name.toList ++ [':']))
          p.functions rest := by
  obtain ⟨start, bodies, hanatomy⟩ := anatomy_of_compile h
  have hfirst := hanatomy.opensBlock_head?
  have hplain := hanatomy.plain
  refine ⟨?_, Assembly.declarations_render hfirst hplain, hanatomy.blocks_render layout⟩
  rw [Program.render, Assembly.statements_render hfirst hplain, List.map_map]
  apply List.map_congr_left
  intro i hi
  obtain ⟨line, hline, hread⟩ := Code.mem_view.mp hi
  have hitem : line.item = .instruction i := by
    cases hcase : line.item <;> simp [hcase] at hread
    rw [hread]
  have hlabel : ∀ l ∈ i.label?, IsWord l.toList := by
    intro l hl
    have hword := hplain line hline l
    rw [hitem] at hword
    exact (hword (by simpa [Item.words] using hl)).toIsWord
  rw [Function.comp_apply]
  exact parse_text (hanatomy.inWord hlength i hi) hlabel

/-- With a narrow margin and without remarks, a loop, a branch and a call are read back, and there
are blocks for the opening and for both functions. -/
theorem listing_reads_back_countdown :
    Program.countdown.code.length < 2 ^ 63 ∧
      (Assembly.statements (Program.countdown.render ⟨1, false⟩)).map parse =
        Program.countdown.code.instructions.map Except.ok ∧
      Assembly.declarations (Program.countdown.render ⟨1, false⟩) =
        Program.countdown.code.labels.map (fun l => l.toList ++ [':']) ∧
      (Assembly.blocks (Program.countdown.render ⟨1, false⟩)).length = 3 := by
  have hlength : Program.countdown.code.length < 2 ^ 63 := by decide +kernel
  obtain ⟨hstatements, hdeclarations, first, rest, hblocks, -, hheads⟩ :=
    listing_reads_back _ _ compile_countdown hlength ⟨1, false⟩
  have hfunctions : Program.countdown.functions.length = 2 := by decide +kernel
  have hnumbers : ∀ i ∈ Program.countdown.code.instructions, i.carriesNaN = false := by
    decide +kernel
  refine ⟨hlength, hstatements.trans ?_, hdeclarations, ?_⟩
  · exact List.map_congr_left fun i hi => congrArg _ (canonical_of_carriesNaN (hnumbers i hi))
  rw [hblocks, List.length_cons, ← hheads.length_eq, hfunctions]

end StackCompiler
