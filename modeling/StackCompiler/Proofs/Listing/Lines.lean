import StackCompiler.Code
import StackCompiler.Proofs.Execution
import StackCompiler.Proofs.Machine.Reading
import Mathlib.Data.List.Basic
import Mathlib.Data.List.Count

/-!
# Listings line by line

A listing is read by its lines, without the blanks around them: a line that ends with a colon
declares a label, one that starts with a semicolon is a remark, an empty line ends a block, and any
other line is an instruction. Where the labels of some code are words without colons, its listing
has exactly the lines of the code, and each is told from its text for what it is.
-/
namespace StackCompiler

namespace Text

/-- The lines of a text, without their line breaks. The last line needs none. -/
def lines (cs : List Char) : List (List Char) :=
  let pieces := cs.splitOn '\n'
  if pieces.getLast? = some [] then pieces.dropLast else pieces

theorem lines_append_break {line : List Char} (h : '\n' ∉ line) (rest : List Char) :
    lines (line ++ '\n' :: rest) = line :: lines rest := by
  unfold lines
  rw [List.splitOn_append_cons_self_of_not_mem h]
  have hne := List.splitOn_ne_nil '\n' rest
  cases hpieces : rest.splitOn '\n' with
  | nil => exact absurd hpieces hne
  | cons piece pieces =>
    simp only [List.getLast?_cons_cons, List.dropLast_cons_cons]
    split_ifs <;> rfl

/-- Lines that are written one by one are read one by one. -/
theorem lines_flatMap {ls : List (List Char)} (h : ∀ l ∈ ls, '\n' ∉ l) :
    lines (ls.flatMap fun l => l ++ ['\n']) = ls := by
  induction ls with
  | nil => rfl
  | cons l ls ih =>
    obtain ⟨hl, hls⟩ := List.forall_mem_cons.mp h
    rw [List.flatMap_cons, List.append_assoc, List.singleton_append, lines_append_break hl, ih hls]

/-- Whether a line declares a label. -/
def isDeclaration (line : List Char) : Bool :=
  line.getLast? == some ':'

/-- Whether a line is for the reader only. -/
def isRemark (line : List Char) : Bool :=
  line.head? == some ';'

/-- Whether a character ends a line or a label. -/
def isEnd (c : Char) : Bool :=
  c == '\n' || c == ':'

/-- A word without a colon. -/
structure IsLabel (cs : List Char) : Prop extends IsWord cs where
  colon : ':' ∉ cs

instance (cs : List Char) : Decidable (IsLabel cs) :=
  decidable_of_iff (IsWord cs ∧ ':' ∉ cs) ⟨fun h => ⟨h.1, h.2⟩, fun h => ⟨h.toIsWord, h.colon⟩⟩

theorem IsLabel.isEnd {cs : List Char} (h : IsLabel cs) {c : Char} (hc : c ∈ cs) :
    isEnd c = false := by
  have hbreak : c ≠ '\n' := by
    rintro rfl
    cases h.solid _ hc
  have hcolon : c ≠ ':' := by
    rintro rfl
    exact h.colon hc
  simp [Text.isEnd, hbreak, hcolon]

theorem isEnd_of_isDigit {c : Char} (h : c.isDigit = true) : isEnd c = false := by
  have hne {d : Char} (hd : d.isDigit = false) : c ≠ d := by
    rintro rfl
    rw [h] at hd
    cases hd
  simp [isEnd, hne (d := '\n') rfl, hne (d := ':') rfl]

end Text

open Text

namespace Assembly

/-- The lines of a listing without the blanks around them. -/
def lines (text : String) : List (List Char) :=
  (Text.lines text.toList).map trim

/-- The lines that are neither empty nor declare a label nor are remarks. -/
def statements (text : String) : List (List Char) :=
  (lines text).filter fun line => !line.isEmpty && !isDeclaration line && !isRemark line

def declarations (text : String) : List (List Char) :=
  (lines text).filter isDeclaration

/-- The lines that are not remarks. -/
def effective (text : String) : List (List Char) :=
  (lines text).filter fun line => !isRemark line

/-- The label that a line transfers control to, if it is read as such an instruction. -/
def target? (line : List Char) : Option String :=
  match Instruction.parse line with
  | .ok i => i.label?
  | .error _ => none

/-- The labels that the lines which are not remarks transfer control to. -/
def targets (text : String) : List String :=
  (effective text).filterMap target?

/-- The pieces between the empty lines. -/
def blocks (text : String) : List (List (List Char)) :=
  (lines text).splitOnP List.isEmpty

end Assembly

namespace Operand

theorem isEnd_of_mem_text {o : Operand} {c : Char} (hc : c ∈ o.text.toList) : isEnd c = false := by
  have hsigns : ∀ c ∈ signs, isEnd c = false := List.all_iff_forall_prop.mp (by decide)
  exact (mem_text_cases hc).elim isEnd_of_isDigit (hsigns c)

end Operand

namespace Mnemonic

theorem head?_name (m : Mnemonic) : ∃ c, m.name.toList.head? = some c ∧ c ≠ ';' := by
  have hall : ∀ m ∈ all, (m.name.toList.head?.all (· != ';')) = true := by decide
  cases hname : m.name.toList with
  | nil => exact absurd hname m.isWord_name.nonempty
  | cons c rest => exact ⟨c, rfl, by simpa [hname] using hall m m.mem_all⟩

theorem lower_eq_of_parse {cs : List Char} {m : Mnemonic} (h : parse cs = .ok m) :
    lower cs = m.name.toList := by
  unfold parse at h
  split at h
  · rename_i n hfind
    cases h
    have hname : m.name = String.ofList (lower cs) := by simpa using List.find?_some hfind
    rw [hname, String.toList_ofList]
  · cases h

theorem isEnd_of_mem_name {m : Mnemonic} {c : Char} (hc : c ∈ m.name.toList) : isEnd c = false := by
  have hall : ∀ m ∈ all, m.name.toList.all (fun c => isEnd c = false) := by decide
  exact List.all_iff_forall_prop.mp (hall m m.mem_all) c hc

end Mnemonic

namespace Instruction

theorem isRemark_text (i : Instruction) : isRemark i.text.toList = false := by
  obtain ⟨c, hc, hne⟩ := i.mnemonic.head?_name
  rw [toList_text, isRemark, List.head?_append, hc]
  simpa using hne

theorem isEnd_of_mem_text {i : Instruction} (hlabel : ∀ l ∈ i.label?, IsLabel l.toList) {c : Char}
    (hc : c ∈ i.text.toList) : isEnd c = false := by
  have hall : ∀ argument ∈ i.argument?, ∀ c ∈ argument.toList, isEnd c = false := by
    intro argument hargument d hd
    cases i with
    | push operand =>
      cases hargument
      exact Operand.isEnd_of_mem_text hd
    | pop operand =>
      obtain ⟨operand, rfl, rfl⟩ := Option.map_eq_some_iff.mp hargument
      exact Operand.isEnd_of_mem_text hd
    | transfer kind label =>
      cases hargument
      exact (hlabel _ rfl).isEnd hd
    | plain operation => cases hargument
  rw [toList_text] at hc
  rcases List.mem_append.mp hc with hc | hc
  · exact Mnemonic.isEnd_of_mem_name hc
  · cases hsome : i.argument? with
    | none => simp [hsome] at hc
    | some argument =>
      rw [hsome] at hc
      rcases List.mem_cons.mp hc with rfl | hc
      · rfl
      · exact hall argument hsome c hc

end Instruction

namespace Item

/-- The text of a line without its margin. -/
def text : Item → String
  | .instruction i => i.text
  | .label name => name ++ ":"
  | .comment text => "; " ++ text

/-- The words that a program chooses itself. -/
def words : Item → List String
  | .instruction i => i.label?.toList
  | .label name => [name]
  | .comment text => [text]

/-- The words of the line are words without a colon. -/
def Plain (item : Item) : Prop :=
  ∀ word ∈ item.words, IsLabel word.toList

theorem text_ne_nil (item : Item) : item.text.toList ≠ [] := by
  cases item with
  | instruction i =>
    rw [text, Instruction.toList_text]
    exact List.append_ne_nil_of_left_ne_nil i.mnemonic.isWord_name.nonempty _
  | label name => simp [text]
  | comment text => simp [Item.text]

namespace Plain

variable {item : Item} (h : item.Plain)

include h

theorem tight : Tight item.text.toList := by
  cases item with
  | instruction i =>
    exact Instruction.tight_text fun l hl => (h l (by simpa [words] using hl)).toIsWord
  | label name =>
    have hname := h name (by simp [words])
    have hcolon : IsWord [':'] := by decide
    simpa [text] using hname.tight.join hcolon.tight hname.nonempty hcolon.nonempty []
  | comment remark =>
    have hremark := h remark (by simp [words])
    have hmark : IsWord [';'] := by decide
    simpa [text] using hmark.tight.join hremark.tight hmark.nonempty hremark.nonempty [' ']

/-- No line ends before its end, and only a label ends with a colon. -/
theorem isEnd_of_mem_text {c : Char} (hc : c ∈ item.text.toList) :
    isEnd c = false ∨ item.label?.isSome = true ∧ c = ':' := by
  cases item with
  | instruction i =>
    exact .inl (Instruction.isEnd_of_mem_text (fun l hl => h l (by simpa [words] using hl)) hc)
  | label name =>
    have hmem : c ∈ name.toList ∨ c = ':' := by simpa [text] using hc
    exact hmem.imp (h name (by simp [words])).isEnd fun hcolon => ⟨rfl, hcolon⟩
  | comment remark =>
    have hmem : c = ';' ∨ c = ' ' ∨ c ∈ remark.toList := by simpa [text] using hc
    rcases hmem with rfl | rfl | hmem
    · exact .inl rfl
    · exact .inl rfl
    · exact .inl ((h remark (by simp [words])).isEnd hmem)

theorem break_notMem : '\n' ∉ item.text.toList := by
  intro hc
  rcases h.isEnd_of_mem_text hc with hend | ⟨-, hcolon⟩
  · cases hend
  · cases hcolon

theorem isDeclaration_text : isDeclaration item.text.toList = item.label?.isSome := by
  cases hlabel : item.label?.isSome with
  | true =>
    cases item with
    | label name => simp [text, isDeclaration]
    | _ => cases hlabel
  | false =>
    rw [isDeclaration, beq_eq_false_iff_ne]
    intro hlast
    rcases h.isEnd_of_mem_text (List.mem_of_getLast? hlast) with hend | ⟨htrue, -⟩
    · cases hend
    · rw [htrue] at hlabel
      cases hlabel

end Plain

end Item

namespace Line

/-- Whether a layout shows a line. -/
def isShown (layout : Layout) (line : Line) : Bool :=
  match line.item with
  | .comment _ => layout.comments
  | _ => true

/-- The blanks before the text of a line. -/
def leading (layout : Layout) (line : Line) : List Char :=
  match line.item with
  | .comment _ => []
  | _ => List.replicate (line.depth * layout.indent) ' '

/-- The lines of a listing that come from a line of code, where `write` gives the line of its text.
-/
def written (layout : Layout) (write : Line → List Char) (line : Line) : List (List Char) :=
  (if line.opensBlock then [[]] else []) ++ if line.isShown layout then [write line] else []

/-- The lines of a listing that come from a line of code, without the blanks around them. -/
def shown (layout : Layout) : Line → List (List Char) :=
  written layout fun line => line.item.text.toList

theorem eq_of_mem_leading {layout : Layout} {line : Line} {c : Char}
    (hc : c ∈ line.leading layout) : c = ' ' := by
  unfold leading at hc
  split at hc
  · cases hc
  · exact List.eq_of_mem_replicate hc

theorem eq_of_mem_written {layout : Layout} {write : Line → List Char} {line : Line} {l : List Char}
    (hl : l ∈ line.written layout write) : l = [] ∨ l = write line := by
  unfold written at hl
  grind

/-- Empty lines stay empty where the others are trimmed. -/
theorem map_trim_written (layout : Layout) (write : Line → List Char) (line : Line) :
    (line.written layout write).map trim = line.written layout fun line => trim (write line) := by
  unfold written
  split_ifs <;> rfl

/-- Only remarks are ever left out. -/
theorem read_eq_none {α : Type} {layout : Layout} {read : Item → Option α}
    (hcomment : ∀ text, read (.comment text) = none) {line : Line}
    (h : line.isShown layout = false) : read line.item = none := by
  unfold isShown at h
  split at h
  · rename_i text hitem
    rw [hitem, hcomment]
  · cases h

theorem toList_renderNext (layout : Layout) (line : Line) :
    (Code.renderNext layout line).toList =
      (line.written layout fun line => line.leading layout ++ line.item.text.toList).flatMap
        fun l => l ++ ['\n'] := by
  obtain ⟨depth, item⟩ := line
  cases item with
  | instruction i =>
    simp [Code.renderNext, opensBlock, render, written, isShown, leading, margin, Item.text]
  | label name =>
    cases depth <;>
      simp [Code.renderNext, opensBlock, render, written, isShown, leading, margin, Item.text]
  | comment text =>
    cases hcomments : layout.comments <;>
      simp [Code.renderNext, opensBlock, render, written, isShown, leading, hcomments, Item.text]

end Line

namespace Code

/-- The first line of a listing that does not open a block is written like the others. -/
theorem toList_render {layout : Layout} {code : Code}
    (hfirst : ∀ line ∈ code.head?, line.opensBlock = false) :
    (code.render layout).toList = code.flatMap fun line => (renderNext layout line).toList := by
  cases code with
  | nil => rfl
  | cons first rest =>
    have hopens : first.opensBlock = false := hfirst first rfl
    simp [render, renderNext, hopens, String.toList_join, List.flatMap_map]

/-- All lines of the code are plain. -/
def Plain (code : Code) : Prop :=
  ∀ line ∈ code, line.item.Plain

end Code

namespace Assembly

variable {code : Code} {layout : Layout}

/-- A listing has the lines of its code. -/
theorem lines_render (hfirst : ∀ line ∈ code.head?, line.opensBlock = false) (hplain : code.Plain) :
    lines (code.render layout) = code.flatMap (Line.shown layout) := by
  have htext : (code.render layout).toList =
      (code.flatMap (Line.written layout fun line =>
        line.leading layout ++ line.item.text.toList)).flatMap
        fun l => l ++ ['\n'] := by
    rw [Code.toList_render hfirst, List.flatMap_assoc]
    simp only [Line.toList_renderNext]
  have htrim : ∀ line ∈ code, trim (line.leading layout ++ line.item.text.toList) =
      line.item.text.toList := by
    intro line hline
    refine trim_indented (fun c hc => ?_) (hplain line hline).tight
    rw [Line.eq_of_mem_leading hc]
    rfl
  rw [lines, htext, lines_flatMap, List.map_flatMap]
  · apply List.flatMap_congr
    intro line hline
    rw [Line.map_trim_written]
    simp only [Line.shown, Line.written, htrim line hline]
  · intro l hl
    obtain ⟨line, hline, hl⟩ := List.mem_flatMap.mp hl
    rcases Line.eq_of_mem_written hl with rfl | rfl
    · exact List.not_mem_nil
    · rw [List.mem_append]
      rintro (hc | hc)
      · cases Line.eq_of_mem_leading hc
      · exact (hplain line hline).break_notMem hc

/-- What a reader takes from a listing, if it takes from each line of code what `read` says. -/
theorem filterMap_lines {α : Type} (hfirst : ∀ line ∈ code.head?, line.opensBlock = false)
    (hplain : code.Plain) (take : List Char → Option α) (read : Item → Option α)
    (hempty : take [] = none) (hread : ∀ line ∈ code, take line.item.text.toList = read line.item)
    (hcomment : ∀ text, read (.comment text) = none) :
    (lines (code.render layout)).filterMap take = code.view read := by
  rw [lines_render hfirst hplain, List.filterMap_flatMap]
  clear hfirst hplain
  induction code with
  | nil => rfl
  | cons line code ih =>
    obtain ⟨hline, hcode⟩ := List.forall_mem_cons.mp hread
    have hshown : (line.shown layout).filterMap take = (read line.item).toList := by
      have hopening : (if line.opensBlock then [[]] else []).filterMap take = [] := by
        split_ifs <;> simp [hempty]
      rw [Line.shown, Line.written, List.filterMap_append, hopening, List.nil_append]
      split_ifs with hshown
      · simp only [List.filterMap_cons, List.filterMap_nil, hline]
        cases read line.item <;> rfl
      · rw [Line.read_eq_none hcomment (by simpa using hshown)]
        rfl
    rw [List.flatMap_cons, ih hcode, hshown, Code.view_cons]

/-- The statements of a listing are the texts of the instructions. -/
theorem statements_render (hfirst : ∀ line ∈ code.head?, line.opensBlock = false)
    (hplain : code.Plain) :
    statements (code.render layout) = code.instructions.map fun i => i.text.toList := by
  have hread : ∀ line ∈ code,
      Option.guard (fun l => !l.isEmpty && !isDeclaration l && !isRemark l) line.item.text.toList =
        line.item.instruction?.map fun i => i.text.toList := by
    intro line hline
    have hdeclaration := (hplain line hline).isDeclaration_text
    have hne := List.isEmpty_eq_false_iff.mpr line.item.text_ne_nil
    cases hitem : line.item with
    | instruction i =>
      have hremark := i.isRemark_text
      rw [hitem] at hdeclaration hne
      simp_all [Option.guard, Item.label?, Item.text, Item.instruction?]
    | label name =>
      rw [hitem] at hdeclaration
      simp [Option.guard, hdeclaration, Item.label?, Item.instruction?]
    | comment text => simp [Option.guard, Item.text, isRemark, Item.instruction?]
  rw [statements, ← List.filterMap_eq_filter, filterMap_lines hfirst hplain _
    (fun item => item.instruction?.map fun i => i.text.toList) rfl hread fun _ => rfl,
    Code.instructions, Code.map_view]

/-- The labels that a listing declares are those of the code. -/
theorem declarations_render (hfirst : ∀ line ∈ code.head?, line.opensBlock = false)
    (hplain : code.Plain) :
    declarations (code.render layout) = code.labels.map fun l => l.toList ++ [':'] := by
  have hread : ∀ line ∈ code, Option.guard isDeclaration line.item.text.toList =
      line.item.label?.map fun l => l.toList ++ [':'] := by
    intro line hline
    rw [Option.guard, (hplain line hline).isDeclaration_text]
    cases line.item <;> simp [Item.label?, Item.text]
  rw [declarations, ← List.filterMap_eq_filter, filterMap_lines hfirst hplain _
    (fun item => item.label?.map fun l => l.toList ++ [':']) rfl hread fun _ => rfl,
    Code.labels, Code.map_view]

/-- A label is declared as often as it is set, except that no declaration is left if it starts like
a remark. -/
theorem count_effective (hfirst : ∀ line ∈ code.head?, line.opensBlock = false)
    (hplain : code.Plain) (l : String) :
    (effective (code.render layout)).count (l.toList ++ [':']) =
      if isRemark l.toList then 0 else code.labels.count l := by
  have hsame : isRemark (l.toList ++ [':']) = isRemark l.toList := by
    cases l.toList <;> rfl
  have hcolon : isDeclaration (l.toList ++ [':']) = true := by simp [isDeclaration]
  have hinjective : Function.Injective fun l : String => l.toList ++ [':'] := by
    intro l m h
    exact String.toList_inj.mp (List.append_cancel_right h)
  rw [effective]
  split_ifs with hremark
  · rw [List.count_eq_zero, List.mem_filter]
    rintro ⟨-, hnot⟩
    simp [hsame, hremark] at hnot
  · rw [List.count_filter (by simpa [hsame] using hremark), ← List.count_filter hcolon,
      ← declarations, declarations_render hfirst hplain, List.count_map_of_injective _ _ hinjective]

theorem target?_label {name : String} (h : IsLabel name.toList) :
    target? (name.toList ++ [':']) = none := by
  have hword : IsWord (name.toList ++ [':']) := by
    refine ⟨List.append_ne_nil_of_left_ne_nil h.nonempty _, ?_⟩
    exact List.forall_mem_append.mpr ⟨h.solid, List.all_iff_forall_prop.mp (by decide)⟩
  have hmnemonic : ∀ m, Mnemonic.parse (name.toList ++ [':']) ≠ .ok m := by
    intro m hm
    have hcolon : ':' ∈ m.name.toList := by
      rw [← Mnemonic.lower_eq_of_parse hm]
      simp [lower]
    cases Mnemonic.isEnd_of_mem_name hcolon
  rw [target?, Instruction.parse, trim_of_tight hword.tight, splitAtBlank_of_isWord hword]
  cases hparse : Mnemonic.parse (name.toList ++ [':']) with
  | error e => simp [hparse]
  | ok m => exact absurd hparse (hmnemonic m)

/-- An instruction transfers control in its text as it does itself, whether its operand can be read
or not. -/
theorem target?_text {i : Instruction} (h : ∀ l ∈ i.label?, IsWord l.toList) :
    target? i.text.toList = i.label? := by
  rw [target?, Instruction.parse_parts h]
  cases i with
  | push operand =>
    simp only [Instruction.mnemonic, Instruction.ofParts, Instruction.argument?, Option.map_some]
    cases Operand.parse operand.text.toList <;> rfl
  | pop operand =>
    cases operand with
    | none => rfl
    | some operand =>
      simp only [Instruction.mnemonic, Instruction.ofParts, Instruction.argument?, Option.map_some]
      cases Operand.parse operand.text.toList <;> rfl
  | transfer kind label =>
    simp only [Instruction.mnemonic, Instruction.ofParts, Instruction.argument?, Option.map_some,
      Instruction.parseLabel_of_isWord (h label rfl)]
    rfl
  | plain operation => rfl

/-- The labels that a listing transfers control to are those of its instructions. -/
theorem targets_render (hfirst : ∀ line ∈ code.head?, line.opensBlock = false)
    (hplain : code.Plain) :
    targets (code.render layout) = code.instructions.filterMap Instruction.label? := by
  have hread : ∀ line ∈ code,
      (if !isRemark line.item.text.toList then target? line.item.text.toList else none) =
        line.item.instruction?.bind Instruction.label? := by
    intro line hline
    have hitem := hplain line hline
    cases hcase : line.item with
    | instruction i =>
      rw [hcase] at hitem
      have hword : ∀ l ∈ i.label?, IsWord l.toList := fun l hl =>
        (hitem l (by simpa [Item.words] using hl)).toIsWord
      simp [Item.text, i.isRemark_text, target?_text hword, Item.instruction?]
    | label name =>
      rw [hcase] at hitem
      have htarget := target?_label (hitem name (by simp [Item.words]))
      simp [Item.text, htarget, Item.instruction?]
    | comment text => simp [Item.text, isRemark, Item.instruction?]
  rw [targets, effective, List.filterMap_filter, filterMap_lines hfirst hplain _
    (fun item => item.instruction?.bind Instruction.label?) rfl hread fun _ => rfl,
    Code.instructions, Code.filterMap_view]

end Assembly

end StackCompiler
