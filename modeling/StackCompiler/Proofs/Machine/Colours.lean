import StackCompiler.CommandLine.Terminal
import StackCompiler.Proofs.Machine.Reading

/-!
# Coloured instructions read back

A terminal shows a coloured text without its colour sequences: an escape sign, a bracket, numbers
with semicolons between them, and an `m`. A text without escape signs is shown as it is, whatever
brackets are in it. All that is asked of a terminal is that it changes styles by colour sequences,
whichever these are.

What is shown of a coloured instruction is its mnemonic, blanks that fill it up to the width, and
its argument. A mnemonic that takes an argument is shorter than the width, so at least one blank
stands between the two, and the reader does not mind how many. So it reads the same instruction as
from the plain text.
-/
namespace StackCompiler

namespace Text

def escape : Char := '\x1b'

/-- Whether a character may stand between the bracket and the `m` of a colour sequence. -/
def isColourCode (c : Char) : Bool :=
  c.isDigit || c == ';'

/-- What stands after the colour sequence at the start, if there is one. -/
def afterSequence? : List Char → Option (List Char)
  | c :: '[' :: rest =>
    if c = escape then
      match rest.dropWhile isColourCode with
      | 'm' :: after => some after
      | _ => none
    else none
  | _ => none

theorem length_lt_of_afterSequence? {cs after : List Char} (h : afterSequence? cs = some after) :
    after.length < cs.length := by
  unfold afterSequence? at h
  split at h
  · rename_i c rest
    split_ifs at h
    split at h
    · rename_i rest' hdrop
      cases h
      have hsuffix := (List.dropWhile_suffix isColourCode (l := rest)).length_le
      rw [hdrop] at hsuffix
      simp only [List.length_cons] at hsuffix ⊢
      omega
    · cases h
  · cases h

/-- The text without its colour sequences. -/
def uncoloured (cs : List Char) : List Char :=
  match _ : afterSequence? cs with
  | some after => uncoloured after
  | none =>
    match cs with
    | [] => []
    | c :: rest => c :: uncoloured rest
termination_by cs.length
decreasing_by
  · exact length_lt_of_afterSequence? ‹_›
  · simp

theorem uncoloured_of_sequence {cs after : List Char} (h : afterSequence? cs = some after) :
    uncoloured cs = uncoloured after := by
  rw [uncoloured]
  split
  · rename_i after' h'
    rw [h, Option.some.injEq] at h'
    rw [h']
  · rename_i h'
    rw [h] at h'
    cases h'

/-- Colour sequences and nothing else. -/
inductive ColourRun : List Char → Prop
  | nil : ColourRun []
  | sequence {codes rest : List Char} : (∀ c ∈ codes, isColourCode c = true) → ColourRun rest →
      ColourRun (escape :: '[' :: (codes ++ 'm' :: rest))

theorem ColourRun.append {a b : List Char} (ha : ColourRun a) (hb : ColourRun b) :
    ColourRun (a ++ b) := by
  induction ha with
  | nil => exact hb
  | sequence hcodes _ ih => simpa using ColourRun.sequence hcodes ih

theorem afterSequence?_sequence {codes : List Char} (h : ∀ c ∈ codes, isColourCode c = true)
    (rest : List Char) : afterSequence? (escape :: '[' :: (codes ++ 'm' :: rest)) = some rest := by
  have hdrop : (codes ++ 'm' :: rest).dropWhile isColourCode = 'm' :: rest := by
    rw [List.dropWhile_append_of_pos h]
    rfl
  simp only [afterSequence?, if_true, hdrop]

/-- Colour sequences are not seen. -/
theorem ColourRun.uncoloured_append {run : List Char} (h : ColourRun run) (rest : List Char) :
    uncoloured (run ++ rest) = uncoloured rest := by
  induction h with
  | nil => rfl
  | @sequence codes run hcodes _ ih =>
    have hafter := afterSequence?_sequence hcodes (run ++ rest)
    rw [← ih, ← uncoloured_of_sequence hafter]
    simp

theorem afterSequence?_of_ne {c : Char} (h : c ≠ escape) (rest : List Char) :
    afterSequence? (c :: rest) = none := by
  unfold afterSequence?
  split
  · rename_i heq
    cases heq
    exact if_neg h
  · rfl

/-- A text without escape signs is seen as it is. -/
theorem uncoloured_append {cs : List Char} (h : escape ∉ cs) (rest : List Char) :
    uncoloured (cs ++ rest) = cs ++ uncoloured rest := by
  induction cs with
  | nil => rfl
  | cons c cs ih =>
    obtain ⟨hc, hcs⟩ : escape ≠ c ∧ escape ∉ cs := by simpa using h
    rw [List.cons_append, uncoloured]
    split
    · rename_i after hsome
      rw [afterSequence?_of_ne hc.symm] at hsome
      cases hsome
    · exact congrArg (c :: ·) (ih hcs)

namespace Terminal

/-- A change of style is a run of colour sequences. -/
structure SendsColours (terminal : Terminal) : Prop where
  change : ∀ old new, ColourRun (terminal.change old new).toList

variable {terminal : Terminal}

/-- What is seen of styled pieces is their texts. -/
theorem SendsColours.uncoloured_sendFrom (h : terminal.SendsColours) (old : Style) {pieces : Styled}
    (hpieces : ∀ piece ∈ pieces, escape ∉ piece.2.toList) :
    uncoloured (terminal.sendFrom old pieces).toList =
      pieces.flatMap fun piece => piece.2.toList := by
  induction pieces generalizing old with
  | nil =>
    have hstop := (h.change old .plain).uncoloured_append []
    rw [List.append_nil] at hstop
    rw [sendFrom, hstop, uncoloured]
    rfl
  | cons piece rest ih =>
    rw [List.forall_mem_cons] at hpieces
    rw [sendFrom, String.toList_append, String.toList_append, List.append_assoc,
      (h.change old piece.1).uncoloured_append, Text.uncoloured_append hpieces.1,
      ih piece.1 hpieces.2, List.flatMap_cons]

end Terminal

end Text

open Text

namespace Mnemonic

theorem escape_notMem_name (m : Mnemonic) : escape ∉ m.name.toList := by
  have hall : ∀ m ∈ all, escape ∉ m.name.toList := by decide
  exact hall m m.mem_all

end Mnemonic

theorem Operand.escape_notMem_text (o : Operand) : escape ∉ o.text.toList := by
  intro h
  rcases Operand.mem_text_cases h with hdigit | hsign
  · cases hdigit
  · exact absurd hsign (by decide)

namespace Instruction

theorem escape_notMem_argument {i : Instruction} (hlabel : ∀ l ∈ i.label?, escape ∉ l.toList)
    {argument : String} (h : i.argument? = some argument) : escape ∉ argument.toList := by
  cases i with
  | push operand =>
    cases h
    exact operand.escape_notMem_text
  | pop operand =>
    obtain ⟨operand, -, rfl⟩ := Option.map_eq_some_iff.mp h
    exact operand.escape_notMem_text
  | transfer kind label => exact hlabel argument h
  | plain operation => cases h

/-- A mnemonic that takes an argument is shorter than the width it is filled up to. -/
theorem length_name_lt {i : Instruction} {argument : String} (h : i.argument? = some argument) :
    i.mnemonic.name.length < 5 := by
  cases i with
  | push operand => exact (by decide : Mnemonic.push.name.length < 5)
  | pop operand => exact (by decide : Mnemonic.pop.name.length < 5)
  | transfer kind label =>
    have hall : ∀ kind ∈ Transfer.all, kind.name.length < 5 := by decide
    exact hall kind (by cases kind <;> decide)
  | plain operation => cases h

theorem escape_notMem_padded (m : Mnemonic) : escape ∉ (padded m.name).toList := by
  rw [padded, String.toList_append, String.toList_ofList, List.mem_append, not_or]
  exact ⟨m.escape_notMem_name, by simp [escape]⟩

/-- What is seen of a coloured instruction: its two parts, with blanks between them. -/
theorem uncoloured_coloured {terminal : Terminal} (h : terminal.SendsColours) {i : Instruction}
    (hlabel : ∀ l ∈ i.label?, escape ∉ l.toList) :
    uncoloured (i.coloured terminal).toList =
      i.mnemonic.name.toList ++ i.argument?.elim [] fun argument =>
        ' ' :: (List.replicate (4 - i.mnemonic.name.length) ' ' ++ argument.toList) := by
  have hstyled : ∀ piece ∈ i.styled, escape ∉ piece.2.toList := by
    unfold styled
    cases hargument : i.argument? with
    | none => simpa using i.mnemonic.escape_notMem_name
    | some argument =>
      simpa using ⟨escape_notMem_padded i.mnemonic, escape_notMem_argument hlabel hargument⟩
  rw [coloured, Terminal.send, h.uncoloured_sendFrom .plain hstyled, styled]
  cases hargument : i.argument? with
  | none => simp
  | some argument =>
    have hgap : List.replicate (5 - i.mnemonic.name.length) ' ' =
        ' ' :: List.replicate (4 - i.mnemonic.name.length) ' ' := by
      have hlength := length_name_lt hargument
      rw [← List.replicate_succ]
      congr 1
      omega
    simp [padded, hgap]

end Instruction

open Instruction in
/-- The reader does not mind colours. If an instruction carries a number that equals itself, if it
carries any, and a word without escape signs for its label, if it has one, then what a terminal
shows of it in colours is read as this instruction, and so is its plain text. -/
theorem coloured_reads_as_plain {terminal : Terminal} (hcolours : terminal.SendsColours)
    {i : Instruction} (hword : i.InWord) (hnumber : i.carriesNaN = false)
    (hlabel : ∀ l ∈ i.label?, IsWord l.toList ∧ escape ∉ l.toList) :
    parse (uncoloured (i.coloured terminal).toList) = .ok i ∧ parse i.text.toList = .ok i ∧
      i.agrees i = true := by
  have hwords : ∀ l ∈ i.label?, IsWord l.toList := fun l hl => (hlabel l hl).1
  have hplain : parse i.text.toList = .ok i := by
    rw [parse_text hword hwords, canonical_of_carriesNaN hnumber]
  have hblanks : ∀ c ∈ List.replicate (4 - i.mnemonic.name.length) ' ', isBlank c = true := by
    intro c hc
    rw [List.eq_of_mem_replicate hc]
    rfl
  refine ⟨?_, hplain, agrees_self hnumber⟩
  rw [uncoloured_coloured hcolours fun l hl => (hlabel l hl).2, parse_spaced hwords hblanks,
    ← parse_parts hwords, hplain]

theorem CommandLine.colourRun_sequence (code : Nat) : ColourRun (sequence code).toList := by
  have hcodes : ∀ c ∈ Nat.toDigits 10 code, isColourCode c = true := by
    intro c hc
    simp [isColourCode, isDigit_of_mem_toDigits hc]
  simpa [sequence, escape] using ColourRun.sequence hcodes .nil

/-- The terminal of the command is of this kind. -/
theorem CommandLine.sendsColours_terminal : terminal.SendsColours where
  change old new := by
    have hpart (c : Prop) [Decidable c] (code : Nat) :
        ColourRun (if c then "" else sequence code).toList := by
      split_ifs
      · exact .nil
      · exact colourRun_sequence code
    simp only [terminal, String.toList_append]
    exact ((hpart _ _).append (hpart _ _)).append (hpart _ _)

/-- A label that looks like the rest of a colour sequence is read back too. -/
theorem coloured_reads_as_plain_bracket :
    let i : Instruction := .transfer .jumpEq "[31mif_fail.1a;"
    i.coloured CommandLine.terminal = "\x1b[31mje   \x1b[32m[31mif_fail.1a;\x1b[39m" ∧
      Instruction.parse (uncoloured (i.coloured CommandLine.terminal).toList) = .ok i ∧
      Instruction.parse i.text.toList = .ok i ∧ i.agrees i = true := by
  refine ⟨by decide +kernel, coloured_reads_as_plain CommandLine.sendsColours_terminal
    (by simp [Instruction.InWord, Instruction.operand?]) rfl ?_⟩
  intro l hl
  cases hl
  exact ⟨by decide, by decide⟩

end StackCompiler
