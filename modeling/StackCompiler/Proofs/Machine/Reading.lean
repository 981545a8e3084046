import StackCompiler.Machine.Instruction
import StackCompiler.Proofs.Number.Reading
import Mathlib.Data.Bool.AllAny

/-!
# Instructions read back

The text of an instruction is its mnemonic and its argument, with one blank between them. An
argument has no blank at either end, so the reader finds the same two parts. Numbers, registers and
addresses are told apart by their characters: no text of one is a text of another.

Reading gives back an instruction exactly if its label is a word and its number is not the one that
equals nothing. Whatever text is read, the label that it gives is a word.
-/
namespace StackCompiler

namespace Text

/-- No blank stands at either end. -/
structure Tight (cs : List Char) : Prop where
  head : ∀ c ∈ cs.head?, isBlank c = false
  last : ∀ c ∈ cs.getLast?, isBlank c = false

/-- Something without blanks. -/
structure IsWord (cs : List Char) : Prop where
  nonempty : cs ≠ []
  solid : ∀ c ∈ cs, isBlank c = false

instance (cs : List Char) : Decidable (IsWord cs) :=
  decidable_of_iff (cs ≠ [] ∧ cs.all (fun c => isBlank c = false))
    ⟨fun h => ⟨h.1, List.all_iff_forall_prop.mp h.2⟩,
      fun h => ⟨h.nonempty, List.all_iff_forall_prop.mpr h.solid⟩⟩

theorem IsWord.tight {cs : List Char} (h : IsWord cs) : Tight cs where
  head c hc := h.solid c (List.mem_of_mem_head? hc)
  last c hc := h.solid c (List.mem_of_mem_getLast? hc)

theorem Tight.join {before after : List Char} (hbefore : Tight before) (hafter : Tight after)
    (hbefore' : before ≠ []) (hafter' : after ≠ []) (between : List Char) :
    Tight (before ++ between ++ after) where
  head c hc := by
    apply hbefore.head c
    cases before with
    | nil => exact absurd rfl hbefore'
    | cons first rest => exact hc
  last c hc := by
    apply hafter.last c
    rw [List.getLast?_append, List.getLast?_eq_some_getLast hafter', Option.some_or] at hc
    rwa [List.getLast?_eq_some_getLast hafter']

theorem dropWhile_isBlank {before cs : List Char} (hbefore : ∀ c ∈ before, isBlank c = true)
    (hcs : ∀ c ∈ cs.head?, isBlank c = false) : (before ++ cs).dropWhile isBlank = cs := by
  rw [List.dropWhile_append_of_pos hbefore]
  cases cs with
  | nil => rfl
  | cons c rest => simp [hcs c rfl]

/-- Blanks around a text are taken away, and no more. -/
theorem trim_padded {before cs after : List Char} (hbefore : ∀ c ∈ before, isBlank c = true)
    (hcs : Tight cs) (hafter : ∀ c ∈ after, isBlank c = true) :
    trim (before ++ cs ++ after) = cs := by
  have hreversed : ∀ c ∈ after.reverse, isBlank c = true :=
    fun c hc => hafter c (List.mem_reverse.mp hc)
  rw [trim]
  cases cs with
  | nil =>
    have hall : ∀ c ∈ before ++ [] ++ after, isBlank c = true := by
      rw [List.append_nil]
      exact List.forall_mem_append.mpr ⟨hbefore, hafter⟩
    rw [List.dropWhile_eq_nil_iff.mpr hall]
    rfl
  | cons first rest =>
    have hstart : ∀ c ∈ (first :: rest ++ after).head?, isBlank c = false := hcs.head
    have hend : ∀ c ∈ (first :: rest).reverse.head?, isBlank c = false := by
      rw [List.head?_reverse]
      exact hcs.last
    rw [List.append_assoc, dropWhile_isBlank hbefore hstart, List.reverse_append,
      dropWhile_isBlank hreversed hend, List.reverse_reverse]

theorem trim_indented {before cs : List Char} (hbefore : ∀ c ∈ before, isBlank c = true)
    (hcs : Tight cs) : trim (before ++ cs) = cs := by
  have htrim := trim_padded hbefore hcs (List.forall_mem_nil _)
  rwa [List.append_nil] at htrim

theorem trim_of_tight {cs : List Char} (h : Tight cs) : trim cs = cs :=
  trim_indented (List.forall_mem_nil _) h

theorem splitAtBlank_of_isWord {word : List Char} (h : IsWord word) :
    splitAtBlank word = (word, none) := by
  have hall : ∀ c ∈ word, (!isBlank c) = true := fun c hc => by simp [h.solid c hc]
  rw [splitAtBlank, List.dropWhile_eq_nil_iff.mpr hall]

theorem splitAtBlank_append {word : List Char} (h : IsWord word) (rest : List Char) :
    splitAtBlank (word ++ ' ' :: rest) = (word, some rest) := by
  have hall : ∀ c ∈ word, (!isBlank c) = true := fun c hc => by simp [h.solid c hc]
  have hblank : isBlank ' ' = true := rfl
  rw [splitAtBlank, List.dropWhile_append_of_pos hall,
    List.dropWhile_cons_of_neg (by simp [hblank])]
  simp [List.takeWhile_append_of_pos hall, hblank]

theorem isBlank_of_isDigit {c : Char} (h : c.isDigit = true) : isBlank c = false := by
  obtain ⟨hlow, hhigh⟩ := toNat_of_isDigit h
  simp only [isBlank, Bool.or_eq_false_iff, Bool.and_eq_false_iff, decide_eq_false_iff_not,
    beq_eq_false_iff_ne]
  omega

theorem isWord_toDigits (n : Nat) : IsWord (Nat.toDigits 10 n) where
  nonempty := Nat.toDigits_ne_nil
  solid _ hc := isBlank_of_isDigit (isDigit_of_mem_toDigits hc)

theorem lt_of_word? {cs : List Char} {n : Nat} (h : word? cs = some n) : n < wordLimit := by
  unfold word? at h
  dsimp only at h
  split at h
  · split_ifs at h with hlt
    cases h
    exact hlt
  · cases h

end Text

open Text

theorem ok_of_map {ε α β : Type} {x : Except ε α} {f : α → β} {b : β} (h : x.map f = .ok b) :
    ∃ a, x = .ok a ∧ f a = b := by
  cases x with
  | error e => cases h
  | ok a => exact ⟨a, rfl, Except.ok.inj h⟩

namespace Number

theorem isNumeral_cases {c : Char} (h : isNumeral c = true) :
    c.isDigit = true ∨ c ∈ ['-', '.', 'N', 'a', 'i', 'n', 'f'] := by
  simpa [isNumeral] using h

theorem isWord_text (x : Number) : IsWord x.text.toList where
  nonempty := x.text_ne_nil
  solid c hc := by
    have hsigns : ∀ c ∈ ['-', '.', 'N', 'a', 'i', 'n', 'f'], isBlank c = false :=
      List.all_iff_forall_prop.mp (by decide)
    exact (isNumeral_cases (isNumeral_of_mem_text hc)).elim isBlank_of_isDigit (hsigns c)

theorem toLower_ne_of_isNumeral {c : Char} (h : isNumeral c = true) : c.toLower ≠ 'x' := by
  have hsigns : ∀ c ∈ ['-', '.', 'N', 'a', 'i', 'n', 'f'], c.toLower ≠ 'x' :=
    List.all_iff_forall_prop.mp (by decide)
  rcases isNumeral_cases h with hdigit | hsign
  · rw [toLower_of_isDigit hdigit]
    rintro rfl
    cases hdigit
  · exact hsigns c hsign

end Number

namespace Register

theorem parse_name (r : Register) : parse r.name.toList = .ok r := by
  cases r <;> rfl

theorem isWord_name (r : Register) : IsWord r.name.toList := by
  cases r <;> decide

/-- What is not the name of a register is refused with its text. -/
theorem parse_eq_error {cs : List Char} (h : ∀ r : Register, lower cs ≠ r.name.toList) :
    parse cs = .error ("Unknown reg name: " ++ String.ofList cs) := by
  have hnone : ofName? (String.ofList (lower cs)) = none := by
    refine List.find?_eq_none.mpr fun r _ hr => h r ?_
    rw [eq_of_beq hr, String.toList_ofList]
  rw [parse, hnone]

/-- The name of a register has an `x` in it. -/
theorem parse_eq_error_of_toLower {cs : List Char} (h : ∀ c ∈ cs, c.toLower ≠ 'x') :
    parse cs = .error ("Unknown reg name: " ++ String.ofList cs) := by
  refine parse_eq_error fun r hr => ?_
  have hx : 'x' ∈ lower cs := by
    rw [hr]
    cases r <;> decide
  obtain ⟨c, hc, hlower⟩ := List.mem_map.mp hx
  exact h c hc hlower

/-- The name of a register has no plus sign in it. -/
theorem parse_eq_error_of_plus {cs : List Char} (h : '+' ∈ cs) :
    parse cs = .error ("Unknown reg name: " ++ String.ofList cs) := by
  refine parse_eq_error fun r hr => ?_
  have hplus : '+' ∈ r.name.toList := by
    rw [← hr]
    exact List.mem_map.mpr ⟨'+', h, rfl⟩
  revert hplus
  cases r <;> decide

end Register

/-- No number starts like a register. -/
theorem Number.parse?_register (r : Register) (rest : List Char) :
    Number.parse? (r.name.toList ++ rest) = none := by
  cases r <;> rfl

namespace Address

/-- What stands behind the name of the base. -/
def tail (a : Address) : List Char :=
  [' '] ++ '+' :: ([' '] ++ Nat.toDigits 10 a.shift ++
    match a.index with
    | some index => [' '] ++ '+' :: ([' '] ++ index.name.toList)
    | none => [])

theorem toList_text (a : Address) : a.text.toList = a.base.name.toList ++ a.tail := by
  unfold text tail
  cases a.index <;> simp

theorem plus_notMem_name (r : Register) : '+' ∉ r.name.toList := by
  cases r <;> decide

theorem plus_notMem_toDigits (n : Nat) : '+' ∉ Nat.toDigits 10 n := by
  intro h
  cases isDigit_of_mem_toDigits h

theorem parse_text {a : Address} (h : a.shift < wordLimit) : parse a.text.toList = .ok a := by
  obtain ⟨base, shift, index⟩ := a
  have hblank : ∀ c ∈ [' '], isBlank c = true := List.all_iff_forall_prop.mp (by decide)
  have hbase : trim (base.name.toList ++ [' ']) = base.name.toList := by
    rw [← List.nil_append base.name.toList]
    exact trim_padded (List.forall_mem_nil _) base.isWord_name.tight hblank
  have hplus : '+' ∉ base.name.toList ++ [' '] := by simp [plus_notMem_name]
  have hdigits := (isWord_toDigits shift).tight
  have htext := toList_text ⟨base, shift, index⟩
  cases index with
  | none =>
    have hshift : trim ([' '] ++ Nat.toDigits 10 shift) = Nat.toDigits 10 shift :=
      trim_indented hblank hdigits
    have hparts : (text ⟨base, shift, none⟩).toList.splitOn '+' =
        [base.name.toList ++ [' '], [' '] ++ Nat.toDigits 10 shift] := by
      rw [htext, tail, List.append_nil, ← List.append_assoc,
        List.splitOn_append_cons_self_of_not_mem hplus,
        List.splitOn_eq_singleton (by simp [plus_notMem_toDigits])]
    simp only [parse, hparts, List.map_cons, List.map_nil, hbase, hshift, ofParts?,
      Register.parse_name, word?_toDigits h]
    rfl
  | some index =>
    have hshift : trim ([' '] ++ Nat.toDigits 10 shift ++ [' ']) = Nat.toDigits 10 shift :=
      trim_padded hblank hdigits hblank
    have hindex : trim ([' '] ++ index.name.toList) = index.name.toList :=
      trim_indented hblank index.isWord_name.tight
    have hparts : (text ⟨base, shift, some index⟩).toList.splitOn '+' =
        [base.name.toList ++ [' '], [' '] ++ Nat.toDigits 10 shift ++ [' '],
          [' '] ++ index.name.toList] := by
      rw [htext, tail, ← List.append_assoc, List.splitOn_append_cons_self_of_not_mem hplus,
        ← List.append_assoc,
        List.splitOn_append_cons_self_of_not_mem (by simp [plus_notMem_toDigits]),
        List.splitOn_eq_singleton (by simp [plus_notMem_name])]
    simp only [parse, hparts, List.map_cons, List.map_nil, hbase, hshift, hindex, ofParts?,
      Register.parse_name, word?_toDigits h]
    rfl

theorem tight_text (a : Address) : Tight a.text.toList := by
  have hbase := a.base.isWord_name
  have hdigits := isWord_toDigits a.shift
  rw [toList_text, tail]
  cases a.index with
  | none =>
    have htight := hbase.tight.join hdigits.tight hbase.nonempty hdigits.nonempty [' ', '+', ' ']
    simpa using htight
  | some index =>
    have hindex := index.isWord_name
    have htight := hbase.tight.join hindex.tight hbase.nonempty hindex.nonempty
      ([' ', '+', ' '] ++ Nat.toDigits 10 a.shift ++ [' ', '+', ' '])
    simpa using htight

theorem shift_lt_of_parse {cs : List Char} {a : Address} (h : parse cs = .ok a) :
    a.shift < wordLimit := by
  unfold parse at h
  split at h
  · rename_i b hparts
    cases h
    unfold ofParts? at hparts
    split at hparts
    · simp only [Option.bind_eq_bind, Option.bind_eq_some_iff, Option.pure_def,
        Option.some.injEq] at hparts
      obtain ⟨base, -, shift, hshift, rfl⟩ := hparts
      exact lt_of_word? hshift
    · simp only [Option.bind_eq_bind, Option.bind_eq_some_iff, Option.pure_def,
        Option.some.injEq] at hparts
      obtain ⟨base, -, shift, hshift, index, -, rfl⟩ := hparts
      exact lt_of_word? hshift
    · cases hparts
  · cases h

end Address

namespace Operand

/-- The shift of the operand's address, if it has one, is a word. -/
def InWord : Operand → Prop
  | .memory a => a.shift < wordLimit
  | .address a => a.shift < wordLimit
  | _ => True

def isNaN : Operand → Bool
  | .number value => value.isNaN
  | _ => false

/-- The operand as its text tells it. -/
def canonical : Operand → Operand
  | .number value => .number value.canonical
  | o => o

theorem canonical_of_isNaN {o : Operand} (h : o.isNaN = false) : o.canonical = o := by
  cases o with
  | number value =>
    cases value with
    | nan negative payload => cases h
    | _ => rfl
  | _ => rfl

theorem tight_text (o : Operand) : Tight o.text.toList := by
  cases o with
  | number value => exact value.isWord_text.tight
  | register name => exact name.isWord_name.tight
  | memory a =>
    have hopen : IsWord ['['] := by decide
    have hclose : IsWord [']'] := by decide
    have htight := hopen.tight.join hclose.tight hopen.nonempty hclose.nonempty a.text.toList
    simpa [text] using htight
  | address a => exact a.tight_text

theorem text_ne_nil (o : Operand) : o.text.toList ≠ [] := by
  cases o with
  | number value => exact value.text_ne_nil
  | register name => exact name.isWord_name.nonempty
  | memory a => simp [text]
  | address a =>
    rw [text, Address.toList_text]
    exact List.append_ne_nil_of_left_ne_nil a.base.isWord_name.nonempty _

/-- The characters, apart from digits, that texts of operands are made of. -/
def signs : List Char :=
  ['-', '.', 'N', 'a', 'i', 'n', 'f', 'b', 'c', 'h', 'x', '+', ' ', '[', ']']

theorem mem_signs_of_mem_name {r : Register} {c : Char} (hc : c ∈ r.name.toList) : c ∈ signs := by
  have hall : ∀ c ∈ r.name.toList, c ∈ signs := by
    cases r <;> exact List.all_iff_forall_prop.mp (by decide)
  exact hall c hc

theorem mem_address_cases {a : Address} {c : Char} (hc : c ∈ a.text.toList) :
    c.isDigit = true ∨ c ∈ signs := by
  have hplus : ∀ c ∈ [' ', '+', ' '], c.isDigit = true ∨ c ∈ signs :=
    List.all_iff_forall_prop.mp (by decide)
  have hname (r : Register) : ∀ c ∈ r.name.toList, c.isDigit = true ∨ c ∈ signs :=
    fun c hc => .inr (mem_signs_of_mem_name hc)
  have hdigits : ∀ c ∈ Nat.toDigits 10 a.shift, c.isDigit = true ∨ c ∈ signs :=
    fun c hc => .inl (isDigit_of_mem_toDigits hc)
  have hindex : ∀ c ∈ (a.index.elim [] fun r => [' ', '+', ' '] ++ r.name.toList),
      c.isDigit = true ∨ c ∈ signs := by
    cases a.index with
    | none => exact List.forall_mem_nil _
    | some r => exact List.forall_mem_append.mpr ⟨hplus, hname r⟩
  have htext : a.text.toList = a.base.name.toList ++ ([' ', '+', ' '] ++ (Nat.toDigits 10 a.shift ++
      a.index.elim [] fun r => [' ', '+', ' '] ++ r.name.toList)) := by
    rw [Address.toList_text, Address.tail]
    cases a.index <;> simp
  have hall : ∀ c ∈ a.text.toList, c.isDigit = true ∨ c ∈ signs := by
    simp only [htext, List.forall_mem_append]
    exact ⟨hname a.base, hplus, hdigits, hindex⟩
  exact hall c hc

theorem mem_text_cases {o : Operand} {c : Char} (hc : c ∈ o.text.toList) :
    c.isDigit = true ∨ c ∈ signs := by
  cases o with
  | number value =>
    have hsigns : ∀ c ∈ ['-', '.', 'N', 'a', 'i', 'n', 'f'], c ∈ signs :=
      List.all_iff_forall_prop.mp (by decide)
    exact (Number.isNumeral_cases (Number.isNumeral_of_mem_text hc)).imp_right (hsigns c)
  | register name => exact .inr (mem_signs_of_mem_name hc)
  | memory a =>
    have hmem : c = '[' ∨ c ∈ a.text.toList ∨ c = ']' := by simpa [text] using hc
    rcases hmem with rfl | hmem | rfl
    · exact .inr (by decide)
    · exact mem_address_cases hmem
    · exact .inr (by decide)
  | address a => exact mem_address_cases hc

theorem bracketed?_eq_none {cs : List Char} (h : '[' ∉ cs.head?) : bracketed? cs = none := by
  unfold bracketed?
  split
  · exact absurd rfl h
  · rfl

theorem bracketed?_memory (cs : List Char) : bracketed? ('[' :: (cs ++ [']'])) = some cs := by
  simp [bracketed?]

theorem parse_text {o : Operand} (h : o.InWord) : parse o.text.toList = .ok o.canonical := by
  rw [parse, trim_of_tight o.tight_text]
  cases o with
  | number value =>
    have hnumeral {c : Char} (hc : c ∈ value.text.toList) : Number.isNumeral c = true :=
      Number.isNumeral_of_mem_text hc
    have hbracket : bracketed? value.text.toList = none := by
      apply bracketed?_eq_none
      intro hc
      cases hnumeral (List.mem_of_mem_head? hc)
    have hregister := Register.parse_eq_error_of_toLower fun c hc =>
      Number.toLower_ne_of_isNumeral (hnumeral hc)
    simp only [text, hbracket, hregister, value.parse?_text, canonical]
  | register name =>
    have hbracket : bracketed? name.name.toList = none := by
      cases name <;> rfl
    simp only [text, hbracket, Register.parse_name, canonical]
  | memory a =>
    have htext : (text (.memory a)).toList = '[' :: (a.text.toList ++ [']']) := by simp [text]
    simp only [htext, bracketed?_memory, Address.parse_text h]
    rfl
  | address a =>
    have hbracket : bracketed? a.text.toList = none := by
      rw [Address.toList_text]
      cases a.base <;> rfl
    have hplus : '+' ∈ a.text.toList := by simp [Address.toList_text, Address.tail]
    have hregister := Register.parse_eq_error_of_plus hplus
    have hnumber : Number.parse? a.text.toList = none := by
      rw [Address.toList_text, Number.parse?_register]
    simp only [text, hbracket, hregister, hnumber, Address.parse_text h]
    rfl

theorem inWord_of_parse {cs : List Char} {o : Operand} (h : parse cs = .ok o) : o.InWord := by
  unfold parse at h
  dsimp only at h
  split at h
  · obtain ⟨a, ha, rfl⟩ := ok_of_map h
    exact Address.shift_lt_of_parse ha
  · split at h
    · cases h
      trivial
    · split at h
      · cases h
        trivial
      · obtain ⟨a, ha, rfl⟩ := ok_of_map h
        exact Address.shift_lt_of_parse ha

/-- The machine's equality holds of an operand and itself unless it is not a number. -/
theorem agrees_self {o : Operand} (h : o.isNaN = false) : o.agrees o = true := by
  cases o with
  | number value =>
    cases value with
    | nan negative payload => cases h
    | infinity negative => simp [agrees, Number.agrees]
    | finite negative rank => simp [agrees, Number.agrees]
  | _ => simp [agrees]

theorem isNaN_of_agrees {o p : Operand} (h : o.agrees p = true) : p.isNaN = false := by
  cases p with
  | number value =>
    cases value with
    | nan negative payload =>
      cases o with
      | number v => cases v <;> simp [agrees, Number.agrees] at h
      | _ => simp [agrees] at h
    | _ => rfl
  | _ => rfl

end Operand

namespace Mnemonic

theorem parse_name (m : Mnemonic) : parse m.name.toList = .ok m := by
  cases m with
  | push => rfl
  | pop => rfl
  | transfer kind => cases kind <;> rfl
  | plain operation => cases operation <;> rfl

theorem mem_all (m : Mnemonic) : m ∈ all := by
  cases m with
  | push => decide
  | pop => decide
  | transfer kind => cases kind <;> decide
  | plain operation => cases operation <;> decide

theorem isWord_name (m : Mnemonic) : IsWord m.name.toList := by
  have hall : ∀ m ∈ all, IsWord m.name.toList := by decide
  exact hall m m.mem_all

end Mnemonic

namespace Instruction

/-- The shift of the instruction's address, if it has one, is a word. -/
def InWord (i : Instruction) : Prop :=
  ∀ o ∈ i.operand?, o.InWord

def carriesNaN (i : Instruction) : Bool :=
  i.operand?.any Operand.isNaN

/-- The instruction as its text tells it: what is not a number is one and the same. -/
def canonical : Instruction → Instruction
  | .push operand => .push operand.canonical
  | .pop operand => .pop (operand.map Operand.canonical)
  | i => i

theorem canonical_of_carriesNaN {i : Instruction} (h : i.carriesNaN = false) : i.canonical = i := by
  cases i with
  | push operand => rw [canonical, Operand.canonical_of_isNaN h]
  | pop operand =>
    cases operand with
    | none => rfl
    | some operand => rw [canonical, Option.map_some, Operand.canonical_of_isNaN h]
  | _ => rfl

def label? : Instruction → Option String
  | .transfer _ label => some label
  | _ => none

theorem tight_argument {i : Instruction} (hlabel : ∀ l ∈ i.label?, IsWord l.toList) {s : String}
    (hs : i.argument? = some s) : Tight s.toList ∧ s.toList ≠ [] := by
  cases i with
  | push operand =>
    cases hs
    exact ⟨operand.tight_text, operand.text_ne_nil⟩
  | pop operand =>
    obtain ⟨operand, rfl, rfl⟩ := Option.map_eq_some_iff.mp hs
    exact ⟨operand.tight_text, operand.text_ne_nil⟩
  | transfer kind label =>
    cases hs
    exact ⟨(hlabel s rfl).tight, (hlabel s rfl).nonempty⟩
  | plain operation => cases hs

theorem toList_text (i : Instruction) :
    i.text.toList =
      i.mnemonic.name.toList ++ i.argument?.elim [] fun argument => ' ' :: argument.toList := by
  unfold text
  cases i.argument? <;> simp

theorem tight_text {i : Instruction} (hlabel : ∀ l ∈ i.label?, IsWord l.toList) :
    Tight i.text.toList := by
  have hname := i.mnemonic.isWord_name
  rw [toList_text]
  cases hargument : i.argument? with
  | none => simpa using hname.tight
  | some argument =>
    obtain ⟨htight, hne⟩ := tight_argument hlabel hargument
    simpa using hname.tight.join htight hname.nonempty hne [' ']

/-- The two parts of an instruction are found again, however wide the gap between them is. -/
theorem parse_spaced {i : Instruction} (hlabel : ∀ l ∈ i.label?, IsWord l.toList) {gap : List Char}
    (hgap : ∀ c ∈ gap, isBlank c = true) :
    parse (i.mnemonic.name.toList ++
        i.argument?.elim [] fun argument => ' ' :: (gap ++ argument.toList)) =
      ofParts i.mnemonic.name.toList i.mnemonic (i.argument?.map String.toList) := by
  have hname := i.mnemonic.isWord_name
  unfold parse
  cases hargument : i.argument? with
  | none =>
    simp only [Option.elim_none, List.append_nil, trim_of_tight hname.tight,
      splitAtBlank_of_isWord hname, Mnemonic.parse_name]
    rfl
  | some argument =>
    obtain ⟨htight, hne⟩ := tight_argument hlabel hargument
    have hline : Tight (i.mnemonic.name.toList ++ ' ' :: (gap ++ argument.toList)) := by
      simpa using hname.tight.join htight hname.nonempty hne (' ' :: gap)
    simp only [Option.elim_some, trim_of_tight hline, splitAtBlank_append hname,
      Mnemonic.parse_name, Option.map_some, trim_indented hgap htight]

theorem parse_parts {i : Instruction} (hlabel : ∀ l ∈ i.label?, IsWord l.toList) :
    parse i.text.toList =
      ofParts i.mnemonic.name.toList i.mnemonic (i.argument?.map String.toList) := by
  have hparse := parse_spaced hlabel (List.forall_mem_nil fun c => isBlank c = true)
  simpa only [toList_text, List.nil_append] using hparse

theorem parseLabel_of_isWord {l : String} (h : IsWord l.toList) : parseLabel l.toList = .ok l := by
  have hempty : l.toList.isEmpty = false := List.isEmpty_eq_false_iff.mpr h.nonempty
  have hblank : l.toList.any isBlank = false := by
    rw [List.any_eq_false]
    intro c hc
    simp [h.solid c hc]
  rw [parseLabel, hempty, hblank, Bool.or_self, if_neg Bool.false_ne_true, String.ofList_toList]

theorem isWord_of_parseLabel {cs : List Char} {l : String} (h : parseLabel cs = .ok l) :
    IsWord l.toList := by
  unfold parseLabel at h
  split_ifs at h with hbad
  cases h
  simp only [Bool.or_eq_true, List.isEmpty_iff, List.any_eq_true, not_or, not_exists, not_and,
    Bool.not_eq_true] at hbad
  rw [String.toList_ofList]
  exact ⟨hbad.1, hbad.2⟩

theorem parse_text {i : Instruction} (hword : i.InWord) (hlabel : ∀ l ∈ i.label?, IsWord l.toList) :
    parse i.text.toList = .ok i.canonical := by
  rw [parse_parts hlabel]
  cases i with
  | push operand =>
    have hoperand := Operand.parse_text (hword operand rfl)
    simp only [mnemonic, argument?, Option.map_some, ofParts, hoperand]
    rfl
  | pop operand =>
    cases operand with
    | none => rfl
    | some operand =>
      have hoperand := Operand.parse_text (hword operand rfl)
      simp only [mnemonic, argument?, Option.map_some, ofParts, hoperand]
      rfl
  | transfer kind label =>
    have hparse := parseLabel_of_isWord (hlabel label rfl)
    simp only [mnemonic, argument?, Option.map_some, ofParts, hparse]
    rfl
  | plain operation => rfl

/-- What is read has a word for its shift and a word for its label. -/
theorem words_of_parse {line : List Char} {i : Instruction} (h : parse line = .ok i) :
    i.InWord ∧ ∀ l ∈ i.label?, IsWord l.toList := by
  have hoperand {o : Operand} {cs : List Char} (ho : Operand.parse cs = .ok o) :
      ∀ p ∈ some o, p.InWord := by
    rintro p ⟨⟩
    exact Operand.inWord_of_parse ho
  unfold parse at h
  dsimp only at h
  split at h
  · unfold ofParts at h
    split at h
    · obtain ⟨o, ho, rfl⟩ := ok_of_map h
      exact ⟨hoperand ho, by simp [label?]⟩
    · obtain ⟨o, ho, rfl⟩ := ok_of_map h
      exact ⟨hoperand ho, by simp [label?]⟩
    · cases h
      exact ⟨by simp [InWord, operand?], by simp [label?]⟩
    · obtain ⟨l, hl, rfl⟩ := ok_of_map h
      refine ⟨by simp [InWord, operand?], ?_⟩
      rintro _ ⟨⟩
      exact isWord_of_parseLabel hl
    · cases h
      exact ⟨by simp [InWord, operand?], by simp [label?]⟩
    all_goals cases h
  · cases h

theorem agrees_self {i : Instruction} (h : i.carriesNaN = false) : i.agrees i = true := by
  cases i with
  | push o => exact Operand.agrees_self h
  | pop o =>
    cases o with
    | none => rfl
    | some o => exact Operand.agrees_self h
  | _ => simp [agrees]

/-- Instructions that agree have the same label, and no number that equals nothing. -/
theorem of_agrees {i j : Instruction} (h : j.agrees i = true) :
    i.carriesNaN = false ∧ i.label? = j.label? := by
  unfold agrees at h
  split at h
  · exact ⟨Operand.isNaN_of_agrees h, rfl⟩
  · exact ⟨Operand.isNaN_of_agrees h, rfl⟩
  · rename_i hpush hpop
    obtain rfl : j = i := by simpa using h
    refine ⟨?_, rfl⟩
    cases j with
    | push o => exact absurd rfl (hpush o o rfl)
    | pop o =>
      cases o with
      | none => rfl
      | some o => exact absurd rfl (hpop o o rfl)
    | _ => rfl

end Instruction

open Instruction in
/-- An instruction is read back from its text if and only if it carries a number that equals itself,
if it carries any, and a word for its label, if it has one. So an instruction that was read, from
whatever text, is read again from its own text. -/
theorem instruction_text_reads_back :
    (∀ i : Instruction, i.InWord →
      ((∃ j, parse i.text.toList = .ok j ∧ j.agrees i = true) ↔
        i.carriesNaN = false ∧ ∀ l ∈ i.label?, IsWord l.toList)) ∧
      ∀ (s : String) (i : Instruction), parse s.toList = .ok i → i.carriesNaN = false →
        ∃ j, parse i.text.toList = .ok j ∧ j.agrees i = true := by
  have hread {i : Instruction} (hword : i.InWord) (hnumber : i.carriesNaN = false)
      (hlabel : ∀ l ∈ i.label?, IsWord l.toList) :
      ∃ j, parse i.text.toList = .ok j ∧ j.agrees i = true := by
    have hparse := parse_text hword hlabel
    rw [canonical_of_carriesNaN hnumber] at hparse
    exact ⟨i, hparse, agrees_self hnumber⟩
  refine ⟨fun i hword => ⟨?_, fun h => hread hword h.1 h.2⟩, ?_⟩
  · rintro ⟨j, hparse, hagrees⟩
    obtain ⟨hnumber, hlabel⟩ := of_agrees hagrees
    exact ⟨hnumber, hlabel ▸ (words_of_parse hparse).2⟩
  · intro s i hparse hnumber
    obtain ⟨hword, hlabel⟩ := words_of_parse hparse
    exact hread hword hnumber hlabel

/-- An instruction with a word for its label is read back, one with a blank in it is not, and what
is read from a line in capitals and with wide gaps is read again. -/
theorem instruction_text_reads_back_lines :
    (∃ j, Instruction.parse (Instruction.transfer .jumpEq "if_fail.1a").text.toList = .ok j ∧
      j.agrees (.transfer .jumpEq "if_fail.1a") = true) ∧
    (¬ ∃ j, Instruction.parse (Instruction.transfer .call "a b").text.toList = .ok j ∧
      j.agrees (.transfer .call "a b") = true) ∧
    Instruction.parse "  POP   [CX + 1+hx]  ".toList =
        .ok (.pop (some (.memory ⟨.cx, 1, some .hx⟩))) ∧
      ∃ j, Instruction.parse (Instruction.pop (some (.memory ⟨.cx, 1, some .hx⟩))).text.toList =
          .ok j ∧
        j.agrees (.pop (some (.memory ⟨.cx, 1, some .hx⟩))) = true := by
  obtain ⟨hiff, hagain⟩ := instruction_text_reads_back
  have hparse : Instruction.parse "  POP   [CX + 1+hx]  ".toList =
      .ok (.pop (some (.memory ⟨.cx, 1, some .hx⟩))) := by rfl
  refine ⟨(hiff (.transfer .jumpEq "if_fail.1a")
      (by simp [Instruction.InWord, Instruction.operand?])).mpr
      ⟨rfl, ?_⟩, ?_, hparse, hagain _ _ hparse rfl⟩
  · rintro _ ⟨⟩
    decide
  · rw [hiff (.transfer .call "a b") (by simp [Instruction.InWord, Instruction.operand?])]
    rintro ⟨-, hlabel⟩
    exact absurd ((hlabel "a b" rfl).solid ' ') (by decide)

end StackCompiler
