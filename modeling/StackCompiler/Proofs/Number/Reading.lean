import StackCompiler.Number.Text
import StackCompiler.Proofs.Number.Rounding
import Mathlib.Data.List.TakeWhile

/-!
# Numbers read back

The positional text of a decimal is read as a decimal of the same quotient: the digits may have
taken up zeros, and the point counts the rest. What is written for a number reads back, so a number
is read from its text as itself.

Texts of numbers have no blanks and no plus sign, and no letter of theirs is an `x`, by which the
names of registers end.
-/
namespace StackCompiler

namespace Text

theorem toNat_of_isDigit {c : Char} (h : c.isDigit = true) : 48 ≤ c.toNat ∧ c.toNat ≤ 57 :=
  Char.isDigit_iff_toNat.mp h

theorem toLower_of_isDigit {c : Char} (h : c.isDigit = true) : c.toLower = c := by
  have hhigh := (toNat_of_isDigit h).2
  refine dif_neg ?_
  rintro ⟨hlow, -⟩
  have hletter : 65 ≤ c.toNat := UInt32.le_iff_toNat_le.mp hlow
  omega

/-- A run of digits is read as the number that they write. -/
theorem digitsFrom?_of_isDigit {cs : List Char} (h : ∀ c ∈ cs, c.isDigit = true) (acc : Nat) :
    digitsFrom? 10 acc cs = some (Nat.ofDigitChars 10 cs acc) := by
  induction cs generalizing acc with
  | nil => rfl
  | cons c rest ih =>
    have hc := h c List.mem_cons_self
    have hlt : c.toNat - '0'.toNat < 10 := Nat.sub_lt_left_of_lt_add (toNat_of_isDigit hc).1
      (Nat.lt_succ_of_le (toNat_of_isDigit hc).2)
    have hrest := ih fun d hd => h d (List.mem_cons_of_mem c hd)
    simp only [digitsFrom?, digitValue?, if_pos hc, if_pos hlt, hrest,
      Nat.ofDigitChars_cons, Nat.mul_comm]

theorem isDigit_of_mem_toDigits {n : Nat} {c : Char} (h : c ∈ Nat.toDigits 10 n) :
    c.isDigit = true :=
  Nat.isDigit_of_mem_toDigits (by decide) (by decide) h

theorem isDigit_of_mem_zeros {n : Nat} {c : Char} (h : c ∈ List.replicate n '0') :
    c.isDigit = true := by
  rw [List.eq_of_mem_replicate h]
  rfl

/-- A word is read back from its digits. -/
theorem word?_toDigits {n : Nat} (h : n < wordLimit) : word? (Nat.toDigits 10 n) = some n := by
  have hread : natural? 10 (Nat.toDigits 10 n) = some n := by
    rw [natural?, List.isEmpty_eq_false_iff.mpr Nat.toDigits_ne_nil, if_neg Bool.false_ne_true,
      digitsFrom?_of_isDigit fun c => isDigit_of_mem_toDigits, Nat.ofDigitChars_ten_toDigits]
  unfold word?
  split
  · rename_i rest hplus
    have hdigit : '+'.isDigit = true :=
      isDigit_of_mem_toDigits (n := n) (hplus ▸ List.mem_cons_self)
    cases hdigit
  · simp only [hread, if_pos h]

end Text

namespace Number

open Text

theorem digitsValue_of_isDigit {cs : List Char} (h : ∀ c ∈ cs, c.isDigit = true) :
    digitsValue cs = Nat.ofDigitChars 10 cs 0 := by
  rw [digitsValue, digitsFrom?_of_isDigit h, Option.getD_some]

theorem spanDigits_of_isDigit {cs : List Char} (h : ∀ c ∈ cs, c.isDigit = true) :
    spanDigits cs = (cs, []) := by
  rw [spanDigits, List.takeWhile_eq_self_iff.mpr h, List.dropWhile_eq_nil_iff.mpr h]

theorem spanDigits_point {cs rest : List Char} (h : ∀ c ∈ cs, c.isDigit = true) :
    spanDigits (cs ++ '.' :: rest) = (cs, '.' :: rest) := by
  have hpoint : '.'.isDigit = false := rfl
  rw [spanDigits, List.takeWhile_append_of_pos h, List.dropWhile_append_of_pos h,
    List.takeWhile_cons_of_neg (by simp [hpoint]), List.dropWhile_cons_of_neg (by simp [hpoint]),
    List.append_nil]

theorem decimal?_whole {cs : List Char} (hne : cs ≠ []) (h : ∀ c ∈ cs, c.isDigit = true) :
    decimal? cs = some ⟨Nat.ofDigitChars 10 cs 0, 0⟩ := by
  have hempty : cs.isEmpty = false := List.isEmpty_eq_false_iff.mpr hne
  simp [decimal?, spanDigits_of_isDigit h, hempty, exponent?, digitsValue_of_isDigit h]

theorem decimal?_fraction {whole fraction : List Char} (hne : whole ≠ [])
    (hwhole : ∀ c ∈ whole, c.isDigit = true) (hfraction : ∀ c ∈ fraction, c.isDigit = true) :
    decimal? (whole ++ '.' :: fraction) =
      some ⟨Nat.ofDigitChars 10 (whole ++ fraction) 0, -fraction.length⟩ := by
  have hempty : whole.isEmpty = false := List.isEmpty_eq_false_iff.mpr hne
  have hall : ∀ c ∈ whole ++ fraction, c.isDigit = true := by
    intro c hc
    exact (List.mem_append.mp hc).elim (hwhole c) (hfraction c)
  simp [decimal?, spanDigits_point hwhole, spanDigits_of_isDigit hfraction, hempty, exponent?,
    digitsValue_of_isDigit hall]

/-- The positional text of a decimal: digits that have taken up the exponent as zeros, or digits
before and behind a point that counts the exponent. -/
theorem positional_cases (d : Decimal) :
    ∃ whole : List Char, whole ≠ [] ∧ (∀ c ∈ whole, c.isDigit = true) ∧
      (((positional d).toList = whole ∧ 0 ≤ d.exponent ∧
          Nat.ofDigitChars 10 whole 0 = d.digits * 10 ^ d.exponent.toNat) ∨
        ∃ fraction : List Char, (∀ c ∈ fraction, c.isDigit = true) ∧
          (positional d).toList = whole ++ '.' :: fraction ∧
          Nat.ofDigitChars 10 (whole ++ fraction) 0 = d.digits ∧
            d.exponent = -fraction.length) := by
  have hdigits : ∀ c ∈ Nat.toDigits 10 d.digits, c.isDigit = true :=
    fun c => isDigit_of_mem_toDigits
  have hvalue : Nat.ofDigitChars 10 (Nat.toDigits 10 d.digits) 0 = d.digits :=
    Nat.ofDigitChars_ten_toDigits
  have hzeros (n : Nat) : ∀ c ∈ List.replicate n '0', c.isDigit = true :=
    fun c => isDigit_of_mem_zeros
  unfold positional
  dsimp only
  split_ifs with hwhole hpoint
  · refine ⟨Nat.toDigits 10 d.digits ++ List.replicate d.exponent.toNat '0', by simp,
      List.forall_mem_append.mpr ⟨hdigits, hzeros _⟩, .inl ⟨?_, hwhole, ?_⟩⟩
    · simp [zeros]
    · rw [Nat.ofDigitChars_append, hvalue, Nat.ofDigitChars_replicate_zero, Nat.mul_comm]
  · obtain ⟨point, hpointNat⟩ :
        ∃ n : Nat, n = ((Nat.toDigits 10 d.digits).length + d.exponent).toNat :=
      ⟨_, rfl⟩
    rw [← hpointNat]
    refine ⟨(Nat.toDigits 10 d.digits).take point, ?_,
      fun c hc => hdigits c (List.mem_of_mem_take hc),
      .inr ⟨(Nat.toDigits 10 d.digits).drop point, fun c hc => hdigits c (List.mem_of_mem_drop hc),
        ?_, ?_, ?_⟩⟩
    · rw [ne_eq, List.take_eq_nil_iff, not_or]
      exact ⟨by omega, Nat.toDigits_ne_nil⟩
    · simp [withPoint]
    · rw [List.take_append_drop, hvalue]
    · rw [List.length_drop]
      omega
  · have hread : Nat.ofDigitChars 10 ['0'] 0 = 0 := by decide
    refine ⟨['0'], by decide, List.all_eq_true.mp (by decide), .inr ⟨_,
      List.forall_mem_append.mpr ⟨hzeros (-((Nat.toDigits 10 d.digits).length + d.exponent)).toNat,
        hdigits⟩, ?_, ?_, ?_⟩⟩
    · simp [zeros]
    · rw [Nat.ofDigitChars_append, Nat.ofDigitChars_append, hread, Nat.ofDigitChars_replicate_zero,
        Nat.mul_zero, hvalue]
    · rw [List.length_append, List.length_replicate]
      omega

/-- The positional text of a decimal reads as a decimal of the same quotient. -/
theorem decimal?_positional (d : Decimal) :
    ∃ e, decimal? (positional d).toList = some e ∧ e.ratio = d.ratio := by
  obtain ⟨whole, hne, hdigits, hcases⟩ := positional_cases d
  rcases hcases with ⟨htext, hexponent, hvalue⟩ | ⟨fraction, hfraction, htext, hvalue, hexponent⟩
  · rw [htext]
    refine ⟨_, decimal?_whole hne hdigits, ?_⟩
    rw [hvalue, Decimal.ratio_of_nonneg hexponent, Decimal.ratio_of_nonneg (Int.le_refl 0)]
    simp
  · rw [htext]
    refine ⟨_, decimal?_fraction hne hdigits hfraction, ?_⟩
    rw [hvalue, ← hexponent]

theorem exists_positional_eq_cons (d : Decimal) :
    ∃ c rest, (positional d).toList = c :: rest ∧ c.isDigit = true := by
  obtain ⟨whole, hne, hdigits, hcases⟩ := positional_cases d
  obtain ⟨c, rest, rfl⟩ := List.exists_cons_of_ne_nil hne
  have hc := hdigits c List.mem_cons_self
  rcases hcases with ⟨htext, -⟩ | ⟨fraction, -, htext, -⟩
  · exact ⟨c, rest, htext, hc⟩
  · exact ⟨c, rest ++ '.' :: fraction, htext, hc⟩

/-- Digits are no signs and do not start a word. -/
theorem parse?_sign_digit (negative : Bool) {c : Char} (hc : c.isDigit = true) (rest : List Char) :
    parse? ((signText negative).toList ++ c :: rest) =
      (decimal? (c :: rest)).map (Decimal.toNumber negative) := by
  have hne : ∀ d : Char, d.isDigit = false → c ≠ d := by
    rintro d hd rfl
    rw [hd] at hc
    cases hc
  have hsign : splitSign ((signText negative).toList ++ c :: rest) = (negative, c :: rest) := by
    cases negative with
    | true => rfl
    | false =>
      show splitSign (c :: rest) = _
      unfold splitSign
      split
      · rename_i heq
        exact absurd (List.cons.inj heq).1 (hne '-' rfl)
      · rename_i heq
        exact absurd (List.cons.inj heq).1 (hne '+' rfl)
      · rfl
  have hlower : c.toLower = c := toLower_of_isDigit hc
  have hword (word : List Char) (d : Char) (hd : d.isDigit = false) (more : List Char)
      (hword : word = d :: more) : (Text.lower (c :: rest) == word) = false := by
    subst hword
    rw [Text.lower, List.map_cons, hlower, beq_eq_false_iff_ne]
    exact fun heq => hne d hd (List.cons.inj heq).1
  have hinf := hword "inf".toList 'i' rfl ['n', 'f'] rfl
  have hinfinity := hword "infinity".toList 'i' rfl ['n', 'f', 'i', 'n', 'i', 't', 'y'] rfl
  have hnan := hword "nan".toList 'n' rfl ['a', 'n'] rfl
  simp only [parse?, hsign, hinf, hinfinity, hnan, Bool.or_self, Bool.false_eq_true, if_false]

/-- The number as its text tells it, which is the same for all that are not a number. -/
def canonical : Number → Number
  | .nan _ _ => quietNaN false
  | .infinity negative => .infinity negative
  | .finite negative rank => .finite negative rank

/-- A number is read from its text as itself, up to which of those that are not a number it is. -/
theorem parse?_text (x : Number) : parse? x.text.toList = some x.canonical := by
  cases x with
  | nan negative payload =>
    show parse? "NaN".toList = some (quietNaN false)
    decide
  | infinity negative => cases negative <;> decide
  | finite negative rank =>
    rw [text, String.toList_append, canonical]
    split_ifs with hzero
    · have hrank : rank = ⟨0, by decide⟩ := Fin.ext hzero
      rw [show "0".toList = ['0'] from rfl, parse?_sign_digit negative rfl,
        decimal?_whole (by decide) (List.all_eq_true.mp (by decide)), hrank]
      rfl
    · obtain ⟨c, rest, htext, hc⟩ := exists_positional_eq_cons (shortest .up rank)
      obtain ⟨e, he, hratio⟩ := decimal?_positional (shortest .up rank)
      rw [htext] at he ⊢
      rw [parse?_sign_digit negative hc, he, Option.map_some, Decimal.toNumber_eq_ofRatio, hratio,
        ← Decimal.toNumber_eq_ofRatio, toNumber_of_readsAs (readsAs_shortest .up rank)]

/-- The characters that texts of numbers are made of. -/
def isNumeral (c : Char) : Bool :=
  c.isDigit || c ∈ ['-', '.', 'N', 'a', 'i', 'n', 'f']

theorem isNumeral_of_mem_text {x : Number} {c : Char} (h : c ∈ x.text.toList) :
    isNumeral c = true := by
  cases x with
  | nan negative payload =>
    exact List.all_eq_true.mp (show "NaN".toList.all isNumeral = true by decide) c h
  | infinity negative =>
    have hall : ∀ b, (text (.infinity b)).toList.all isNumeral = true := by decide
    exact List.all_eq_true.mp (hall negative) c h
  | finite negative rank =>
    have hsign : ∀ b, (signText b).toList.all isNumeral = true := by decide
    have hdigit {d : Char} (hd : d.isDigit = true) : isNumeral d = true := by simp [isNumeral, hd]
    rw [text, String.toList_append] at h
    rcases List.mem_append.mp h with h | h
    · exact List.all_eq_true.mp (hsign negative) c h
    · split_ifs at h
      · exact List.all_eq_true.mp (show "0".toList.all isNumeral = true by decide) c h
      · obtain ⟨whole, -, hwhole, ⟨htext, -⟩ | ⟨fraction, hfraction, htext, -⟩⟩ :=
          positional_cases (shortest .up rank)
        · exact hdigit (hwhole c (htext ▸ h))
        · rw [htext, List.mem_append, List.mem_cons] at h
          rcases h with h | rfl | h
          · exact hdigit (hwhole c h)
          · rfl
          · exact hdigit (hfraction c h)

theorem text_ne_nil (x : Number) : x.text.toList ≠ [] := by
  intro h
  have hparse := parse?_text x
  rw [h] at hparse
  cases hparse

end Number

end StackCompiler
