import StackCompiler.Number.Decimal
import StackCompiler.Proofs.Number.Exact
import Mathlib.Order.Monotone.Basic

/-!
# Rounding of decimals

Ranks count values in their order, so the rank below a number of units is found by comparing values
alone. Rounding depends on a quotient only and gives a value back as itself. Decimals beyond the
limits of magnitude need no rule of their own: rounding would give the same number.
-/
namespace StackCompiler

namespace Number

theorem units_lt_succ (r : Nat) : units r < units (r + 1) := by
  rcases Nat.lt_or_ge r binade with hlt | hge
  · rw [units_of_lt (by omega), units_of_lt (by omega)]
    omega
  · have hpos := binade_pos
    have hplace := Nat.mod_lt r hpos
    have hquotient : 0 < r / binade := Nat.div_pos hge hpos
    have hr : r = (r / binade - 1) * binade + (binade + r % binade) := by
      have hdiv := Nat.div_add_mod' r binade
      rw [Nat.sub_mul, Nat.one_mul]
      have hle : binade ≤ r / binade * binade := Nat.le_mul_of_pos_left _ hquotient
      omega
    have hstep : 0 < 2 ^ (r / binade - 1) := Nat.two_pow_pos _
    have hvalue := units_binade (e := r / binade - 1) (q := binade + r % binade)
      (by omega) (by omega)
    have hnext := units_binade (e := r / binade - 1) (q := binade + r % binade + 1)
      (by omega) (by omega)
    rw [← hr] at hvalue
    rw [← Nat.add_assoc, ← hr, Nat.succ_mul] at hnext
    omega

theorem units_strictMono : StrictMono units :=
  strictMono_nat_of_lt_succ units_lt_succ

/-- The rank below is the greatest one whose value is not above. -/
theorem le_rankBelow {r n : Nat} : r ≤ rankBelow n ↔ units r ≤ n := by
  constructor
  · intro h
    exact Nat.le_trans (units_strictMono.monotone h) (units_rankBelow_le n)
  · intro h
    have hlt : units r < units (rankBelow n + 1) := Nat.lt_of_le_of_lt h (lt_units_rankBelow n)
    exact Nat.lt_succ_iff.mp (units_strictMono.lt_iff_lt.mp hlt)

theorem rankBelow_units (r : Nat) : rankBelow (units r) = r := by
  apply Nat.le_antisymm
  · exact units_strictMono.le_iff_le.mp (units_rankBelow_le (units r))
  · exact le_rankBelow.mpr (Nat.le_refl _)

theorem nearestRank_units (r : Nat) : nearestRank (units r) 1 = r := by
  have hrank := rankBelow_units r
  rw [nearestRank_of_units (by rw [hrank]), hrank]

/-- Rounding depends on the quotient only. -/
theorem nearestRank_mul_left {k : Nat} (hk : 0 < k) (num den : Nat) :
    nearestRank (k * num) (k * den) = nearestRank num den := by
  have hmiddle (m : Nat) : 2 * (k * num) < k * den * m ↔ 2 * num < den * m := by
    rw [Nat.mul_left_comm, Nat.mul_assoc]
    exact Nat.mul_lt_mul_left hk
  have hmiddle' (m : Nat) : k * den * m < 2 * (k * num) ↔ den * m < 2 * num := by
    rw [Nat.mul_left_comm 2, Nat.mul_assoc]
    exact Nat.mul_lt_mul_left hk
  simp only [nearestRank, Nat.mul_div_mul_left _ _ hk, hmiddle, hmiddle']

theorem rankBelow_le_nearestRank (num den : Nat) : rankBelow (num / den) ≤ nearestRank num den := by
  unfold nearestRank
  dsimp only
  split_ifs <;> omega

/-- Less than half of the least positive value is rounded to zero. -/
theorem nearestRank_eq_zero {num den : Nat} (h : 2 * num < den) : nearestRank num den = 0 := by
  have hdiv : num / den = 0 := Nat.div_eq_of_lt (by omega)
  have hrank : rankBelow 0 = 0 := by decide
  have hsum : units 0 + units 1 = 1 := by decide
  simp only [nearestRank, hdiv, hrank, Nat.zero_add, hsum, Nat.mul_one, if_pos h]

theorem ofRatio_eq_zero {num den : Nat} (h : 2 * (num * unitsPerOne) < den) (negative : Bool) :
    ofRatio negative num den = ofRank negative 0 := by
  rw [ofRatio, nearestRank_eq_zero h]

/-- The value after the greatest finite one would be `2 ^ 1024`. -/
theorem units_finiteCount : ∃ k, k = 1024 ∧ units finiteCount = 2 ^ k * unitsPerOne := by
  obtain ⟨j, hj, hunits⟩ := unitsPerOne_eq
  obtain ⟨k, hk⟩ : ∃ k, k = 1024 := ⟨1024, rfl⟩
  obtain ⟨e, he⟩ : ∃ e, e = 2045 := ⟨2045, rfl⟩
  have hcount : finiteCount = e * binade + 2 * binade := by
    rw [he]
    decide
  have hbinade : 2 * binade = 2 ^ 53 := by decide
  have hsum : 53 + e = k + j := by omega
  refine ⟨k, hk, ?_⟩
  rw [hcount, units_binade (by omega) (Nat.le_refl _), hunits]
  calc 2 * binade * 2 ^ e = 2 ^ (k + j) := by rw [hbinade, ← Nat.pow_add, hsum]
    _ = 2 ^ k * 2 ^ j := Nat.pow_add ..

theorem ofRatio_eq_infinity {num den : Nat} (hden : 0 < den)
    (h : units finiteCount * den ≤ num * unitsPerOne) (negative : Bool) :
    ofRatio negative num den = .infinity negative := by
  have hbelow := le_rankBelow.mpr ((Nat.le_div_iff_mul_le hden).mpr h)
  have hrank : ¬ nearestRank (num * unitsPerOne) den < finiteCount := by
    have hnearest := rankBelow_le_nearestRank (num * unitsPerOne) den
    omega
  rw [ofRatio, ofRank, dif_neg hrank]

end Number

namespace Decimal

theorem ratio_of_nonneg {d : Decimal} (h : 0 ≤ d.exponent) :
    d.ratio = (d.digits * 10 ^ d.exponent.toNat, 1) := by
  rw [ratio, if_pos h]
  rfl

theorem ratio_of_neg {d : Decimal} (h : d.exponent < 0) :
    d.ratio = (d.digits, 10 ^ (-d.exponent).toNat) := by
  rw [ratio, if_neg (Int.not_le.mpr h)]
  rfl

theorem ratio_neg (n k : Nat) : (⟨n, -k⟩ : Decimal).ratio = (n, 10 ^ k) := by
  cases k with
  | zero => simp [ratio]
  | succ k =>
    rw [ratio_of_neg (show -((k + 1 : Nat) : Int) < 0 by omega)]
    simp

theorem ratio_pos (d : Decimal) : 0 < d.ratio.2 := by
  rcases Int.lt_or_le d.exponent 0 with h | h
  · rw [ratio_of_neg h]
    exact Nat.pow_pos (by decide)
  · rw [ratio_of_nonneg h]
    exact Nat.one_pos

theorem digitCount_pos {n : Nat} (h : n ≠ 0) : 0 < digitCount n := by
  rw [digitCount, if_neg h]
  exact Nat.length_toDigits_pos

theorem lt_pow_digitCount (n : Nat) : n < 10 ^ digitCount n := by
  unfold digitCount
  split_ifs with h
  · rw [h]
    decide
  · exact (Nat.length_toDigits_le_iff (by decide) Nat.length_toDigits_pos).mp (Nat.le_refl _)

theorem pow_digitCount_le {n : Nat} (h : n ≠ 0) : 10 ^ (digitCount n - 1) ≤ n := by
  rcases Nat.eq_zero_or_pos (digitCount n - 1) with hone | hmore
  · rw [hone]
    omega
  · rw [← Nat.not_lt]
    intro hlt
    have hlength := (Nat.length_toDigits_le_iff (by decide) hmore).mpr hlt
    rw [digitCount, if_neg h] at hlength hmore
    omega

theorem two_pow_le_ten_pow {i j : Nat} (h : i ≤ 3 * j) : 2 ^ i ≤ 10 ^ j :=
  calc 2 ^ i ≤ 2 ^ (3 * j) := Nat.pow_le_pow_right (by decide) h
    _ = (2 ^ 3) ^ j := Nat.pow_mul ..
    _ ≤ 10 ^ j := Nat.pow_le_pow_left (by decide) _

/-- The limit as a variable, so that powers of it are never computed. -/
theorem magnitudeLimit_eq : ∃ m : Nat, m = 400 ∧ magnitudeLimit = m :=
  ⟨400, rfl, rfl⟩

/-- A decimal below the limit of magnitude is less than half of the least positive value. -/
theorem two_mul_lt_of_magnitude {d : Decimal} (h : d.magnitude < -magnitudeLimit) :
    2 * (d.ratio.1 * Number.unitsPerOne) < d.ratio.2 := by
  obtain ⟨k, hk, hunits⟩ := Number.unitsPerOne_eq
  obtain ⟨m, hm, hlimit⟩ := magnitudeLimit_eq
  rw [magnitude, hlimit] at h
  have hneg : d.exponent < 0 := by omega
  have hexponent : digitCount d.digits + m ≤ (-d.exponent).toNat := by omega
  have hpow : 2 ^ (k + 1) ≤ 10 ^ m := two_pow_le_ten_pow (by omega)
  rw [ratio_of_neg hneg, hunits]
  calc 2 * (d.digits * 2 ^ k) = d.digits * 2 ^ (k + 1) := by ring
    _ ≤ d.digits * 10 ^ m := Nat.mul_le_mul_left _ hpow
    _ < 10 ^ digitCount d.digits * 10 ^ m :=
      Nat.mul_lt_mul_of_pos_right (lt_pow_digitCount _) (Nat.pow_pos (by decide))
    _ = 10 ^ (digitCount d.digits + m) := (Nat.pow_add ..).symm
    _ ≤ 10 ^ (-d.exponent).toNat := Nat.pow_le_pow_right (by decide) hexponent

/-- A decimal above the limit of magnitude is above a large power of ten. -/
theorem ten_pow_le_of_magnitude {d : Decimal} {m : Nat} (hd : d.digits ≠ 0) (h : m < d.magnitude) :
    10 ^ m * d.ratio.2 ≤ d.ratio.1 := by
  unfold magnitude at h
  have hdigits := pow_digitCount_le hd
  have hcount := digitCount_pos hd
  rcases Int.lt_or_le d.exponent 0 with hneg | hnonneg
  · rw [ratio_of_neg hneg]
    calc 10 ^ m * 10 ^ (-d.exponent).toNat = 10 ^ (m + (-d.exponent).toNat) := (Nat.pow_add ..).symm
      _ ≤ 10 ^ (digitCount d.digits - 1) := Nat.pow_le_pow_right (by decide) (by omega)
      _ ≤ d.digits := hdigits
  · rw [ratio_of_nonneg hnonneg, Nat.mul_one]
    calc 10 ^ m ≤ 10 ^ (digitCount d.digits - 1 + d.exponent.toNat) :=
        Nat.pow_le_pow_right (by decide) (by omega)
      _ = 10 ^ (digitCount d.digits - 1) * 10 ^ d.exponent.toNat := Nat.pow_add ..
      _ ≤ d.digits * 10 ^ d.exponent.toNat := Nat.mul_le_mul_right _ hdigits

/-- A decimal above the limit of magnitude is above all finite values. -/
theorem units_finiteCount_le_of_magnitude {d : Decimal} (hd : d.digits ≠ 0)
    (h : magnitudeLimit < d.magnitude) :
    Number.units Number.finiteCount * d.ratio.2 ≤ d.ratio.1 * Number.unitsPerOne := by
  obtain ⟨k, hk, hunits⟩ := Number.units_finiteCount
  obtain ⟨m, hm, hlimit⟩ := magnitudeLimit_eq
  rw [hlimit] at h
  have hpow : 2 ^ k ≤ 10 ^ m := two_pow_le_ten_pow (by omega)
  rw [hunits, Nat.mul_right_comm]
  refine Nat.mul_le_mul_right _ ?_
  exact Nat.le_trans (Nat.mul_le_mul_right _ hpow) (ten_pow_le_of_magnitude hd h)

/-- The limits of magnitude spare large computations and change nothing. -/
theorem toNumber_eq_ofRatio (negative : Bool) (d : Decimal) :
    d.toNumber negative = .ofRatio negative d.ratio.1 d.ratio.2 := by
  unfold toNumber
  split_ifs with hsmall hlarge
  · symm
    apply Number.ofRatio_eq_zero
    simp only [Bool.or_eq_true, decide_eq_true_eq] at hsmall
    rcases hsmall with hzero | hmagnitude
    · have hnum : d.ratio.1 = 0 := by
        rcases Int.lt_or_le d.exponent 0 with h | h
        · rw [ratio_of_neg h, hzero]
        · rw [ratio_of_nonneg h, hzero, Nat.zero_mul]
      rw [hnum, Nat.zero_mul]
      exact d.ratio_pos
    · exact two_mul_lt_of_magnitude hmagnitude
  · simp only [Bool.or_eq_true, decide_eq_true_eq, not_or] at hsmall
    have hvalue := units_finiteCount_le_of_magnitude hsmall.1 hlarge
    exact (Number.ofRatio_eq_infinity d.ratio_pos hvalue negative).symm
  · rfl

end Decimal

namespace Number

theorem toNumber_of_readsAs {r : Fin finiteCount} {d : Decimal} (h : readsAs r d = true)
    (negative : Bool) : d.toNumber negative = .finite negative r := by
  have hrank : nearestRank (d.ratio.1 * unitsPerOne) d.ratio.2 = r := by simpa [readsAs] using h
  rw [Decimal.toNumber_eq_ofRatio, ofRatio, hrank, ofRank, dif_pos r.isLt]

/-- Only a decimal that reads back is chosen. -/
theorem reads_of_choose {tie : Tie} {reads : Decimal → Bool} {compares : Decimal → Ordering}
    {low high d : Decimal} (h : tie.choose reads compares low high = some d) : reads d = true := by
  unfold Tie.choose at h
  cases hlow : reads low <;> cases hhigh : reads high <;> simp only [hlow, hhigh] at h
  · cases h
  · cases h
    exact hhigh
  · cases h
    exact hlow
  · split at h <;> cases h
    · exact hlow
    · exact hhigh
    · exact hhigh
    · split
      · exact hlow
      · exact hhigh

theorem exactDecimal_eq :
    ∃ k : Nat, unitsPerOne = 2 ^ k ∧ ∀ r, exactDecimal r = ⟨units r * 5 ^ k, -k⟩ := by
  obtain ⟨k, hk, hunits⟩ := unitsPerOne_eq
  have hexponent : (-1074 : Int) = -k := by omega
  refine ⟨k, hunits, fun r => ?_⟩
  rw [exactDecimal, hexponent, ← hk]
  rfl

theorem readsAs_exactDecimal (r : Nat) : readsAs r (exactDecimal r) = true := by
  obtain ⟨k, hunits, hexact⟩ := exactDecimal_eq
  have hratio : (exactDecimal r).ratio = (units r * 5 ^ k, 10 ^ k) := by
    rw [hexact, Decimal.ratio_neg]
  have hscaled : units r * 5 ^ k * unitsPerOne = 10 ^ k * units r := by
    rw [hunits, show 10 = 5 * 2 from rfl, Nat.mul_pow]
    ring
  have hnearest := nearestRank_mul_left (k := 10 ^ k) (Nat.pow_pos (by decide)) (units r) 1
  rw [Nat.mul_one, nearestRank_units] at hnearest
  simp only [readsAs, hratio, hscaled, hnearest, beq_self_eq_true]

/-- Decimals of the same value read alike. -/
theorem readsAs_congr {d e : Decimal} {k : Nat} (hk : 0 < k) (hnum : d.ratio.1 = k * e.ratio.1)
    (hden : d.ratio.2 = k * e.ratio.2) (r : Nat) : readsAs r d = readsAs r e := by
  have hnearest : nearestRank (d.ratio.1 * unitsPerOne) d.ratio.2 =
      nearestRank (e.ratio.1 * unitsPerOne) e.ratio.2 := by
    rw [hnum, hden, Nat.mul_assoc, nearestRank_mul_left hk]
  rw [readsAs, readsAs, hnearest]

/-- A last digit zero can be dropped. -/
theorem readsAs_dropZero (r n : Nat) (exponent : Int) :
    readsAs r ⟨10 * n, exponent⟩ = readsAs r ⟨n, exponent + 1⟩ := by
  rcases Int.lt_or_le exponent 0 with hneg | hnonneg
  · obtain ⟨k, rfl⟩ : ∃ k : Nat, exponent = -(k + 1 : Nat) := ⟨(-exponent - 1).toNat, by omega⟩
    have hlong : (⟨10 * n, -(k + 1 : Nat)⟩ : Decimal).ratio = (10 * n, 10 * 10 ^ k) := by
      rw [Decimal.ratio_of_neg hneg, ← Nat.pow_succ']
      rfl
    have hshort : (⟨n, -(k + 1 : Nat) + 1⟩ : Decimal).ratio = (n, 10 ^ k) := by
      rw [show -((k + 1 : Nat) : Int) + 1 = -k by omega, Decimal.ratio_neg]
    exact readsAs_congr (k := 10) (by decide) (by rw [hlong, hshort]) (by rw [hlong, hshort]) r
  · have hnext : 0 ≤ exponent + 1 := by omega
    have hexponent : (exponent + 1).toNat = exponent.toNat + 1 := by omega
    have hratio : (⟨10 * n, exponent⟩ : Decimal).ratio = (⟨n, exponent + 1⟩ : Decimal).ratio := by
      rw [Decimal.ratio_of_nonneg hnonneg, Decimal.ratio_of_nonneg hnext]
      dsimp only
      rw [hexponent, Nat.pow_succ', Nat.mul_left_comm, Nat.mul_assoc]
    exact readsAs_congr (k := 1) (by decide) (by rw [hratio, Nat.one_mul])
      (by rw [hratio, Nat.one_mul]) r

theorem readsAs_of_onGrid? {tie : Tie} {r : Nat} {exponent : Int} {d : Decimal}
    (h : onGrid? tie r exponent = some d) : readsAs r d = true := by
  unfold onGrid? at h
  exact reads_of_choose h

/-- The first decimal that is found on some grids reads back, and so does the exact one. -/
theorem readsAs_found (tie : Tie) (r : Nat) (grids : List Int) :
    readsAs r ((grids.findSome? (onGrid? tie r)).getD (exactDecimal r)) = true := by
  cases hgrid : grids.findSome? (onGrid? tie r) with
  | none => exact readsAs_exactDecimal r
  | some d =>
    obtain ⟨exponent, -, hd⟩ := List.exists_of_findSome?_eq_some hgrid
    exact readsAs_of_onGrid? hd

/-- A carry into a further digit is dropped without a change of value. -/
theorem readsAs_dropCarry {r : Nat} {d : Decimal} (h : readsAs r d = true) :
    readsAs r (if d.digits = 10 then ⟨1, d.exponent + 1⟩ else d) = true := by
  obtain ⟨digits, exponent⟩ := d
  dsimp only
  split_ifs with hten
  · subst hten
    exact (readsAs_dropZero r 1 exponent).symm.trans h
  · exact h

/-- What is written for a number reads back. -/
theorem readsAs_shortest (tie : Tie) (r : Nat) : readsAs r (shortest tie r) = true := by
  have h := readsAs_dropCarry
    (readsAs_found tie r ((List.range maxDigits).map fun (n : Nat) => magnitude r - 1 - (n : Int)))
  rw [shortest]
  exact h

end Number

end StackCompiler
