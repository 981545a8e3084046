import StackCompiler.Number.Basic
import Mathlib.Tactic.Ring
import Mathlib.Algebra.Order.Ring.Nat

/-!
# Whole numbers that are exact

A whole number that is not too large is itself a value of the machine, and the values next to it are
less than one away. So no other whole number is rounded to the same value: the constant in an
instruction tells the number that it was made from.
-/
namespace StackCompiler.Number

theorem binade_pos : 0 < binade := by decide

/-- One is a power of two of the units. The exponent is kept as a variable, so that the power is
never computed. -/
theorem unitsPerOne_eq : ∃ k, k = 1074 ∧ unitsPerOne = Nat.pow 2 k := by
  refine ⟨1074, rfl, ?_⟩
  unfold unitsPerOne
  rfl

theorem unitsPerOne_pos : 0 < unitsPerOne := by
  obtain ⟨k, -, hunits⟩ := unitsPerOne_eq
  rw [hunits]
  exact Nat.two_pow_pos k

/-- The values of one binade, both ends included, are equally far apart. -/
theorem units_binade {e q : Nat} (hlow : binade ≤ q) (hhigh : q ≤ 2 * binade) :
    units (e * binade + q) = q * 2 ^ e := by
  have hpos := binade_pos
  have hnot : ¬ e * binade + q < binade := by omega
  rw [units, if_neg hnot]
  rcases Nat.lt_or_eq_of_le hhigh with hlt | rfl
  · -- inside the binade the quotient is its number and the remainder the place in it
    have hq : q = binade + (q - binade) := by omega
    have hplace : q - binade < binade := by omega
    have hsum : e * binade + q = (q - binade) + (e + 1) * binade := by
      rw [Nat.add_mul, Nat.one_mul]
      omega
    have hmod : (e * binade + q) % binade = q - binade := by
      rw [hsum, Nat.add_mul_mod_self_right, Nat.mod_eq_of_lt hplace]
    have hdiv : (e * binade + q) / binade = e + 1 := by
      rw [hsum, Nat.add_mul_div_right _ _ hpos, Nat.div_eq_of_lt hplace, Nat.zero_add]
    rw [hmod, hdiv, ← hq, Nat.add_sub_cancel]
    rfl
  · have hsum : e * binade + 2 * binade = (e + 2) * binade := by ring
    rw [hsum, Nat.mul_mod_left, Nat.mul_div_cancel _ hpos, Nat.add_zero]
    show binade * 2 ^ (e + 1) = _
    ring

theorem units_of_lt {r : Nat} (h : r ≤ 2 * binade) : units r = r := by
  rcases Nat.lt_or_ge r binade with hlt | hge
  · rw [units, if_pos hlt]
  · have hunits := units_binade (e := 0) hge h
    simpa using hunits

/-- The leading bits of a number that is not small: `n / 2 ^ e` has as many as a binade has. -/
theorem leading_bits {n : Nat} (h : 2 * binade ≤ n) :
    binade ≤ n / 2 ^ (n.log2 - 52) ∧ n / 2 ^ (n.log2 - 52) < 2 * binade := by
  have hpos := binade_pos
  have hne : n ≠ 0 := by omega
  have hlog : 53 ≤ n.log2 := (Nat.le_log2 hne).mpr h
  have hsplit : n.log2 = 52 + (n.log2 - 52) := by omega
  constructor
  · rw [Nat.le_div_iff_mul_le (Nat.two_pow_pos _)]
    calc binade * 2 ^ (n.log2 - 52) = 2 ^ (52 + (n.log2 - 52)) := (Nat.pow_add ..).symm
      _ = 2 ^ n.log2 := by rw [← hsplit]
      _ ≤ n := Nat.log2_self_le hne
  · rw [Nat.div_lt_iff_lt_mul (Nat.two_pow_pos _)]
    calc n < 2 ^ (n.log2 + 1) := Nat.lt_log2_self
      _ = 2 ^ (53 + (n.log2 - 52)) := by rw [show n.log2 + 1 = 53 + (n.log2 - 52) by omega]
      _ = 2 * binade * 2 ^ (n.log2 - 52) := Nat.pow_add ..

theorem units_rankBelow_le (n : Nat) : units (rankBelow n) ≤ n := by
  unfold rankBelow
  split
  · rename_i hlt
    rw [units_of_lt (Nat.le_of_lt hlt)]
  · rename_i hge
    obtain ⟨hlow, hhigh⟩ := leading_bits (Nat.not_lt.mp hge)
    have hunits := units_binade (e := n.log2 - 52) hlow (Nat.le_of_lt hhigh)
    exact hunits ▸ Nat.div_mul_le_self n _

theorem lt_units_rankBelow (n : Nat) : n < units (rankBelow n + 1) := by
  unfold rankBelow
  split
  · rename_i hlt
    rw [units_of_lt hlt]
    omega
  · rename_i hge
    obtain ⟨hlow, hhigh⟩ := leading_bits (Nat.not_lt.mp hge)
    have hunits := units_binade (e := n.log2 - 52) (Nat.le_succ_of_le hlow) hhigh
    have hdiv : n < (n / 2 ^ (n.log2 - 52) + 1) * 2 ^ (n.log2 - 52) :=
      Nat.lt_mul_of_div_lt (Nat.lt_succ_self _) (Nat.two_pow_pos _)
    rw [Nat.add_assoc]
    exact Nat.lt_of_lt_of_eq hdiv hunits.symm

/-- Rounding gives the value below or the one above. -/
theorem nearestRank_cases (n : Nat) :
    nearestRank n 1 = rankBelow n ∨ nearestRank n 1 = rankBelow n + 1 := by
  simp only [nearestRank, Nat.div_one]
  split_ifs
  · exact .inl rfl
  · exact .inr rfl
  · omega

/-- A value is rounded to itself. -/
theorem nearestRank_of_units {n : Nat} (h : units (rankBelow n) = n) :
    nearestRank n 1 = rankBelow n := by
  have hlt := lt_units_rankBelow n
  simp only [nearestRank, Nat.div_one, Nat.one_mul]
  rw [if_pos (by omega)]

/-- A whole number of moderate size that is not zero: its rank, and how far apart the values around
it are. -/
theorem exists_exact {n : Nat} (hpos : 0 < n) (hn : n ≤ 2 ^ 31) :
    ∃ e q, 0 < e ∧ e < 1054 ∧ binade ≤ q ∧ q < 2 * binade ∧
      rankBelow (n * unitsPerOne) = e * binade + q ∧ q * 2 ^ e = n * unitsPerOne := by
  obtain ⟨k, hk, hunits⟩ := unitsPerOne_eq
  have hne : n * unitsPerOne ≠ 0 := Nat.ne_of_gt (Nat.mul_pos hpos unitsPerOne_pos)
  have hlarge : 2 ^ k ≤ n * unitsPerOne := hunits ▸ Nat.le_mul_of_pos_left _ hpos
  have hbound : n * unitsPerOne < 2 ^ (32 + k) :=
    calc n * unitsPerOne ≤ 2 ^ 31 * 2 ^ k := hunits ▸ Nat.mul_le_mul_right _ hn
      _ < 2 ^ 32 * 2 ^ k := Nat.mul_lt_mul_of_pos_right (by decide) (Nat.two_pow_pos k)
      _ = 2 ^ (32 + k) := (Nat.pow_add ..).symm
  have hbinade : 2 * binade ≤ n * unitsPerOne :=
    Nat.le_trans (show 2 ^ 53 ≤ 2 ^ k from Nat.pow_le_pow_right (by decide) (by omega)) hlarge
  have hlow : k ≤ (n * unitsPerOne).log2 := (Nat.le_log2 hne).mpr hlarge
  have hhigh : (n * unitsPerOne).log2 < 32 + k := (Nat.log2_lt hne).mpr hbound
  obtain ⟨hq, hq'⟩ := leading_bits hbinade
  refine ⟨(n * unitsPerOne).log2 - 52, _, by omega, by omega, hq, hq', ?_, ?_⟩
  · rw [rankBelow, if_neg (Nat.not_lt.mpr hbinade)]
    rfl
  · have hdvd : ∀ e ≤ k, 2 ^ e ∣ n * unitsPerOne := by
      intro e he
      rw [hunits]
      exact Dvd.dvd.mul_left (Nat.pow_dvd_pow 2 he) n
    exact Nat.div_mul_cancel (hdvd _ (by omega))

/-- A whole number of moderate size is rounded to a value that no other whole number is rounded to.
-/
theorem nearestRank_inj {m n : Nat} (hm : m ≤ 2 ^ 31)
    (h : nearestRank (m * unitsPerOne) 1 = nearestRank (n * unitsPerOne) 1) : m = n := by
  have hone := unitsPerOne_pos
  have hbelow := units_rankBelow_le (n * unitsPerOne)
  have habove := lt_units_rankBelow (n * unitsPerOne)
  rcases Nat.eq_zero_or_pos m with rfl | hpos
  · -- only zero lies below the least positive value
    rw [Nat.zero_mul] at h
    have hzero : nearestRank 0 1 = 0 := rfl
    rcases nearestRank_cases (n * unitsPerOne) with hr | hr
    · rw [show rankBelow (n * unitsPerOne) = 0 by omega, Nat.zero_add,
        units_of_lt (by decide)] at habove
      have : n * unitsPerOne = 0 := by omega
      exact ((Nat.mul_eq_zero.mp this).resolve_right (Nat.ne_of_gt hone)).symm
    · omega
  · obtain ⟨e, q, he, he', hq, hq', hrank, hexact⟩ := exists_exact hpos hm
    have hvalue : units (rankBelow (m * unitsPerOne)) = m * unitsPerOne := by
      rw [hrank, units_binade hq (Nat.le_of_lt hq'), hexact]
    rw [nearestRank_of_units hvalue] at h
    have hgap : 2 ^ e < unitsPerOne := by
      obtain ⟨k, hk, hunits⟩ := unitsPerOne_eq
      rw [hunits]
      exact Nat.pow_lt_pow_right (by decide) (by omega)
    rcases nearestRank_cases (n * unitsPerOne) with hr | hr
    · -- `n` lies between `m` and the next value
      rw [← hr, ← h, hrank, Nat.add_assoc, units_binade (by omega) hq', Nat.succ_mul,
        hexact] at habove
      rw [← hr, ← h, hvalue] at hbelow
      have hlt : n * unitsPerOne < (m + 1) * unitsPerOne := by
        rw [Nat.add_mul, Nat.one_mul]
        omega
      have hle := Nat.le_of_mul_le_mul_right hbelow hone
      have hlt' := Nat.lt_of_mul_lt_mul_right hlt
      omega
    · -- `n` lies between the value before `m` and `m`
      rw [← hr, ← h, hvalue] at habove
      have hprevious : m * unitsPerOne ≤ units (rankBelow (n * unitsPerOne)) + 2 ^ e := by
        rcases Nat.lt_or_eq_of_le hq with hlt | heq
        · have hr' : rankBelow (n * unitsPerOne) = e * binade + (q - 1) := by omega
          rw [hr', units_binade (by omega) (by omega), ← hexact, Nat.sub_mul, Nat.one_mul]
          omega
        · obtain ⟨d, rfl⟩ : ∃ d, e = d + 1 := ⟨e - 1, by omega⟩
          have hr' : rankBelow (n * unitsPerOne) = d * binade + (2 * binade - 1) := by
            rw [Nat.add_mul, Nat.one_mul] at hrank
            have := binade_pos
            omega
          have hpow : binade * 2 ^ (d + 1) = 2 * binade * 2 ^ d := by ring
          rw [hr', units_binade (by omega) (by omega), ← hexact, ← heq, hpow, Nat.sub_mul,
            Nat.one_mul, Nat.pow_succ]
          omega
      have hlt := Nat.lt_of_mul_lt_mul_right habove
      have hle : n * unitsPerOne + unitsPerOne ≤ m * unitsPerOne := by
        rw [← Nat.succ_mul]
        exact Nat.mul_le_mul_right _ hlt
      omega

/-- The constant made from a whole number of moderate size tells the number. -/
theorem ofNat_inj {m n : Nat} (hm : m ≤ 2 ^ 31) (h : ofNat m = ofNat n) : m = n := by
  have hrank : nearestRank (m * unitsPerOne) 1 < finiteCount := by
    rcases Nat.eq_zero_or_pos m with rfl | hpos
    · rw [Nat.zero_mul]
      decide
    · obtain ⟨e, q, -, he, -, hq, hr, -⟩ := exists_exact hpos hm
      have hle : rankBelow (m * unitsPerOne) + 1 ≤ 1056 * binade := by
        have : e * binade ≤ 1053 * binade := Nat.mul_le_mul_right _ (by omega)
        omega
      have hfinite : 1056 * binade < finiteCount := by decide
      rcases nearestRank_cases (m * unitsPerOne) with h | h <;> omega
  unfold ofNat ofRatio ofRank at h
  rw [dif_pos hrank] at h
  split_ifs at h with hn
  · injection h with _ hval
    exact nearestRank_inj hm (Fin.mk.inj hval)

end StackCompiler.Number
