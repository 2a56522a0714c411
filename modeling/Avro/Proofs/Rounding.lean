import Avro.Number.Double
import Mathlib

/-!
Contract: rounding finds a number again from every real in its interval.

Owns: the exact value of a finite number in the rationals, `Double.Near`, the interval of rationals
that round to a number, and that `roundMagnitude` gives the pattern of the number for each of them.

The interval is half a unit of the last place wide on either side, and half as wide below a power of
two, where the numbers are twice as dense. The ends belong to it if the significand is even.
-/

namespace Avro

variable {num den result base : Nat} {exponent : Int}

/-! ### Rounding to naturals -/

private theorem roundHalfEven_eq (positive : 0 < den) (lower : 2 * result * den ≤ 2 * num + den)
    (upper : 2 * num ≤ (2 * result + 1) * den)
    (tie : 2 * result * den = 2 * num + den ∨ 2 * num = (2 * result + 1) * den → result % 2 = 0) :
    roundHalfEven num den = result := by
  have division := Nat.div_add_mod num den
  have remainder := Nat.mod_lt num positive
  unfold roundHalfEven
  generalize num / den = quotient at division ⊢
  generalize num % den = rest at division remainder ⊢
  have atLeast : quotient ≤ result := by
    by_contra less
    have : (2 * result + 2) * den ≤ 2 * quotient * den := Nat.mul_le_mul_right den (by omega)
    nlinarith
  have atMost : result ≤ quotient + 1 := by
    by_contra more
    have : (2 * quotient + 4) * den ≤ 2 * result * den := Nat.mul_le_mul_right den (by omega)
    nlinarith
  rcases Nat.lt_or_eq_of_le atLeast with isNext | rfl
  · obtain rfl : result = quotient + 1 := by omega
    have reached : den ≤ 2 * rest := by nlinarith
    rcases Nat.lt_or_eq_of_le reached with beyond | half
    · simp [beyond]
    · have isEven := tie (.inl (by nlinarith))
      have isOdd : quotient % 2 = 1 := by omega
      simp [half, isOdd]
  · have notBeyond : 2 * rest ≤ den := by nlinarith
    rcases Nat.lt_or_eq_of_le notBeyond with under | half
    · have notHalf : 2 * rest ≠ den := by omega
      simp [Nat.not_lt.mpr notBeyond, notHalf]
    · have isEven := tie (.inr (by nlinarith))
      simp [half, isEven]

/-- A ratio is rounded to the natural number that is nearest, and to the even one of two that are
equally near. -/
theorem roundHalfEven_of_near (positive : 0 < den) (near : |(num : ℚ) / den - result| ≤ 1 / 2)
    (tie : |(num : ℚ) / den - result| = 1 / 2 → result % 2 = 0) :
    roundHalfEven num den = result := by
  have denPositive : (0 : ℚ) < den := by exact_mod_cast positive
  have ratio : (num : ℚ) / den * den = num := div_mul_cancel₀ _ denPositive.ne'
  generalize (num : ℚ) / den = value at near tie ratio
  obtain ⟨lower, upper⟩ := abs_le.mp near
  refine roundHalfEven_eq positive ?_ ?_ fun ends => tie ?_
  · have : (2 * result * den : ℚ) ≤ 2 * num + den := by nlinarith
    exact_mod_cast this
  · have : (2 * num : ℚ) ≤ (2 * result + 1) * den := by nlinarith
    exact_mod_cast this
  · rcases ends with low | high
    · have low' : (2 * result * den : ℚ) = 2 * num + den := by exact_mod_cast low
      have : value - result = -(1 / 2) := by
        have := mul_right_cancel₀ denPositive.ne'
          (show 2 * (value - result) * den = -1 * den by linarith)
        linarith
      rw [this]
      norm_num
    · have high' : (2 * num : ℚ) = (2 * result + 1) * den := by exact_mod_cast high
      have : value - result = 1 / 2 := by
        have := mul_right_cancel₀ denPositive.ne'
          (show 2 * (value - result) * den = 1 * den by linarith)
        linarith
      rw [this]
      norm_num

/-! ### Powers -/

/-- A ratio in units of a power is a ratio of naturals again. -/
theorem div_zpow (base : Nat) (exponent : Int) (num den : Nat) :
    (num : ℚ) / den / (base : ℚ) ^ exponent =
      ((if exponent ≥ 0 then num else num * Nat.pow base (-exponent).toNat : Nat) : ℚ) /
        (if exponent ≥ 0 then den * Nat.pow base exponent.toNat else den : Nat) := by
  by_cases nonneg : exponent ≥ 0
  · obtain ⟨power, rfl⟩ := Int.eq_ofNat_of_zero_le nonneg
    simp [div_div]
  · obtain ⟨power, rfl⟩ : ∃ power : Nat, exponent = -(power : Int) := ⟨(-exponent).toNat, by omega⟩
    rw [if_neg nonneg, if_neg nonneg]
    simp only [neg_neg, Int.toNat_natCast, zpow_neg, zpow_natCast, div_inv_eq_mul, Nat.cast_mul,
      Nat.pow_eq, Nat.cast_pow]
    ring

theorem log_two_eq {value : ℚ} {power : Int} (lower : (2 : ℚ) ^ power ≤ value)
    (upper : value < 2 ^ (power + 1)) : Int.log 2 value = power := by
  have base : 1 < 2 := by decide
  have positive : 0 < value := lt_of_lt_of_le (zpow_pos (by norm_num) power) lower
  have atLeast : power ≤ Int.log 2 value :=
    (Int.zpow_le_iff_le_log base positive).mp (by exact_mod_cast lower)
  have below : Int.log 2 value < power + 1 :=
    (Int.lt_zpow_iff_log_lt base positive).mp (by exact_mod_cast upper)
  omega

/-- The logarithm of a ratio is that of its numerator less that of its denominator, or one less. -/
theorem floorLog2_eq_log (numPositive : 0 < num) (denPositive : 0 < den) :
    floorLog2 num den = Int.log 2 ((num : ℚ) / den) := by
  have numLower : (2 : ℚ) ^ num.log2 ≤ num := by exact_mod_cast Nat.log2_self_le numPositive.ne'
  have numUpper : (num : ℚ) < 2 ^ (num.log2 + 1) := by exact_mod_cast Nat.lt_log2_self
  have denLower : (2 : ℚ) ^ den.log2 ≤ den := by exact_mod_cast Nat.log2_self_le denPositive.ne'
  have denUpper : (den : ℚ) < 2 ^ (den.log2 + 1) := by exact_mod_cast Nat.lt_log2_self
  have ratioDen : (0 : ℚ) < den := by exact_mod_cast denPositive
  have quotient (first second : Nat) :
      (2 : ℚ) ^ ((first : Int) - second) = 2 ^ first / 2 ^ second := by
    rw [zpow_sub₀ two_ne_zero, zpow_natCast, zpow_natCast]
  -- One power above the estimate is out of reach, one below is reached.
  have above : (num : ℚ) / den < 2 ^ ((num.log2 : Int) - den.log2 + 1) := by
    rw [show (num.log2 : Int) - den.log2 + 1 = ((num.log2 + 1 : Nat) : Int) -
      den.log2 by push_cast; ring, quotient]
    exact div_lt_div₀ numUpper denLower (by positivity) (by positivity)
  have below : (2 : ℚ) ^ ((num.log2 : Int) - den.log2 - 1) ≤ num / den := by
    rw [show (num.log2 : Int) - den.log2 - 1 = (num.log2 : Int) -
      ((den.log2 + 1 : Nat) : Int) by push_cast; ring, quotient]
    exact div_le_div₀ (by positivity) numLower ratioDen denUpper.le
  unfold floorLog2
  generalize (num.log2 : Int) - den.log2 = estimate at above below ⊢
  have reached : (if estimate ≥ 0 then decide (den * Nat.pow 2 estimate.toNat ≤ num)
      else decide (den ≤ num * Nat.pow 2 (-estimate).toNat)) = true ↔
      (2 : ℚ) ^ estimate ≤ num / den := by
    have units := div_zpow 2 estimate num den
    rw [Nat.cast_ofNat] at units
    have power : (0 : ℚ) < 2 ^ estimate := zpow_pos (by norm_num) _
    rw [← one_le_div power, units]
    split
    · have scaled : 0 < den * Nat.pow 2 estimate.toNat :=
        Nat.mul_pos denPositive (Nat.pow_pos (by decide))
      rw [one_le_div (by exact_mod_cast scaled), Nat.cast_le, decide_eq_true_eq]
    · rw [one_le_div ratioDen, Nat.cast_le, decide_eq_true_eq]
  by_cases atEstimate : (2 : ℚ) ^ estimate ≤ num / den
  · rw [if_pos (reached.mpr atEstimate), log_two_eq atEstimate above]
  · rw [if_neg (mt reached.mp atEstimate),
      log_two_eq below (by rw [sub_add_cancel]; exact not_le.mp atEstimate)]

/-! ### Rounding to the format -/

private theorem roundHalfEven_scaled (denPositive : 0 < den)
    (near : |(num : ℚ) / den / 2 ^ exponent - result| ≤ 1 / 2)
    (tie : |(num : ℚ) / den / 2 ^ exponent - result| = 1 / 2 → result % 2 = 0) :
    (if exponent ≥ 0 then roundHalfEven num (den * Nat.pow 2 exponent.toNat)
      else roundHalfEven (num * Nat.pow 2 (-exponent).toNat) den) = result := by
  have units := div_zpow 2 exponent num den
  rw [Nat.cast_ofNat] at units
  rw [units] at near tie
  split at near
  · rename_i nonneg
    rw [if_pos nonneg, if_pos nonneg] at tie
    rw [if_pos nonneg]
    exact roundHalfEven_of_near (Nat.mul_pos denPositive (Nat.pow_pos (by decide))) near tie
  · rename_i negative
    rw [if_neg negative, if_neg negative] at tie
    rw [if_neg negative]
    exact roundHalfEven_of_near denPositive near tie

/-- The pattern of a ratio: the last place by its logarithm, and the natural number nearest to it in
units of that place. -/
theorem roundMagnitude_eq (numPositive : 0 < num) (denPositive : 0 < den)
    (exponentIs : max (Int.log 2 ((num : ℚ) / den) - 52) (-1074) = exponent)
    (near : |(num : ℚ) / den / 2 ^ exponent - result| ≤ 1 / 2)
    (tie : |(num : ℚ) / den / 2 ^ exponent - result| = 1 / 2 → result % 2 = 0)
    (finite : (exponent + 1074).toNat * 2 ^ 52 + result < 2047 * 2 ^ 52) :
    BinaryFormat.binary64.roundMagnitude num den =
      some ((exponent + 1074).toNat * 2 ^ 52 + result) := by
  have lastPlace : max (floorLog2 num den - (((53 : Nat) : Int) - 1)) (-1074) = exponent := by
    rw [floorLog2_eq_log numPositive denPositive, ← exponentIs]
    norm_num
  unfold BinaryFormat.roundMagnitude
  rw [if_neg numPositive.ne']
  simp only [BinaryFormat.binary64, lastPlace, roundHalfEven_scaled denPositive near tie,
    sub_neg_eq_add]
  exact if_pos finite

/-! ### Numbers -/

namespace Double

variable {value : ℚ}

section Parts

variable (number : Double)

theorem magnitude_lt : number.magnitude < 2 ^ 63 := Nat.mod_lt _ (by decide)

private theorem fraction_lt : number.fraction < 2 ^ 52 := Nat.mod_lt _ (by decide)

theorem exponent_lower : -1074 ≤ number.exponent := by
  unfold exponent
  split <;> omega

theorem exponent_upper (finite : number.isFinite = true) : number.exponent ≤ 971 := by
  have field : number.exponentField ≠ 2047 := by simpa [isFinite] using finite
  have small : number.exponentField < 2048 := Nat.div_lt_of_lt_mul number.magnitude_lt
  unfold exponent
  split <;> omega

theorem significand_lt : number.significand < 2 ^ 53 := by
  have fraction := number.fraction_lt
  unfold significand
  split
  · omega
  · rw [Nat.pow_eq]
    omega

theorem magnitude_eq :
    number.magnitude = (number.exponent + 1074).toNat * 2 ^ 52 + number.significand := by
  have division : 2 ^ 52 * number.exponentField + number.fraction = number.magnitude :=
    Nat.div_add_mod _ _
  unfold exponent significand
  split
  · rename_i subnormal
    simp only [subnormal] at division
    omega
  · simp only [Nat.pow_eq]
    omega

/-- The numbers with the least exponent apart, the significand has all its bits. -/
theorem significand_lower (normal : -1074 < number.exponent) :
    2 ^ 52 ≤ number.significand ∧ 1 < number.exponentField := by
  unfold exponent at normal
  unfold significand
  split at normal
  · omega
  · rename_i present
    rw [if_neg present, Nat.pow_eq]
    omega

private theorem fraction_of_significand (normal : -1074 < number.exponent)
    (least : number.significand = 2 ^ 52) : number.fraction = 0 := by
  have present := (number.significand_lower normal).2
  unfold significand at least
  rw [if_neg (by omega), Nat.pow_eq] at least
  omega

private theorem magnitude_finite (finite : number.isFinite = true) :
    number.magnitude < 2047 * 2 ^ 52 := by
  have field : number.exponentField ≠ 2047 := by simpa [isFinite] using finite
  have small := number.magnitude_lt
  unfold exponentField at field
  simp only [Nat.pow_eq] at field
  omega

end Parts

/-- How far a number reaches down, in units of its last place. -/
def reachBelow (number : Double) : ℚ :=
  if number.fraction = 0 && number.exponentField > 1 then 1 / 4 else 1 / 2

/-- The rationals that round to a number, in units of its last place. -/
structure Near (number : Double) (value : ℚ) : Prop where
  lower : number.significand - number.reachBelow ≤ value / 2 ^ number.exponent
  upper : value / 2 ^ number.exponent ≤ number.significand + 1 / 2
  ends : value / 2 ^ number.exponent = number.significand - number.reachBelow ∨
    value / 2 ^ number.exponent = number.significand + 1 / 2 → number.significand % 2 = 0

variable {number : Double}

theorem reachBelow_le (number : Double) : number.reachBelow ≤ 1 / 2 := by
  unfold reachBelow
  split <;> norm_num

theorem Near.near_significand (near : number.Near value) :
    |value / 2 ^ number.exponent - number.significand| ≤ 1 / 2 := by
  have reach := number.reachBelow_le
  rw [abs_le]
  exact ⟨by linarith [near.lower], by linarith [near.upper]⟩

theorem Near.even_of_tie (near : number.Near value)
    (tie : |value / 2 ^ number.exponent - number.significand| = 1 / 2) :
    number.significand % 2 = 0 := by
  have reach := number.reachBelow_le
  refine near.ends ?_
  rcases (abs_eq (by norm_num)).mp tie with above | below
  · exact .inr (by linarith)
  · exact .inl (by linarith [near.lower])

/-- Rounding finds a number again from each rational of its interval. -/
theorem Near.roundMagnitude {num den : Nat} (near : number.Near ((num : ℚ) / den))
    (finite : number.isFinite = true) (numPositive : 0 < num) (denPositive : 0 < den) :
    BinaryFormat.binary64.roundMagnitude num den = some number.magnitude := by
  have numPositive' : (0 : ℚ) < num := by exact_mod_cast numPositive
  have denPositive' : (0 : ℚ) < den := by exact_mod_cast denPositive
  have positive : (0 : ℚ) < num / den := div_pos numPositive' denPositive'
  have place : (0 : ℚ) < 2 ^ number.exponent := zpow_pos (by norm_num) _
  have lowest := number.exponent_lower
  have small : (number.significand : ℚ) + 1 ≤ 2 ^ 53 := by exact_mod_cast number.significand_lt
  have finiteMagnitude := number.magnitude_finite finite
  -- The last place of the ratio is that of the number, unless the number is a power of two and the
  -- ratio lies below it.
  have ofSamePlace (same : max (Int.log 2 ((num : ℚ) / den) - 52) (-1074) = number.exponent) :
      BinaryFormat.binary64.roundMagnitude num den = some number.magnitude := by
    rw [number.magnitude_eq] at finiteMagnitude ⊢
    exact roundMagnitude_eq numPositive denPositive same near.near_significand near.even_of_tie
      finiteMagnitude
  have inUnits : (num : ℚ) / den = (num : ℚ) / den / 2 ^ number.exponent * 2 ^ number.exponent :=
    (div_mul_cancel₀ _ place.ne').symm
  have upper := near.upper
  have lower := near.lower
  by_cases reaches : (2 : ℚ) ^ (52 : Int) ≤ (num : ℚ) / den / 2 ^ number.exponent
  · have log : Int.log 2 ((num : ℚ) / den) = 52 + number.exponent := by
      refine log_two_eq ?_ ?_
      · rw [zpow_add₀ two_ne_zero, inUnits]
        gcongr
      · rw [show 52 + number.exponent + 1 = 53 + number.exponent by ring,
          zpow_add₀ two_ne_zero, inUnits]
        gcongr
        calc (num : ℚ) / den / 2 ^ number.exponent ≤ number.significand + 1 / 2 := upper
          _ < 2 ^ 53 := by linarith
          _ = 2 ^ (53 : Int) := by norm_num
    exact ofSamePlace (by omega)
  · have under : (num : ℚ) / den / 2 ^ number.exponent < 2 ^ (52 : Int) := not_le.mp reaches
    have log : Int.log 2 ((num : ℚ) / den) < 52 + number.exponent := by
      refine (Int.lt_zpow_iff_log_lt (show 1 < 2 by decide) positive).mp ?_
      rw [Nat.cast_ofNat, zpow_add₀ two_ne_zero, inUnits]
      gcongr
    by_cases least : number.exponent = -1074
    · exact ofSamePlace (by omega)
    · have normal : -1074 < number.exponent := by omega
      have ⟨full, field⟩ := number.significand_lower normal
      have reach := number.reachBelow_le
      have isPower : number.significand = 2 ^ 52 := by
        have less : (number.significand : ℚ) < 2 ^ 52 + 1 := by
          rw [show (2 : ℚ) ^ (52 : Int) = 2 ^ 52 by norm_num] at under
          linarith
        have less' : number.significand < 2 ^ 52 + 1 := by exact_mod_cast less
        omega
      have quarter : number.reachBelow = 1 / 4 := by
        simp [reachBelow, number.fraction_of_significand normal isPower, field]
      rw [quarter, isPower] at lower
      push_cast at lower
      rw [show (2 : ℚ) ^ (52 : Int) = 2 ^ 52 by norm_num] at under
      have halved : (num : ℚ) / den / 2 ^ (number.exponent - 1) = 2 *
          ((num : ℚ) / den / 2 ^ number.exponent) := by
        rw [zpow_sub_one₀ two_ne_zero]
        field_simp
      have logIs : Int.log 2 ((num : ℚ) / den) = 51 + number.exponent := by
        refine log_two_eq ?_ ?_
        · rw [zpow_add₀ two_ne_zero, inUnits]
          gcongr
          calc (2 : ℚ) ^ (51 : Int) ≤ 2 ^ 52 - 1 / 4 := by norm_num
            _ ≤ (num : ℚ) / den / 2 ^ number.exponent := lower
        · rw [show 51 + number.exponent + 1 = 52 + number.exponent by ring,
            zpow_add₀ two_ne_zero, inUnits]
          gcongr
          simpa using under
      have patternIs : number.magnitude = (number.exponent - 1 + 1074).toNat * 2 ^ 52 + 2 ^ 53 := by
        rw [number.magnitude_eq, isPower]
        omega
      rw [patternIs] at finiteMagnitude ⊢
      refine roundMagnitude_eq numPositive denPositive (by omega) ?_ (fun _ => by decide)
        finiteMagnitude
      rw [halved, abs_le]
      push_cast
      exact ⟨by linarith, by linarith⟩

end Double

end Avro
