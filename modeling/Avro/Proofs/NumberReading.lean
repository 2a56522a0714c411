import Avro.Proofs.JsonText
import Avro.Proofs.Rounding

/-!
Contract: a floating-point number is read back from its text.

Owns: that the digits found for a finite number lie in the interval of reals that round to it, since
seventeen digits are always enough, and that reading the text of a number therefore gives the number
again. Of the undefined numbers one has a text, so each of them is read as that one.
-/

namespace Avro

open Json (pointOn_some)

variable {value : ℚ}

namespace Double

variable {number : Double} {grid : Nat} {place : Int}
variable {interval : Neighbourhood} {fuel num den : Nat}

/-! ### The interval -/

/-- A multiple of a quarter of the last place, as the interval holds it. -/
theorem quarters_eq (number : Double) (count : Nat) :
    ((count * (if number.exponent - 2 ≥ 0 then Nat.pow 2 (number.exponent - 2).toNat else 1) :
      Nat) : ℚ) /
      (number.neighbourhood.denominator : ℚ) = count / 4 * 2 ^ number.exponent := by
  have quarter : (2 : ℚ) ^ (number.exponent - 2) = 2 ^ number.exponent / 4 := by
    rw [zpow_sub₀ two_ne_zero]
    norm_num
  have inUnits : (count : ℚ) / 4 * 2 ^ number.exponent = count * 2 ^ (number.exponent - 2) := by
    rw [quarter]
    ring
  rw [inUnits]
  unfold neighbourhood
  simp only
  generalize number.exponent - 2 = unit
  by_cases nonneg : unit ≥ 0
  · obtain ⟨power, rfl⟩ := Int.eq_ofNat_of_zero_le nonneg
    simp
  · obtain ⟨power, rfl⟩ : ∃ power : Nat, unit = -(power : Int) := ⟨(-unit).toNat, by omega⟩
    rw [if_neg nonneg, if_neg nonneg]
    simp [div_eq_mul_inv]

theorem denominator_pos (number : Double) : 0 < number.neighbourhood.denominator := by
  unfold neighbourhood
  simp only
  split
  · decide
  · exact Nat.pow_pos (by decide)

private theorem centre_eq (number : Double) :
    (number.neighbourhood.centre : ℚ) / number.neighbourhood.denominator = number.significand *
    2 ^ number.exponent := by
  have quarters := number.quarters_eq (4 * number.significand)
  rw [Nat.cast_mul (4 : Nat), Nat.cast_ofNat, mul_div_cancel_left₀ _ (by norm_num)] at quarters
  exact quarters

theorem upper_eq (number : Double) :
    (number.neighbourhood.upper : ℚ) / number.neighbourhood.denominator =
      (number.significand + 1 / 2) * 2 ^ number.exponent := by
  have quarters := number.quarters_eq (4 * number.significand + 2)
  rw [show ((4 * number.significand + 2 : Nat) : ℚ) / 4 = number.significand + 1 /
    2 by push_cast; ring] at quarters
  exact quarters

theorem lower_eq (nonzero : 0 < number.significand) :
    (number.neighbourhood.lower : ℚ) / number.neighbourhood.denominator =
      (number.significand - number.reachBelow) * 2 ^ number.exponent := by
  have quarters := number.quarters_eq
    (4 * number.significand - if number.fraction = 0 && number.exponentField > 1 then 1 else 2)
  have reach : ((4 * number.significand -
    (if number.fraction = 0 && number.exponentField > 1 then 1 else 2) : Nat) : ℚ) / 4 =
      number.significand - number.reachBelow := by
    unfold reachBelow
    split
    · rw [Nat.cast_sub (by omega)]
      push_cast
      ring
    · rw [Nat.cast_sub (by omega)]
      push_cast
      ring
  rw [reach] at quarters
  exact quarters

/-- The test for a point of a decimal grid compares naturals that are the rationals in question
times a common factor. -/
theorem Neighbourhood.contains_scaled (interval : Neighbourhood)
    (positive : 0 < interval.denominator) (grid : Nat) (place : Int) :
    ∃ factor : ℚ, 0 < factor ∧
      (((if place ≥ 0 then grid * Nat.pow 10 place.toNat * interval.denominator else grid *
        interval.denominator : Nat) : ℚ) =
        grid * 10 ^ place * factor) ∧
      ∀ bound : Nat, ((bound * (if place ≥ 0 then 1 else Nat.pow 10 (-place).toNat) : Nat) : ℚ) =
        bound / interval.denominator * factor := by
  have denominator : (0 : ℚ) < interval.denominator := by exact_mod_cast positive
  by_cases nonneg : place ≥ 0
  · obtain ⟨power, rfl⟩ := Int.eq_ofNat_of_zero_le nonneg
    refine ⟨interval.denominator, denominator, by simp, fun bound => ?_⟩
    simp [div_mul_cancel₀ _ denominator.ne']
  · obtain ⟨power, rfl⟩ : ∃ power : Nat, place = -(power : Int) := ⟨(-place).toNat, by omega⟩
    refine ⟨interval.denominator * 10 ^ power, by positivity, ?_, fun bound => ?_⟩
    · rw [if_neg nonneg, zpow_neg, zpow_natCast]
      push_cast
      field_simp
    · rw [if_neg nonneg]
      simp only [neg_neg, Int.toNat_natCast, Nat.pow_eq]
      push_cast
      field_simp

theorem Neighbourhood.contains_iff (interval : Neighbourhood) (positive : 0 < interval.denominator)
    (grid : Nat) (place : Int) :
    interval.contains grid place = true ↔
      if interval.closed then (interval.lower : ℚ) / interval.denominator ≤ grid * 10 ^ place ∧
        (grid * 10 ^ place : ℚ) ≤ interval.upper / interval.denominator
      else (interval.lower : ℚ) / interval.denominator < grid * 10 ^ place ∧
        (grid * 10 ^ place : ℚ) < interval.upper / interval.denominator := by
  obtain ⟨factor, factorPositive, valueIs, boundIs⟩ := interval.contains_scaled positive grid place
  unfold contains
  simp only
  generalize (if place ≥ 0 then grid * Nat.pow 10 place.toNat * interval.denominator
    else grid * interval.denominator) = value at valueIs ⊢
  generalize (if place ≥ 0 then 1 else Nat.pow 10 (-place).toNat) = scale at boundIs ⊢
  split
  · simp only [Bool.and_eq_true, decide_eq_true_eq]
    rw [← Nat.cast_le (α := ℚ), ← Nat.cast_le (α := ℚ), boundIs, boundIs, valueIs,
      mul_le_mul_iff_left₀ factorPositive, mul_le_mul_iff_left₀ factorPositive]
  · simp only [Bool.and_eq_true, decide_eq_true_eq]
    rw [← Nat.cast_lt (α := ℚ), ← Nat.cast_lt (α := ℚ), boundIs, boundIs, valueIs,
      mul_lt_mul_iff_left₀ factorPositive, mul_lt_mul_iff_left₀ factorPositive]

section Interval

variable (nonzero : 0 < number.significand)
include nonzero

private theorem near_of_contains (contained : number.neighbourhood.contains grid place = true) :
    number.Near (grid * 10 ^ place) := by
  have unit : (0 : ℚ) < 2 ^ number.exponent := zpow_pos (by norm_num) _
  have closedIs : number.neighbourhood.closed = (number.significand % 2 == 0) := rfl
  rw [Neighbourhood.contains_iff _ number.denominator_pos, lower_eq nonzero, upper_eq,
    closedIs] at contained
  split at contained
  · rename_i isEven
    exact ⟨(le_div_iff₀ unit).mpr contained.1, (div_le_iff₀ unit).mpr contained.2,
      fun _ => by simpa using isEven⟩
  · have lower := (lt_div_iff₀ unit).mpr contained.1
    have upper := (div_lt_iff₀ unit).mpr contained.2
    refine ⟨lower.le, upper.le, fun ends => ?_⟩
    rcases ends with atLower | atUpper
    · exact absurd atLower lower.ne'
    · exact absurd atUpper upper.ne

private theorem contains_of_inside
    (lower : (number.significand - number.reachBelow) * 2 ^ number.exponent <
      (grid : ℚ) * 10 ^ place)
    (upper : (grid : ℚ) * 10 ^ place < (number.significand + 1 / 2) * 2 ^ number.exponent) :
    number.neighbourhood.contains grid place = true := by
  rw [Neighbourhood.contains_iff _ number.denominator_pos, lower_eq nonzero, upper_eq]
  split
  · exact ⟨lower.le, upper.le⟩
  · exact ⟨lower, upper⟩

end Interval

/-! ### The search -/

/-- Something is found on a grid if one of the two neighbours of the centre lies in the interval. -/
theorem Neighbourhood.isSome_pointOn
    (neighbour : ∀ below : Nat, (below : ℚ) ≤ interval.centre / interval.denominator / 10 ^ place →
      (interval.centre : ℚ) / interval.denominator / 10 ^ place < below + 1 →
      below ≠ 0 ∧ interval.contains below place = true ∨
      interval.contains (below + 1) place = true) :
    (interval.pointOn place).isSome = true := by
  have ratio := div_zpow 10 place interval.centre interval.denominator
  rw [Nat.cast_ofNat] at ratio
  rw [ratio] at neighbour
  unfold pointOn
  simp only
  generalize (if place ≥ 0 then interval.centre else interval.centre * Nat.pow 10 (-place).toNat) =
    num at neighbour ⊢
  generalize (if place ≥ 0 then interval.denominator * Nat.pow 10 place.toNat
    else interval.denominator) = den at neighbour ⊢
  have found := neighbour (num / den) Nat.cast_div_le (by
    rw [← Nat.floor_div_eq_div (K := ℚ)]
    exact Nat.lt_floor_add_one _)
  split
  · rfl
  · rfl
  · rfl
  · rename_i notBelow notAbove
    rcases found with ⟨present, below⟩ | above
    · simp [below, present] at notBelow
    · simp [notAbove] at above

/-- What an interval spans is more than the significand in units of a seventeenth digit. -/
theorem significand_lt_span (number : Double) :
    (number.significand : ℚ) < (number.reachBelow + 1 / 2) * 10 ^ 16 := by
  unfold reachBelow
  split
  · rename_i isPower
    simp only [Bool.and_eq_true, decide_eq_true_eq] at isPower
    have significandIs : number.significand = 2 ^ 52 := by
      rw [significand, if_neg (by omega), isPower.1, Nat.pow_eq, zero_add]
    rw [significandIs]
    norm_num
  · have less : (number.significand : ℚ) < 2 ^ 53 := by exact_mod_cast number.significand_lt
    refine less.trans ?_
    norm_num

private theorem reachBelow_pos (number : Double) : 0 < number.reachBelow := by
  unfold reachBelow
  split <;> norm_num

private theorem isSome_pointOn_of_fine (nonzero : 0 < number.significand)
    (fine : (10 : ℚ) ^ place * 10 ^ 16 ≤ number.significand * 2 ^ number.exponent) :
    (number.neighbourhood.pointOn place).isSome = true := by
  refine Neighbourhood.isSome_pointOn fun below atLeast under => ?_
  have step : (0 : ℚ) < 10 ^ place := zpow_pos (by norm_num) _
  have unit : (0 : ℚ) < 2 ^ number.exponent := zpow_pos (by norm_num) _
  rw [centre_eq] at atLeast under
  have belowLe : (below : ℚ) * 10 ^ place ≤ number.significand * 2 ^ number.exponent :=
    (le_div_iff₀ step).mp atLeast
  have aboveGt : (number.significand : ℚ) * 2 ^ number.exponent < (below + 1) * 10 ^ place :=
    (div_lt_iff₀ step).mp under
  have present : below ≠ 0 := by
    rintro rfl
    norm_num at aboveGt
    nlinarith
  have narrow : (10 : ℚ) ^ place < (number.reachBelow + 1 / 2) * 2 ^ number.exponent := by
    have span := mul_lt_mul_of_pos_right number.significand_lt_span unit
    have scaled : (10 : ℚ) ^ place * 10 ^ 16 < (number.reachBelow + 1 / 2) * 2 ^ number.exponent *
      10 ^ 16 := by linarith
    exact lt_of_mul_lt_mul_right scaled (by norm_num)
  have reach := mul_pos number.reachBelow_pos unit
  by_cases inside : (number.significand - number.reachBelow) * 2 ^ number.exponent <
    (below : ℚ) * 10 ^ place
  · exact .inl ⟨present, contains_of_inside nonzero inside (by linarith)⟩
  · refine .inr (contains_of_inside nonzero ?_ ?_)
    · push_cast
      linarith
    · push_cast
      linarith

private theorem contains_searchGrids {lead : Int} {count more : Nat} (enough : more < fuel)
    (found : (interval.pointOn (lead - ((count + more : Nat) : Int) + 1)).isSome = true) :
    interval.contains (searchGrids interval lead count fuel).digits
      (searchGrids interval lead count fuel).exponent = true := by
  induction fuel generalizing count more with
  | zero => omega
  | succ fuel ih =>
    rw [searchGrids]
    cases first : interval.pointOn (lead - count + 1) with
    | some grid => exact (pointOn_some first).2
    | none =>
      obtain ⟨less, rfl⟩ : ∃ less, more = less + 1 := by
        refine ⟨more - 1, ?_⟩
        by_contra none
        obtain rfl : more = 0 := by omega
        rw [Nat.add_zero, first] at found
        cases found
      refine ih (show less < fuel by omega) ?_
      rwa [show count + 1 + less = count + (less + 1) by omega]

/-! ### The leading digit -/

theorem pow_length_le {value : Nat} (positive : 0 < value) :
    10 ^ ((Nat.toDigits 10 value).length - 1) ≤ value := by
  by_contra less
  have present := Nat.length_toDigits_pos (b := 10) (n := value)
  rcases Nat.eq_zero_or_pos ((Nat.toDigits 10 value).length - 1) with isOne | isMore
  · rw [isOne] at less
    omega
  · have shorter := (Nat.length_toDigits_le_iff (by decide) isMore).mpr (not_le.mp less)
    omega

private theorem lt_pow_length (value : Nat) : value < 10 ^ (Nat.toDigits 10 value).length :=
  (Nat.length_toDigits_le_iff (by decide) Nat.length_toDigits_pos).mp le_rfl

private theorem le_firstDigitPlace (reached : den ≤ num * 10 ^ fuel) :
    den ≤ num * 10 ^ firstDigitPlace num den fuel := by
  induction fuel generalizing num with
  | zero => exact reached
  | succ fuel ih =>
    rw [firstDigitPlace]
    split
    · rename_i here
      simpa using here
    · have next := @ih (num * 10) (by rwa [mul_assoc, ← pow_succ'])
      rwa [mul_assoc, ← pow_succ'] at next

/-- The leading digit of a ratio does not stand above the ratio. -/
theorem floorLog10_le (denPositive : 0 < den) (reached : den ≤ num * 10 ^ 400) :
    (10 : ℚ) ^ floorLog10 num den ≤ num / den := by
  unfold floorLog10
  split
  · rename_i atLeastOne
    have quotient : 0 < num / den := Nat.div_pos atLeastOne denPositive
    have lead := pow_length_le quotient
    have present := Nat.length_toDigits_pos (b := 10) (n := num / den)
    have power : (((Nat.toDigits 10 (num / den)).length : Int) - 1) =
        (((Nat.toDigits 10 (num / den)).length - 1 : Nat) : Int) := by
      omega
    rw [power, zpow_natCast]
    calc (10 : ℚ) ^ ((Nat.toDigits 10 (num / den)).length - 1) ≤ ((num / den : Nat) : ℚ) := by
          exact_mod_cast lead
      _ ≤ num / den := Nat.cast_div_le
  · have first := le_firstDigitPlace reached
    have denPositive' : (0 : ℚ) < den := by exact_mod_cast denPositive
    rw [zpow_neg, zpow_natCast, le_div_iff₀ denPositive', inv_mul_le_iff₀ (by positivity), mul_comm]
    exact_mod_cast first

/-! ### The digits of a number -/

theorem two_pow_le_ten_pow (power : Nat) : 2 ^ (3 * power) ≤ 10 ^ power := by
  rw [pow_mul]
  exact Nat.pow_le_pow_left (by decide) power

section Digits

variable (nonzero : 0 < number.significand)

private theorem ratio_eq (number : Double) :
    (number.ratio.1 : ℚ) / number.ratio.2 = number.significand * 2 ^ number.exponent := by
  unfold ratio
  split
  · rename_i nonneg
    obtain ⟨power, powerIs⟩ := Int.eq_ofNat_of_zero_le nonneg
    simp [powerIs]
  · obtain ⟨power, powerIs⟩ : ∃ power : Nat, number.exponent = -(power : Int) :=
      ⟨(-number.exponent).toNat, by omega⟩
    simp [powerIs, div_eq_mul_inv]

include nonzero

private theorem ratio_reached :
    0 < number.ratio.2 ∧ number.ratio.2 ≤ number.ratio.1 * 10 ^ 400 := by
  have lowest := number.exponent_lower
  unfold ratio
  split
  · refine ⟨Nat.one_pos, ?_⟩
    have scaled : number.significand * Nat.pow 2 number.exponent.toNat ≠ 0 :=
      Nat.mul_ne_zero nonzero.ne' (Nat.pow_pos (by decide)).ne'
    exact Nat.one_le_iff_ne_zero.mpr (Nat.mul_ne_zero scaled (pow_ne_zero _ (by decide)))
  · refine ⟨Nat.pow_pos (by decide), ?_⟩
    have powers := two_pow_le_ten_pow 400
    have atMost : 2 ^ (-number.exponent).toNat ≤ 2 ^ (3 * 400) :=
      pow_le_pow_right₀ (by decide) (by omega)
    rw [Nat.pow_eq]
    exact (atMost.trans powers).trans (Nat.le_mul_of_pos_left _ nonzero)

private theorem near_shortest :
    number.Near (number.shortest.digits * 10 ^ number.shortest.exponent) := by
  have ⟨positive, reached⟩ := ratio_reached nonzero
  have lead := floorLog10_le positive reached
  rw [ratio_eq] at lead
  have place : floorLog10 number.ratio.1 number.ratio.2 - ((1 + 16 : Nat) : Int) + 1 =
      floorLog10 number.ratio.1 number.ratio.2 - 16 := by omega
  have fine : (10 : ℚ) ^ (floorLog10 number.ratio.1 number.ratio.2 - ((1 + 16 : Nat) : Int) + 1) *
    10 ^ 16 ≤
      number.significand * 2 ^ number.exponent := by
    rwa [place, zpow_sub₀ (by norm_num), show (10 : ℚ) ^ (16 : Int) = 10 ^ 16 by norm_num,
      div_mul_cancel₀ _ (by norm_num)]
  exact near_of_contains nonzero
    (contains_searchGrids (show 16 < 17 by decide) (isSome_pointOn_of_fine nonzero fine))

theorem Near.lower_bound (near : number.Near value) : (10 : ℚ) ^ (-400 : Int) < value := by
  have unit : (0 : ℚ) < 2 ^ number.exponent := zpow_pos (by norm_num) _
  have lowest := number.exponent_lower
  have reach := number.reachBelow_le
  have atLeastOne : (1 : ℚ) ≤ number.significand := by exact_mod_cast nonzero
  have half : (1 / 2 : ℚ) * 2 ^ number.exponent ≤ value :=
    (le_div_iff₀ unit).mp (by linarith [near.lower])
  have powers : (2 : ℚ) ^ (3 * 400) ≤ 10 ^ 400 := by exact_mod_cast two_pow_le_ten_pow 400
  calc (10 : ℚ) ^ (-400 : Int) = (10 ^ 400)⁻¹ := by rw [zpow_neg]; rfl
    _ ≤ (2 ^ (3 * 400))⁻¹ := by gcongr
    _ = 2 ^ (-1200 : Int) := by rw [zpow_neg]; rfl
    _ < 2 ^ (number.exponent - 1) := zpow_lt_zpow_right₀ (by norm_num) (by omega)
    _ = 1 / 2 * 2 ^ number.exponent := by rw [zpow_sub_one₀ two_ne_zero]; ring
    _ ≤ value := half

end Digits

theorem Near.upper_bound (near : number.Near value) (finite : number.isFinite = true) :
    value < (10 : ℚ) ^ (400 : Int) := by
  have unit : (0 : ℚ) < 2 ^ number.exponent := zpow_pos (by norm_num) _
  have highest := number.exponent_upper finite
  have small : (number.significand : ℚ) + 1 ≤ 2 ^ 53 := by exact_mod_cast number.significand_lt
  have powers : (2 : ℚ) ^ (3 * 400) ≤ 10 ^ 400 := by exact_mod_cast two_pow_le_ten_pow 400
  calc value ≤ (number.significand + 1 / 2) * 2 ^ number.exponent :=
        (div_le_iff₀ unit).mp near.upper
    _ < 2 ^ 53 * 2 ^ number.exponent := by
      gcongr
      linarith
    _ = 2 ^ (53 + number.exponent) := by rw [zpow_add₀ two_ne_zero]; norm_num
    _ ≤ 2 ^ ((3 * 400 : Nat) : Int) := zpow_le_zpow_right₀ (by norm_num) (by omega)
    _ ≤ 10 ^ (400 : Int) := by rw [zpow_natCast]; exact powers

theorem Near.ofDecimal {digits : Nat} {power : Int} (near : number.Near (digits * 10 ^ power))
    (finite : number.isFinite = true) (nonzero : 0 < number.significand) (negative : Bool) :
    Double.ofDecimal negative digits power = ofMagnitude negative number.magnitude := by
  have lower := near.lower_bound nonzero
  have upper := near.upper_bound finite
  have present : 0 < digits := by
    rcases Nat.eq_zero_or_pos digits with rfl | positive
    · rw [Nat.cast_zero, zero_mul] at lower
      exact absurd lower (not_lt.mpr (zpow_pos (by norm_num) _).le)
    · exact positive
  have place (exponent : Int) : (10 : ℚ) ^ (power + exponent) = 10 ^ exponent * 10 ^ power := by
    rw [zpow_add₀ (by norm_num), mul_comm]
  have notSmall : ¬ power + (Nat.toDigits 10 digits).length < -400 := by
    intro small
    have below : (digits : ℚ) * 10 ^ power < 10 ^ (power + (Nat.toDigits 10 digits).length) := by
      rw [place, zpow_natCast]
      gcongr
      exact_mod_cast lt_pow_length digits
    have tiny : (10 : ℚ) ^ (power + (Nat.toDigits 10 digits).length) ≤ 10 ^ (-400 : Int) :=
      zpow_le_zpow_right₀ (by norm_num) small.le
    exact absurd lower (not_lt.mpr (below.le.trans tiny))
  have notLarge : ¬ power + (Nat.toDigits 10 digits).length > 400 := by
    intro large
    have length := Nat.length_toDigits_pos (b := 10) (n := digits)
    have above : (10 : ℚ) ^ (power + (((Nat.toDigits 10 digits).length - 1 : Nat) : Int)) ≤ digits *
        10 ^ power := by
      rw [place, zpow_natCast]
      gcongr
      exact_mod_cast pow_length_le present
    have huge : (10 : ℚ) ^ (400 : Int) ≤
        10 ^ (power + (((Nat.toDigits 10 digits).length - 1 : Nat) : Int)) :=
      zpow_le_zpow_right₀ (by norm_num) (by omega)
    exact absurd upper (not_lt.mpr (huge.trans above))
  unfold Double.ofDecimal
  simp only
  have inside : ¬ (digits = 0 || power + (Nat.toDigits 10 digits).length < -400) = true := by
    simp only [Bool.or_eq_true, decide_eq_true_eq, not_or]
    exact ⟨present.ne', notSmall⟩
  rw [if_neg inside, if_neg notLarge]
  split
  · rename_i nonneg
    obtain ⟨exponent, rfl⟩ := Int.eq_ofNat_of_zero_le nonneg
    have ratio : number.Near (((digits * Nat.pow 10 exponent : Nat) : ℚ) / (1 : Nat)) := by
      simpa using near
    rw [Double.ofRatio, Int.toNat_natCast,
      ratio.roundMagnitude finite (Nat.mul_pos present (Nat.pow_pos (by decide))) (by decide)]
  · obtain ⟨exponent, rfl⟩ : ∃ exponent : Nat, power = -(exponent : Int) :=
      ⟨(-power).toNat, by omega⟩
    have ratio : number.Near ((digits : ℚ) / (Nat.pow 10 exponent : Nat)) := by
      simpa [div_eq_mul_inv] using near
    rw [Double.ofRatio, neg_neg, Int.toNat_natCast,
      ratio.roundMagnitude finite present (Nat.pow_pos (by decide))]

private theorem significand_pos (notZero : number.isZero = false) : 0 < number.significand := by
  have magnitudeIs := number.magnitude_eq
  have nonzero : number.magnitude ≠ 0 := by simpa [isZero] using notZero
  by_cases normal : -1074 < number.exponent
  · have full := (number.significand_lower normal).1
    omega
  · have lowest := number.exponent_lower
    have subnormal : number.exponent = -1074 := by omega
    rw [subnormal] at magnitudeIs
    omega

/-- A number is its sign and its magnitude. -/
theorem ofMagnitude_magnitude (number : Double) :
    ofMagnitude number.negative number.magnitude = number := by
  have bound := number.bits.toNat_lt
  have division := Nat.div_add_mod number.bits.toNat (2 ^ 63)
  have bitsIs : (if number.negative then Nat.pow 2 63 else 0) + number.magnitude =
      number.bits.toNat := by
    unfold negative magnitude
    simp only [Nat.pow_eq, beq_iff_eq]
    split <;> omega
  rw [ofMagnitude, bitsIs, UInt64.ofNat_toNat]

end Double

namespace Json

/-! ### Texts -/

variable {number : Double}

private theorem readsAs_text_zero (isZero : number.isZero = true) :
    ReadsAs ((if number.negative then ['-'] else []) ++ "0.0".toList) (.float number) := by
  obtain ⟨digits, power, isDecimal, valueIs⟩ := denotes_zero
  have noDigits : digits = 0 := by
    have tens : (10 : ℚ) ^ power ≠ 0 := zpow_ne_zero _ (by norm_num)
    exact_mod_cast (mul_eq_zero.mp valueIs).resolve_right tens
  have magnitudeIs : number.magnitude = 0 := by simpa [Double.isZero] using isZero
  have valueIs : Double.ofDecimal number.negative digits power = number := by
    rw [noDigits, Double.ofDecimal, if_pos (by simp), ← magnitudeIs, number.ofMagnitude_magnitude]
  have read := readsAs_decimal isDecimal number.negative
  rwa [valueIs] at read

private theorem readsAs_text_finite (finite : number.isFinite = true)
    (notZero : number.isZero = false) :
    ReadsAs ((if number.negative then ['-'] else []) ++
      (Double.layout number.shortest.normalised.1 number.shortest.normalised.2).toList)
      (.float number) := by
  have nonzero := Double.significand_pos notZero
  obtain ⟨digits, power, isDecimal, valueIs⟩ := denotes_shortest number
  have near := Double.near_shortest nonzero
  rw [← valueIs] at near
  have read := readsAs_decimal isDecimal number.negative
  rwa [near.ofDecimal finite nonzero, number.ofMagnitude_magnitude] at read

private theorem readsAs_text_infinite (infinite : number.isInfinite = true) :
    ReadsAs ((if number.negative then ['-'] else []) ++ "Infinity".toList) (.float number) := by
  have read := readsAs_infinity number.negative
  have magnitudeIs : number.magnitude = 2047 * Nat.pow 2 52 := by
    simp only [Double.isInfinite, Bool.and_eq_true, beq_iff_eq] at infinite
    have division : 2 ^ 52 * number.exponentField + number.fraction = number.magnitude :=
      Nat.div_add_mod _ _
    rw [Nat.pow_eq]
    omega
  rwa [Double.infinity, ← magnitudeIs, number.ofMagnitude_magnitude] at read

private theorem readsAs_text (isNumber : number.isNaN = false) :
    ReadsAs (number.text numberTexts).toList (.float number) := by
  rw [toList_text isNumber]
  unfold magnitudeText
  cases infinite : number.isInfinite with
  | true => exact readsAs_text_infinite infinite
  | false =>
    have finite : number.isFinite = true := by
      simp only [Double.isNaN, Double.isInfinite, Bool.and_eq_false_iff, bne_eq_false_iff_eq,
        beq_eq_false_iff_ne] at isNumber infinite
      simp only [Double.isFinite, bne_iff_ne]
      tauto
    cases isZero : number.isZero with
    | true => exact readsAs_text_zero isZero
    | false => exact readsAs_text_finite finite isZero

theorem rereadFloat_eq (isNumber : number.isNaN = false) : rereadFloat number = number := by
  have first := readsAs_float number _ [] le_rfl (by simp [EndsNumber])
  rw [readsAs_text isNumber _ [] le_rfl (by simp [EndsNumber])] at first
  simpa using first.symm

theorem rereadFloat_nan (isNaN : number.isNaN = true) : rereadFloat number = Double.nan := by
  have first := readsAs_float number _ [] le_rfl (by simp [EndsNumber])
  rw [readsAs_nan isNaN _ [] le_rfl (by simp [EndsNumber])] at first
  simpa using first.symm

end Json

end Avro
