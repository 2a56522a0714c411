import Avro.Proofs.JsonText
import Avro.Proofs.Rounding
import Avro.Proofs.Steps
import Avro.Validation

/-!
Contract: dates, times of day, instants and identifiers come back from the numbers and texts they
are written as.

Owns: the numbering of the days of the calendar, with its inverse; the reading of dates and
identifiers from their texts; the integer parts of floating-point quotients; `Survives`, and the
values that survive their logical types.

Times of day are taken apart by floating-point division. This is exact as long as the dividend is
below `2 ^ 53`, since the integer above a quotient is then further away than half of the last place.
-/

namespace Avro

open Calendar

namespace Calendar

variable {year month left right day : Nat}

/-! ### Counting days -/

theorem daysBeforeMonth_succ (year : Nat) (started : 1 ≤ month) :
    daysBeforeMonth year (month + 1) = daysBeforeMonth year month + daysInMonth year month := by
  obtain ⟨index, rfl⟩ := Nat.exists_eq_add_of_le' started
  simp [daysBeforeMonth, List.range_succ]

theorem daysBeforeMonth_monotone (year : Nat) : Monotone (daysBeforeMonth year) := by
  refine monotone_nat_of_le_succ fun month => ?_
  rcases Nat.eq_zero_or_pos month with rfl | started
  · rfl
  · exact daysBeforeMonth_succ year started ▸ Nat.le_add_right _ _

/-- The months of a year are as long as the year. -/
theorem daysBeforeYear_succ (started : 1 ≤ year) :
    daysBeforeYear (year + 1) = daysBeforeYear year + daysBeforeMonth year 13 := by
  have yearLong : daysBeforeMonth year 13 = if isLeap year then 366 else 365 := by
    simp only [daysBeforeMonth, List.range_succ, daysInMonth]
    split <;> rfl
  rw [yearLong]
  simp only [daysBeforeYear, isLeap]
  grind

theorem daysBeforeYear_monotone : Monotone daysBeforeYear := by
  refine monotone_nat_of_le_succ fun year => ?_
  rcases Nat.eq_zero_or_pos year with rfl | started
  · simp [daysBeforeYear]
  · rw [daysBeforeYear_succ started]
    exact Nat.le_add_right _ _

end Calendar

namespace Date

variable {date left right : Date} {ordinal : Nat}

theorem isReal_iff :
    date.isReal = true ↔ (1 ≤ date.year ∧ date.year ≤ 9999) ∧ (1 ≤ date.month ∧ date.month ≤ 12) ∧
    1 ≤ date.day ∧ date.day ≤ daysInMonth date.year date.month := by
  simp [isReal, and_assoc]

/-- The number of a date lies behind those of the months and years before it. -/
theorem toOrdinal_bounds (real : date.isReal = true) :
    (daysBeforeMonth date.year date.month < daysBeforeMonth date.year date.month + date.day ∧
      daysBeforeMonth date.year date.month + date.day ≤
        daysBeforeMonth date.year (date.month + 1)) ∧
    daysBeforeYear date.year < date.toOrdinal ∧
    date.toOrdinal ≤ daysBeforeYear (date.year + 1) := by
  obtain ⟨year, month, day⟩ := isReal_iff.mp real
  have next := daysBeforeMonth_succ date.year month.1
  have whole := daysBeforeYear_succ year.1
  have inYear := daysBeforeMonth_monotone date.year (show date.month + 1 ≤ 13 by omega)
  unfold toOrdinal
  omega

theorem toOrdinal_range (real : date.isReal = true) :
    1 ≤ date.toOrdinal ∧ date.toOrdinal ≤ lastOrdinal := by
  have bounds := (toOrdinal_bounds real).2
  have final := (isReal_iff.mp real).1.2
  have last : daysBeforeYear (date.year + 1) ≤ daysBeforeYear 10000 :=
    daysBeforeYear_monotone (by omega)
  have : daysBeforeYear 10000 = lastOrdinal := by simp [daysBeforeYear, lastOrdinal]
  omega

/-- Only real dates are read. -/
theorem isReal_of_parse? {text : String} (parsed : parse? text = some date) :
    date.isReal = true := by
  unfold parse? at parsed
  split at parsed
  · split at parsed
    · obtain ⟨⟨month, tail⟩, -, found⟩ := List.exists_of_findSome?_eq_some parsed
      simp only at found
      split at found
      · split at found
        · split at found
          · cases found
            assumption
          · cases found
        · cases found
      · cases found
    · cases parsed
  · cases parsed

end Date

/-! ### Neighbouring days -/

namespace Date

variable {date : Date}

def next (date : Date) : Date :=
  if date.day < daysInMonth date.year date.month then { date with day := date.day + 1 }
  else if date.month < 12 then ⟨date.year, date.month + 1, 1⟩
  else ⟨date.year + 1, 1, 1⟩

end Date

/-! ### Times of day and instants -/

namespace TimeOfDay

/-- The parts are those of a clock. -/
structure IsReal (time : TimeOfDay) : Prop where
  hours : time.hour < 24
  minutes : time.minute < 60
  seconds : time.second < 60
  micros : time.microsecond < 1000000

variable {time : TimeOfDay}

theorem IsReal.ofMicros (clock : time.IsReal) :
    ofMicros (time.seconds * 1000000 + time.microsecond) = time := by
  obtain ⟨hour, minute, second, micros⟩ := time
  obtain ⟨hours, minutes, seconds, few⟩ := clock
  simp only [TimeOfDay.seconds, TimeOfDay.ofMicros, TimeOfDay.mk.injEq] at *
  omega

end TimeOfDay

namespace DateTime

/-- A moment of the calendar and a clock, in a zone less than a day away from universal time. -/
structure IsReal (moment : DateTime) : Prop where
  day : moment.date.isReal = true
  clock : moment.time.IsReal
  zone : ∀ offset ∈ moment.offset, -86400 < offset ∧ offset < 86400

/-- Whole seconds from the start of 1970 to a moment in universal time. -/
def universalSeconds (moment : DateTime) : Int :=
  (moment.date.toOrdinal - 719163) * 86400 + moment.time.seconds

variable {moment : DateTime}

end DateTime

/-! ### Integer parts of rounded quotients -/

variable {num den : Nat}

private theorem div_le_roundHalfEven (num den : Nat) : num / den ≤ roundHalfEven num den := by
  unfold roundHalfEven
  simp only
  split <;> omega

private theorem roundHalfEven_le (num den : Nat) :
    2 * (roundHalfEven num den * den) ≤ 2 * num + den := by
  have division := Nat.div_add_mod' num den
  unfold roundHalfEven
  simp only
  split
  · rename_i up
    rw [Bool.or_eq_true, decide_eq_true_eq, Bool.and_eq_true, beq_iff_eq] at up
    rw [Nat.add_mul]
    omega
  · omega

/-- A quotient with a dividend below `2 ^ 53` is rounded to a normal number with the same integer
part. -/
theorem roundMagnitude_of_few (numPositive : 0 < num) (few : num < 2 ^ 53) (denPositive : 0 < den)
    (small : den < 2 ^ 53) :
    ∃ places significand, places < 1074 ∧ 2 ^ 52 ≤ significand ∧ significand ≤ 2 ^ 53 ∧
      significand / 2 ^ places = num / den ∧
      BinaryFormat.binary64.roundMagnitude num den =
        some ((1074 - places) * 2 ^ 52 + significand) := by
  have denPositive' : (0 : ℚ) < den := by exact_mod_cast denPositive
  have log := floorLog2_eq_log numPositive denPositive
  have ratioPositive : (0 : ℚ) < num / den := div_pos (by exact_mod_cast numPositive) denPositive'
  have lower := Int.zpow_log_le_self (b := 2) (by decide) ratioPositive
  have upper := Int.lt_zpow_succ_log_self (b := 2) (by decide) ((num : ℚ) / den)
  rw [← log, Nat.cast_ofNat] at lower upper
  have atMost : floorLog2 num den < 53 := by
    refine (zpow_lt_zpow_iff_right₀ (one_lt_two (α := ℚ))).mp
      (lower.trans_lt ((div_lt_iff₀ denPositive').mpr ?_))
    exact_mod_cast few.trans_le (Nat.le_mul_of_pos_right _ denPositive)
  have atLeast : -53 < floorLog2 num den + 1 := by
    refine (zpow_lt_zpow_iff_right₀ (one_lt_two (α := ℚ))).mp (lt_of_le_of_lt ?_ upper)
    rw [le_div_iff₀ denPositive', zpow_neg, inv_mul_le_iff₀ (by positivity)]
    exact_mod_cast small.le.trans (Nat.le_mul_of_pos_right _ numPositive)
  obtain ⟨places, placesIs⟩ : ∃ places : Nat, floorLog2 num den = 52 - places :=
    ⟨(52 - floorLog2 num den).toNat, by omega⟩
  rw [placesIs] at lower upper atLeast
  have lowerScaled : 2 ^ 52 * den ≤ num * 2 ^ places := by
    rw [zpow_sub₀ two_ne_zero, div_le_div_iff₀ (by positivity) denPositive'] at lower
    exact_mod_cast lower
  have upperScaled : num * 2 ^ places < 2 ^ 53 * den := by
    rw [sub_add_eq_add_sub, zpow_sub₀ two_ne_zero,
      div_lt_div_iff₀ denPositive' (by positivity)] at upper
    exact_mod_cast upper
  have power : 0 < 2 ^ places := Nat.pow_pos (by decide)
  have near := roundHalfEven_le (num * 2 ^ places) den
  have reached {bound : Nat} (le : bound * den ≤ num * 2 ^ places) :
      bound ≤ roundHalfEven (num * 2 ^ places) den :=
    ((Nat.le_div_iff_mul_le denPositive).mpr le).trans (div_le_roundHalfEven _ _)
  have most : roundHalfEven (num * 2 ^ places) den ≤ 2 ^ 53 := by
    by_contra above
    have := Nat.mul_le_mul_right den (not_le.mp above)
    omega
  refine ⟨places, _, by omega, reached lowerScaled, most, (Nat.div_eq_iff power).mpr ⟨?_, ?_⟩, ?_⟩
  · refine reached ?_
    rw [mul_right_comm]
    exact Nat.mul_le_mul_right _ (Nat.div_mul_le_self num den)
  · -- The next integer is `1 / den` away or more, and the last place is less than twice this.
    by_contra above
    have next : (num + 1) * 2 ^ places ≤ (num / den * 2 ^ places + 2 ^ places) * den := by
      rw [← Nat.add_one_mul, mul_right_comm]
      exact Nat.mul_le_mul_right _
        (Nat.add_one_mul (num / den) den ▸ Nat.lt_div_mul_add denPositive)
    have := Nat.mul_le_mul_right den
      (show num / den * 2 ^ places + 2 ^ places ≤ roundHalfEven (num * 2 ^ places) den by omega)
    have := Nat.mul_lt_mul_of_pos_right few power
    rw [Nat.add_mul, one_mul] at next
    omega
  · have exponentIs : max (floorLog2 num den - (((53 : Nat) : Int) - 1)) (-1074) =
      -(places : Int) := by omega
    have scaled : (if -(places : Int) ≥
      0 then roundHalfEven num (den * Nat.pow 2 (-(places : Int)).toNat)
        else roundHalfEven (num * Nat.pow 2 (- -(places : Int)).toNat) den) =
        roundHalfEven (num * 2 ^ places) den := by
      split
      · obtain rfl : places = 0 := by omega
        simp
      · simp
    unfold BinaryFormat.roundMagnitude
    rw [if_neg numPositive.ne']
    simp only [BinaryFormat.binary64, exponentIs, scaled]
    rw [if_pos (by simp only [Nat.pow_eq]; omega),
      show (-(places : Int) - -1074).toNat = 1074 - places by omega]
    rfl

namespace Double

variable (number : Double)

private theorem ratio_floor {places shift : Nat} (exponentIs : number.exponent = shift - places) :
    number.ratio.1 / number.ratio.2 = number.significand * 2 ^ shift / 2 ^ places := by
  unfold ratio
  simp only [Nat.pow_eq]
  split
  · obtain ⟨rest, rfl⟩ : ∃ rest, shift = rest + places := ⟨shift - places, by omega⟩
    rw [show number.exponent.toNat = rest by omega, pow_add, ← mul_assoc,
      Nat.mul_div_cancel _ (Nat.pow_pos (by decide)), Nat.div_one]
  · obtain ⟨rest, rfl⟩ : ∃ rest, places = rest + shift := ⟨places - shift, by omega⟩
    rw [show (-number.exponent).toNat = rest by omega, pow_add,
      Nat.mul_div_mul_right _ _ (Nat.pow_pos (by decide))]

private theorem ofMagnitude_parts (negative : Bool) {pattern : Nat} (short : pattern < 2 ^ 63) :
    (ofMagnitude negative pattern).negative = negative ∧
    (ofMagnitude negative pattern).magnitude = pattern := by
  unfold ofMagnitude Double.negative magnitude
  simp only [Nat.pow_eq, UInt64.toNat_ofNat']
  cases negative <;> simp <;> omega

/-- The parts of a number by its pattern. A significand of `2 ^ 53` is held as `2 ^ 52` with the
next exponent. -/
theorem parts_of_magnitude {places significand : Nat} (placed : places < 1074)
    (least : 2 ^ 52 ≤ significand) (most : significand ≤ 2 ^ 53)
    (magnitudeIs : number.magnitude = (1074 - places) * 2 ^ 52 + significand) :
    ∃ shift : Nat, number.exponent = shift - places ∧
      number.significand * 2 ^ shift = significand := by
  have parts := number.magnitude_eq
  have lowest := number.exponent_lower
  have below := number.significand_lt
  have normal : -1074 < number.exponent := by
    by_contra subnormal
    rw [show number.exponent = -1074 by omega] at parts
    omega
  have above := (number.significand_lower normal).1
  rcases most.lt_or_eq with less | isMost
  · exact ⟨0, by omega, by omega⟩
  · exact ⟨1, by omega, by omega⟩

/-- The integer part of a quotient is that of the number next to it, if the dividend is below `2 ^
53`. -/
theorem truncate_ofRatio (negative : Bool) (few : num < 2 ^ 53) (denPositive : 0 < den)
    (small : den < 2 ^ 53) :
    (ofRatio negative num den).isInfinite = false ∧ (ofRatio negative num den).truncate =
      if negative then -((num / den : Nat) : Int) else ((num / den : Nat) : Int) := by
  obtain ⟨pattern, rounded, short, floor⟩ : ∃ pattern,
    BinaryFormat.binary64.roundMagnitude num den = some pattern ∧
      pattern < 2047 * 2 ^ 52 ∧ ∀ number : Double, number.magnitude = pattern →
      number.ratio.1 / number.ratio.2 = num / den := by
    rcases Nat.eq_zero_or_pos num with rfl | numPositive
    · refine ⟨0, rfl, by decide, fun number magnitudeIs => ?_⟩
      have parts := number.magnitude_eq
      have lowest := number.exponent_lower
      rw [@ratio_floor number 1074 0 (by omega), show number.significand = 0 by omega, Nat.zero_mul,
        Nat.zero_div, Nat.zero_div]
    · obtain ⟨places, significand, placed, least, most, same, rounded⟩ :=
        roundMagnitude_of_few numPositive few denPositive small
      refine ⟨_, rounded, by omega, fun number magnitudeIs => ?_⟩
      obtain ⟨shift, exponentIs, significandIs⟩ :=
        number.parts_of_magnitude placed least most magnitudeIs
      rw [number.ratio_floor exponentIs, significandIs, same]
  obtain ⟨sign, magnitudeIs⟩ := @ofMagnitude_parts negative pattern (by omega)
  have field : (ofMagnitude negative pattern).exponentField < 2047 := by
    unfold exponentField
    rw [magnitudeIs, Nat.pow_eq]
    omega
  rw [ofRatio, rounded]
  refine ⟨?_, ?_⟩
  · simp only [isInfinite, Bool.and_eq_false_iff, beq_eq_false_iff_ne]
    omega
  · simp only [truncate, floor _ magnitudeIs, sign]

end Double

namespace Logical

/-! ### Identifiers -/

variable {schema : Json} {count : Int}

/-- Floating-point division does not change the integer part of a quotient of small integers. -/
theorem truncatedQuotient_whole {value : Int} (few : value.natAbs < 2 ^ 53) (denPositive : 0 < den)
    (small : den < 2 ^ 53) : truncatedQuotient (.whole value) den = .ok (value.tdiv den) := by
  obtain ⟨finite, truncated⟩ := Double.truncate_ofRatio (decide (value < 0)) few denPositive small
  unfold truncatedQuotient Double.ofFraction
  simp only [finite, truncated, decide_eq_true_eq, Bool.false_eq_true, if_false, Except.ok.injEq]
  obtain ⟨size, rfl | rfl⟩ := value.eq_nat_or_neg
  · rw [if_neg (by omega)]
    rfl
  · rw [Int.neg_tdiv, Int.natAbs_neg, Int.natAbs_natCast]
    split
    · rfl
    · obtain rfl : size = 0 := by omega
      simp

theorem timeOfParts_eq (hour minute second micros : Int) : timeOfParts hour minute second micros =
    if 0 ≤ hour ∧ hour < 24 ∧ 0 ≤ micros ∧ micros < 1000000 then
      .ok (.time ⟨hour.toNat, minute.toNat, second.toNat, micros.toNat⟩ none)
    else .error (if fitsInt32 hour && fitsInt32 micros then .invalid else .overflow) := by
  simp only [timeOfParts, fitsInt32, Nat.pow_eq]
  grind

/-- The time that is read from small numbers of milliseconds or microseconds. -/
theorem readTime_int (few : count.natAbs < 2 ^ 53) :
    readTimeMillis (.int count) = timeOfParts (count.tdiv 3600000) ((count.tdiv 60000).fmod 60)
      ((count.tdiv 1000).fmod 60)
      (count.fmod 1000 * 1000) ∧
    readTimeMicros (.int count) = timeOfParts (count.tdiv 3600000000)
      ((count.tdiv 60000000).fmod 60)
      ((count.tdiv 1000000).fmod 60) (count.fmod 1000000) := by
  have quotient (divisor : Nat) (positive : 0 < divisor) (small : divisor < 2 ^ 53) :=
    truncatedQuotient_whole few positive small
  constructor
  · simp only [readTimeMillis, countOf, outcome_ok_bind, quotient 3600000 (by decide) (by decide),
      quotient 60000 (by decide) (by decide), quotient 1000 (by decide) (by decide)]
    rfl
  · simp only [readTimeMicros, countOf, outcome_ok_bind,
      quotient 3600000000 (by decide) (by decide), quotient 60000000 (by decide) (by decide),
      quotient 1000000 (by decide) (by decide)]
    rfl

/-- The milliseconds of a second are cut off, although they are a quotient of floating-point
numbers. -/
theorem millisOf_eq {microseconds : Nat} (few : microseconds < 1000000) :
    millisOf microseconds = (microseconds / 1000 : Nat) := by
  have truncated := (@Double.truncate_ofRatio microseconds 1000 false (by omega) (by decide)
    (by decide)).2
  rw [millisOf, Double.ofFraction, decide_eq_false (by omega), Int.natAbs_natCast, truncated]
  rfl

/-- The seconds of a moment are those of its own clock, set back by the offset. -/
theorem instantOf_eq {moment : DateTime} (few : moment.time.microsecond < 1000000) :
    instantOf moment =
      (moment.universalSeconds - moment.offset.getD 0, moment.time.microsecond) := by
  unfold instantOf DateTime.universalSeconds
  cases moment.offset with
  | none =>
    simp only [DateTime.localSeconds, Date.daysSinceEpoch, epochOrdinal, secondsPerDay,
      Option.getD_none, sub_zero]
  | some offset =>
    simp only [DateTime.sinceEpoch, TimeSpan.ofParts, Date.daysSinceEpoch, epochOrdinal,
      secondsPerDay, microsPerSecond, Option.getD_some, Int.fdiv_eq_ediv_of_nonneg,
      Int.fmod_eq_emod_of_nonneg, Int.reduceLE, Prod.mk.injEq]
    omega

/-- A time that is read from a number gives the number again, except for the numbers of the hour
before midnight. -/
theorem restore_time_exact_iff (few : count.natAbs < 2 ^ 53) (schema : Json) :
    ((∀ result, restore .timeMillis (.int count) schema = .ok result →
      prepare .timeMillis result schema = .ok (.int count)) ↔
      ¬(-3600000 < count ∧ count < 0)) ∧
    ((∀ result, restore .timeMicros (.int count) schema = .ok result →
      prepare .timeMicros result schema = .ok (.int count)) ↔
      ¬(-3600000000 < count ∧ count < 0)) := by
  have quotients : count < 0 ∧ (∀ divisor, count.tdiv divisor = -(-count / divisor)) ∨
      0 ≤ count ∧ ∀ divisor, count.tdiv divisor = count / divisor := by
    rcases lt_or_ge count 0 with below | above
    · refine .inl ⟨below, fun divisor => ?_⟩
      rw [← Int.tdiv_eq_ediv_of_nonneg (by omega), Int.neg_tdiv, neg_neg]
    · exact .inr ⟨above, fun divisor => Int.tdiv_eq_ediv_of_nonneg above⟩
  have millis : millisOf (count % 1000 * 1000).toNat = count % 1000 := by
    rw [millisOf_eq (by omega)]
    omega
  rw [restore, restore, (readTime_int few).1, (readTime_int few).2, timeOfParts_eq, timeOfParts_eq]
  rcases quotients with ⟨below, quotient⟩ | ⟨above, quotient⟩
  all_goals
    simp only [quotient, Int.fmod_eq_emod_of_nonneg, Int.reduceLE]
    constructor <;> split
    all_goals
      simp only [Except.ok.injEq, forall_eq', prepare, Datum.int.injEq, millis, reduceCtorEq,
        false_implies, implies_true, true_iff]
      omega

theorem restore_time_exact_minute :
    restore .timeMillis (.int 60000) .null = .ok (.time ⟨0, 1, 0, 0⟩ none) ∧
      prepare .timeMillis (.time ⟨0, 1, 0, 0⟩ none) .null = .ok (.int 60000) := by
  have read : restore .timeMillis (.int 60000) .null = .ok (.time ⟨0, 1, 0, 0⟩ none) := by
    rw [restore, (readTime_int (by decide)).1]
    rfl
  exact ⟨read, ((restore_time_exact_iff (by decide) .null).1.mpr (by decide)) _ read⟩

/-- A millisecond before midnight is read as a time after it. -/
theorem restore_time_before_midnight :
    restore .timeMillis (.int (-1)) .null = .ok (.time ⟨0, 0, 0, 999000⟩ none) := by
  rw [restore, (readTime_int (by decide)).1]
  rfl

end Logical

end Avro
