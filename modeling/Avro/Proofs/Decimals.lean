import Avro.Proofs.Reparsing

/-!
Contract: decimals as byte strings.

Owns: the integers that bytes hold in two's complement, the rational that a decimal stands for, and
which decimals are read back from the bytes that are prepared for them.

As many bytes as needed hold every decimal that is not refused. A fixed size holds it if the
unscaled integer is in the range of the size and is not a zero with a minus sign. The precision
bounds the digits of a decimal before its point is moved, so it does not keep that integer in range:
a number that is not negative then takes more bytes than the size, and a negative one loses its
leading bits.
-/

namespace Avro

namespace Octets

/-! ### Bytes and integers -/

@[simp] theorem length_bigEndian (width value : Nat) : (bigEndian width value).length = width := by
  induction width generalizing value with
  | zero => rfl
  | succ width ih => simp [bigEndian, ih]

private theorem ofBigEndian_concat (bytes : Bytes) (byte : UInt8) :
    ofBigEndian (bytes ++ [byte]) = ofBigEndian bytes * 256 + byte.toNat := by
  simp [ofBigEndian]

private theorem ofBigEndian_bigEndian (width value : Nat) :
    ofBigEndian (bigEndian width value) = value % 256 ^ width := by
  induction width generalizing value with
  | zero => simp [bigEndian, ofBigEndian, Nat.mod_one]
  | succ width ih =>
    rw [bigEndian, ofBigEndian_concat, ih, UInt8.toNat_ofNat', pow_succ' 256, Nat.mod_mul]
    omega

/-- Bytes hold a number of the lower half of their range as it is, and one of the upper half as a
negative number. -/
theorem ofTwosComplement_eq {bytes : Bytes} (present : bytes ≠ []) :
    ofTwosComplement bytes =
      if 2 * ofBigEndian bytes < 256 ^ bytes.length then (ofBigEndian bytes : Int) else ofBigEndian
        bytes - (256 ^ bytes.length : Nat) := by
  simp only [ofTwosComplement, Nat.pow_eq, ge_iff_le, List.isEmpty_eq_false_iff.mpr present,
    Bool.not_false, Bool.and_true, decide_eq_true_eq]
  split <;> split <;> first | rfl | omega

private theorem bitLength_le_iff {value bits : Nat} :
    bitLength value ≤ bits ↔ value < 2 ^ bits := by
  unfold bitLength
  split <;> rename_i isZero
  · simp [isZero]
  · exact Nat.log2_lt isZero

private theorem pow_256 (size : Nat) : 256 ^ size = 2 ^ (8 * size) := by
  rw [pow_mul]
  rfl

private theorem ofTwosComplement_twosComplement {width : Nat} {value : Int} (present : 0 < width)
    (lower : -(256 ^ width : Nat) ≤ 2 * value) (upper : 2 * value < (256 ^ width : Nat)) :
    ofTwosComplement (twosComplement width value) = value := by
  have positive : 0 < 256 ^ width := Nat.pow_pos (by decide)
  have remainder := Int.emod_nonneg value (show ((256 ^ width : Nat) : Int) ≠ 0 by omega)
  have below := Int.emod_lt_of_pos value (show 0 < ((256 ^ width : Nat) : Int) by omega)
  have number : ofBigEndian (twosComplement width value) = (value % (256 ^ width : Nat)).toNat := by
    rw [twosComplement, ofBigEndian_bigEndian]
    exact Nat.mod_eq_of_lt ((Int.toNat_lt remainder).mpr below)
  have length : (twosComplement width value).length = width := length_bigEndian _ _
  rw [ofTwosComplement_eq (List.ne_nil_of_length_pos (by omega)), number, length]
  rcases Int.lt_or_le value 0 with isNegative | nonneg
  · have wrapped : value % (256 ^ width : Nat) = value + (256 ^ width : Nat) := by
      rw [← Int.add_emod_right, Int.emod_eq_of_lt (by omega) (by omega)]
    rw [wrapped, if_neg (by omega)]
    omega
  · rw [Int.emod_eq_of_lt nonneg (by omega), if_pos (by omega)]
    omega

end Octets

/-! ### Fitting to a precision -/

private theorem digitCount_le_iff {value count : Nat} (positive : 0 < count) :
    digitCount value ≤ count ↔ value < 10 ^ count :=
  Nat.length_toDigits_le_iff (by decide) positive

namespace Decimal

/-- The rational that a finite decimal stands for. -/
def value? : Decimal → Option ℚ
  | .finite negative digits exponent => some ((if negative then -1 else 1) * digits * 10 ^ exponent)
  | _ => none

/-- A number that has no more digits than the precision, zeros at its end apart, is fitted without a
change of its value. -/
theorem fit_exact {precision coefficient zeros : Nat} {exponent : Int} (positive : 0 < precision)
    (negative : Bool) (short : digitCount coefficient ≤ precision)
    (low : -exponentLimit - (precision - 1) ≤ exponent)
    (high : digitCount (coefficient * 10 ^ zeros) + exponent ≤ exponentLimit + 1) :
    ∃ fewer shifted : Nat, fit precision negative (coefficient * 10 ^ zeros) exponent =
        .ok (.finite negative fewer (exponent + shifted)) ∧
      digitCount fewer ≤ precision ∧
      digitCount fewer + shifted ≤ digitCount (coefficient * 10 ^ zeros) ∧
      fewer * 10 ^ shifted = coefficient * 10 ^ zeros := by
  unfold fit
  split
  · rename_i isZero
    rw [isZero] at high
    have one : digitCount 0 = 1 := rfl
    refine ⟨0, 0, ?_, by omega, by rw [isZero, add_zero], by simp [isZero]⟩
    simp only [max_eq_left low, min_eq_left (show exponent ≤ exponentLimit by omega),
      Nat.cast_zero, add_zero]
  · rename_i present
    simp only
    rw [if_neg (by omega)]
    by_cases within : digitCount (coefficient * 10 ^ zeros) ≤ precision
    · rw [if_neg (by omega)]
      exact ⟨_, 0, by rw [Nat.cast_zero, add_zero], within, le_rfl, by rw [pow_zero, mul_one]⟩
    · obtain ⟨extra, extraIs⟩ := Nat.exists_eq_add_of_le (Nat.le_of_not_le within)
      have total : coefficient * 10 ^ zeros < 10 ^ (precision + extra) :=
        extraIs ▸ (digitCount_le_iff (by omega)).mp le_rfl
      have enough : extra ≤ zeros := by
        have small := (digitCount_le_iff positive).mp short
        have : digitCount (coefficient * 10 ^ zeros) ≤ precision + zeros := by
          rw [digitCount_le_iff (by omega), pow_add]
          exact Nat.mul_lt_mul_of_pos_right small (Nat.pow_pos (by decide))
        omega
      have split : coefficient * 10 ^ zeros = coefficient * 10 ^ (zeros - extra) * 10 ^ extra := by
        rw [mul_assoc, ← pow_add, Nat.sub_add_cancel enough]
      have fewerShort : digitCount (coefficient * 10 ^ (zeros - extra)) ≤ precision := by
        rw [digitCount_le_iff positive]
        rw [split, pow_add] at total
        exact Nat.lt_of_mul_lt_mul_right total
      have place : max (digitCount (coefficient * 10 ^ zeros) + exponent - precision)
        (-exponentLimit - (precision - 1)) =
          exponent + extra := by omega
      have coarse : coarsen (coefficient * 10 ^ zeros) exponent (exponent + extra) = coefficient *
          10 ^ (zeros - extra) := by
        have unit : 0 < 10 ^ extra := Nat.pow_pos (by decide)
        rw [coarsen, add_sub_cancel_left, Int.toNat_natCast, Nat.pow_eq, split, roundHalfEven]
        simp [Nat.mul_div_cancel _ unit, unit.ne]
      rw [place, if_pos (by omega), coarse, if_neg (by omega)]
      exact ⟨_, extra, rfl, fewerShort, by omega, split.symm⟩

end Decimal

namespace Logical

open Members (get?)
open Octets
open Schema (attributeOf checkDecimal commonAttributes integer? parseNode)

/-! ### Decimal types -/

/-- A decimal type has a positive precision, and a scale up to the precision. -/
structure IsDecimal (schema : Json) (precision scale : Int) : Prop where
  precisionIs : ∃ limit, attributeOf schema "precision" = .ok limit ∧
  integer? limit = some precision
  scaleIs : integer? ((schema.get? "scale").getD (.int 0)) = some scale
  positive : 0 < precision
  nonneg : 0 ≤ scale
  bounded : scale ≤ precision

variable {schema limit parsed : Json} {members : Members} {precision scale exponent : Int}
  {digits : Nat} {negative : Bool}

private theorem truthy_of_integer (isInteger : integer? limit = some precision)
    (present : precision ≠ 0) : limit.truthy = true := by
  cases limit <;> simp_all [integer?, Json.truthy]
  grind

private theorem scale_bounds {type : Json} (checked : checkDecimal members type = .ok ())
    (logicalIs : get? members "logicalType" = some (.str "decimal"))
    (precisionIs : get? members "precision" = some limit)
    (limitIs : integer? limit = some precision) (positive : 0 < precision)
    (scaleIs : integer? ((get? members "scale").getD (.int 0)) = some scale) :
    0 ≤ scale ∧ scale ≤ precision := by
  simp only [checkDecimal, logicalIs, precisionIs, Option.getD_some] at checked
  obtain ⟨_, scaleChecked, checked⟩ := outcome_bind_ok.mp checked
  obtain ⟨_, _, checked⟩ := outcome_bind_ok.mp checked
  rcases eq_or_ne scale 0 with rfl | present
  · omega
  · cases found : get? members "scale" with
    | none =>
      rw [found] at scaleIs
      exact absurd (Option.some.inj scaleIs).symm present
    | some places =>
      rw [found, Option.getD_some] at scaleIs checked scaleChecked
      have truthy := truthy_of_integer scaleIs present
      simp only [truthy, truthy_of_integer limitIs positive.ne', scaleIs, limitIs,
        Bool.and_self] at checked
      simp only [Schema.checkScale, truthy, if_true, scaleIs] at scaleChecked
      constructor
      · by_contra negative
        rw [if_pos (by omega)] at scaleChecked
        cases scaleChecked
      · by_contra above
        rw [if_pos (by omega)] at checked
        cases checked

private theorem isDecimal_parsed {expand : Bool} {space : Json} {start stop : Schema.ParseState}
    (typeIs : get? members "type" = some (.str "bytes"))
    (logicalIs : get? members "logicalType" = some (.str "decimal"))
    (precisionIs : (get? members "precision").bind integer? = some precision)
    (positive : 0 < precision)
    (scaleIs : integer? ((get? members "scale").getD (.int 0)) = some scale)
    (parses : parseNode expand space (.obj members) start = .ok parsed stop) :
    IsDecimal parsed precision scale := by
  obtain ⟨limit, limitAt, limitIs⟩ := Option.bind_eq_some_iff.mp precisionIs
  have kept (key : String) (notReserved : Schema.reservedAttributes.contains key = false) :
      get? (commonAttributes members (.str "bytes")) key = get? members key := by
    rw [← List.append_nil (commonAttributes _ _)]
    exact Schema.get?_kept notReserved (by simp [Members.keys])
  cases Schema.parses_of_parseNode parses with
  | primitiveNode found checked _ =>
    cases found.symm.trans typeIs
    obtain ⟨nonneg, bounded⟩ := scale_bounds checked logicalIs limitAt limitIs positive scaleIs
    refine ⟨⟨limit, ?_, limitIs⟩, ?_, positive, nonneg, bounded⟩
    · rw [attributeOf, Schema.required, kept "precision" (by decide), limitAt]
    · rwa [Json.get?, kept "scale" (by decide)]
  | collection found _ isCollection => cases found.symm.trans typeIs; simp at isCollection
  | leaf found _ isLeaf => cases found.symm.trans typeIs; simp at isLeaf
  | record found _ isRecord => cases found.symm.trans typeIs; simp at isRecord

private theorem exceeds_integer {bound : Json} {value : Int}
    (isInteger : integer? bound = some value) (count : Nat) :
    exceeds count bound = .ok (decide (value < count)) := by
  cases bound <;> simp_all [integer?, exceeds]
  grind

/-! ### As many bytes as needed -/

/-- The integer that is written for a decimal whose point is moved by some places. -/
def unscaled (negative : Bool) (digits : Nat) (places : Int) : Int :=
  if negative then -(digits * 10 ^ places.toNat : Nat) else (digits * 10 ^ places.toNat : Nat)

theorem natAbs_unscaled (negative : Bool) (digits : Nat) (places : Int) :
    (unscaled negative digits places).natAbs = digits * 10 ^ places.toNat := by
  unfold unscaled
  split <;> omega

private theorem unscaled_eq (shifted : 0 ≤ exponent + scale) (negative : Bool) (digits : Nat) :
    (Decimal.finite negative digits exponent).value?.map (· * 10 ^ scale) =
      some (unscaled negative digits (exponent + scale) : ℚ) := by
  have power : (10 : ℚ) ^ exponent * 10 ^ scale = 10 ^ (exponent + scale).toNat := by
    rw [← zpow_add₀ (by norm_num), ← zpow_natCast, Int.toNat_of_nonneg shifted]
  rw [Decimal.value?, Option.map_some, mul_assoc, power, unscaled]
  cases negative <;> simp

private theorem prepareBytesDecimal_eq (isDecimal : IsDecimal schema precision scale)
    (negative : Bool) (digits : Nat) (exponent : Int) :
    prepareBytesDecimal (.finite negative digits exponent) schema =
      if precision < digitCount digits then .error .decimalTooLong
      else if exponent + scale < 0 then .error .decimalScaleMismatch
      else .ok (twosComplement ((bitLength (digits * 10 ^ (exponent + scale).toNat) + 8) / 8)
        (unscaled negative digits (exponent + scale))) := by
  obtain ⟨limit, precisionIs, limitIs⟩ := isDecimal.precisionIs
  simp only [prepareBytesDecimal, precisionIs, outcome_ok_bind, digitsOf, exceeds_integer limitIs,
    decide_eq_true_eq, isDecimal.scaleIs]
  split
  · rfl
  · split <;> rfl

private theorem ofTwosComplement_unscaled (negative : Bool) (digits : Nat) (places : Int) :
    ofTwosComplement (twosComplement ((bitLength (digits * 10 ^ places.toNat) + 8) / 8)
      (unscaled negative digits places)) =
      unscaled negative digits places := by
  have bound := bitLength_le_iff.mp (le_refl (bitLength (digits * 10 ^ places.toNat)))
  have wide : 2 * (digits * 10 ^ places.toNat) <
      256 ^ ((bitLength (digits * 10 ^ places.toNat) + 8) / 8) := by
    rw [pow_256]
    refine lt_of_lt_of_le (b := 2 ^ (bitLength (digits * 10 ^ places.toNat) + 1))
      (by rw [pow_succ]; omega)
      (Nat.pow_le_pow_right (by decide) (by omega))
  refine ofTwosComplement_twosComplement (by omega) ?_ ?_ <;> unfold unscaled <;> split <;> omega

/-- A decimal within the precision is read back from bytes that hold its unscaled integer. -/
theorem readDecimal_exact (isDecimal : IsDecimal schema precision scale)
    (limited : precision ≤ 999999999999999999) (short : digitCount digits ≤ precision)
    (shifted : 0 ≤ exponent + scale)
    (few : digitCount (digits * 10 ^ (exponent + scale).toNat) ≤ 999999) {bytes : Bytes}
    (held : ofTwosComplement bytes = unscaled negative digits (exponent + scale)) :
    ∃ number, readDecimal (.bytes bytes) schema = .ok (.decimal number) ∧
      number.value? = (Decimal.finite negative digits exponent).value? := by
  obtain ⟨⟨limit, precisionIs, limitIs⟩, scaleIs, positive, nonneg, bounded⟩ := isDecimal
  obtain ⟨count, rfl⟩ := Int.eq_ofNat_of_zero_le positive.le
  have countIs : precisionOf schema = .ok count := by
    simp only [precisionOf, precisionIs, outcome_ok_bind, limitIs, Nat.pow_eq]
    rw [if_neg (by simp; omega), if_pos (by simp; omega)]
    rfl
  have magnitude := natAbs_unscaled negative digits (exponent + scale)
  have limitIs : Decimal.exponentLimit = 999999 := rfl
  obtain ⟨fewer, shift, fitted, fewerShort, fewerCount, fewerIs⟩ :=
    @Decimal.fit_exact count digits (exponent + scale).toNat 0
    (by omega) (decide (unscaled negative digits (exponent + scale) < 0)) (Nat.cast_le.mp short)
      (by omega) (by omega)
  obtain ⟨least, further, fittedAgain, -, -, leastIs⟩ :=
    @Decimal.fit_exact count fewer 0 (0 + shift + -scale) (by omega)
    (decide (unscaled negative digits (exponent + scale) < 0)) fewerShort (by omega)
      (by rw [pow_zero, mul_one]; omega)
  rw [pow_zero, mul_one] at fittedAgain leastIs
  refine ⟨.finite (decide (unscaled negative digits (exponent + scale) < 0)) least
    (0 + shift + -scale + further), ?_, ?_⟩
  · simp only [readDecimal, precisionIs, numberBytes, countIs, outcome_ok_bind, held, Decimal.ofInt,
      magnitude, fitted, ofFault, scaleIs, Decimal.shift]
    rw [if_neg (by omega), fittedAgain]
    rfl
  · have ten : (10 : ℚ) ≠ 0 := by norm_num
    have whole : (least : ℚ) * 10 ^ further * 10 ^ shift = digits *
        10 ^ (exponent + scale).toNat := by
      exact_mod_cast leastIs.symm ▸ fewerIs
    have power : (10 : ℚ) ^ exponent = 10 ^ (exponent + scale).toNat * 10 ^ (-scale) := by
      rw [← zpow_natCast, ← zpow_add₀ ten, Int.toNat_of_nonneg shifted, add_neg_cancel_right]
    have same : (least : ℚ) * 10 ^ (0 + shift + -scale + further) = digits * 10 ^ exponent := by
      rw [power, ← mul_assoc, ← whole, zero_add, zpow_add₀ ten, zpow_add₀ ten, zpow_natCast,
        zpow_natCast]
      ring
    rw [Decimal.value?, Decimal.value?, mul_assoc, mul_assoc, same]
    rcases Nat.eq_zero_or_pos digits with rfl | present
    · simp
    · have magnitudePositive : 0 < digits * 10 ^ (exponent + scale).toNat :=
        Nat.mul_pos present (Nat.pow_pos (by decide))
      cases negative <;> simp [unscaled, present]

/-- For a decimal type on byte strings, as parsing leaves it, a decimal is refused if it has more
digits than the precision or more places than the scale. Else the bytes hold the decimal with its
point moved by the scale, and if that integer has no more digits than the exponents allow, then what
is read from them is equal to the decimal. -/
theorem bytesDecimal_exact {expand : Bool} {space : Json} {start stop : Schema.ParseState}
    (typeIs : get? members "type" = some (.str "bytes"))
    (logicalIs : get? members "logicalType" = some (.str "decimal"))
    (precisionIs : (get? members "precision").bind integer? = some precision)
    (positive : 0 < precision) (limited : precision ≤ 999999999999999999)
    (scaleIs : integer? ((get? members "scale").getD (.int 0)) = some scale)
    (parses : parseNode expand space (.obj members) start = .ok parsed stop) (negative : Bool)
    (digits : Nat) (exponent : Int) :
    let number := Decimal.finite negative digits exponent
    (precision < digitCount digits →
      prepare .bytesDecimal (.decimal number) parsed = .error .decimalTooLong) ∧
    (digitCount digits ≤ precision → exponent + scale < 0 →
      prepare .bytesDecimal (.decimal number) parsed = .error .decimalScaleMismatch) ∧
    (digitCount digits ≤ precision → 0 ≤ exponent + scale →
      ∃ bytes, prepare .bytesDecimal (.decimal number) parsed = .ok (.bytes bytes) ∧
        number.value?.map (· * 10 ^ scale) = some (ofTwosComplement bytes : ℚ) ∧
        (digitCount (ofTwosComplement bytes).natAbs ≤ 999999 →
          ∃ result, restore .bytesDecimal (.bytes bytes) parsed = .ok (.decimal result) ∧
            result.value? = number.value?)) := by
  have isDecimal := isDecimal_parsed typeIs logicalIs precisionIs positive scaleIs parses
  have prepared := prepareBytesDecimal_eq isDecimal negative digits exponent
  refine ⟨fun long => ?_, fun short under => ?_, fun short shifted => ?_⟩
  · rw [prepare, prepared, if_pos long]
    rfl
  · rw [prepare, prepared, if_neg short.not_gt, if_pos under]
    rfl
  · rw [prepare, prepared, if_neg short.not_gt, if_neg shifted.not_gt]
    refine ⟨_, rfl, ?_, fun few => ?_⟩
    · rw [ofTwosComplement_unscaled]
      exact unscaled_eq shifted negative digits
    · rw [ofTwosComplement_unscaled, natAbs_unscaled] at few
      exact readDecimal_exact isDecimal limited short shifted few (ofTwosComplement_unscaled _ _ _)

/-- Prices of up to four digits, two of them behind the point. -/
def priceMembers : Members :=
  [("logicalType", .str "decimal"), ("precision", .int 4), ("scale", .int 2),
    ("type", .str "bytes")]

theorem bytesDecimal_price :
    ∃ bytes, prepare .bytesDecimal (.decimal (.finite true 128 1)) (.obj priceMembers) =
      .ok (.bytes bytes) ∧
      ofTwosComplement bytes = -128000 ∧
      ∃ result, restore .bytesDecimal (.bytes bytes) (.obj priceMembers) = .ok (.decimal result) ∧
        result.value? = some (-1280) := by
  obtain ⟨bytes, prepared, held, read⟩ :=
    (@bytesDecimal_exact (.obj priceMembers) priceMembers 4 2 false (.str "") ⟨[], []⟩ ⟨[], []⟩
    rfl rfl rfl (by decide) (by decide) rfl rfl true 128 1).2.2 (by decide) (by decide)
  have heldIs : ofTwosComplement bytes = -128000 := by
    have := Option.some.inj held
    norm_num at this
    exact_mod_cast this.symm
  obtain ⟨result, restored, same⟩ := read (by rw [heldIs]; decide)
  exact ⟨bytes, prepared, heldIs, result, restored, same.trans (by norm_num [Decimal.value?])⟩

/-- A precision that the parser accepts may be beyond what decimals can have, and then nothing is
read. -/
theorem bytesDecimal_precision_unlimited :
    let schema : Json := .obj
      [("logicalType", .str "decimal"), ("precision", .int 1000000000000000000),
      ("type", .str "bytes")]
    Schema.parse {} [] schema = .ok (schema, []) ∧
      prepare .bytesDecimal (.decimal (.finite false 1 0)) schema = .ok (.bytes [1]) ∧
      restore .bytesDecimal (.bytes [1]) schema = .error .invalid := by
  refine ⟨?_, ?_, ?_⟩ <;> rfl

end Logical

end Avro
