import Avro.Json.Parser
import Avro.Json.Printer
import Mathlib

/-!
Contract: the texts of numbers, and their reading.

Owns: the grammar of decimals, `IsDecimal`, with the decimal that a text stands for; that digits are
laid out by it as the decimal they are; the reading of integers and decimals by `parseNumber`.

The digits of a number are found by a search, and the search may fail in principle. Here its digits
are taken as they are; that they are read as the number again is shown where the search is.
-/

namespace Avro.Json

variable {count : Nat} {interval : Double.Neighbourhood} {number : Double}

/-- A text after a number that does not continue it. -/
def EndsNumber (rest : List Char) : Prop :=
  ∀ character ∈ rest.head?, isDigit character = false ∧ character ≠ '.' ∧ character ≠ 'e' ∧
    character ≠ 'E'

def IsRun (digits : List Char) : Prop := digits ≠ [] ∧ ∀ digit ∈ digits, isDigit digit = true

/-- The digits before the point: zero stands alone, and no other number starts with a zero. -/
def IsWhole (digits : List Char) : Prop := IsRun digits ∧ (digits.head? = some '0' → digits = ['0'])

/-! ### The parts of a number -/

section Parts

variable {digits rest : List Char}

theorem takeWhile_run (isRun : IsRun digits)
    (ends : ∀ character ∈ rest.head?, isDigit character = false) :
    (digits ++ rest).takeWhile isDigit = digits ∧ (digits ++ rest).dropWhile isDigit = rest := by
  rw [List.takeWhile_append_of_pos isRun.2, List.dropWhile_append_of_pos isRun.2]
  cases rest with
  | nil => simp
  | cons character others =>
    have notDigit := ends character rfl
    simp [notDigit]

private theorem parseFraction_point (isRun : IsRun digits)
    (ends : ∀ character ∈ rest.head?, isDigit character = false) :
    parseFraction ('.' :: (digits ++ rest)) = some (digits, rest) := by
  obtain ⟨taken, dropped⟩ := takeWhile_run isRun ends
  simp [parseFraction, taken, dropped, isRun.1]

theorem parseFraction_none (noPoint : ∀ character ∈ rest.head?, character ≠ '.') :
    parseFraction rest = none := by
  unfold parseFraction
  split
  · exact absurd rfl (noPoint '.' rfl)
  · rfl

theorem parseExponent_none (noMark : ∀ character ∈ rest.head?, character ≠ 'e' ∧ character ≠ 'E') :
    parseExponent rest = none := by
  cases rest with
  | nil => rfl
  | cons character others =>
    have marks := noMark character rfl
    simp [parseExponent, marks]

def exponentOf (sign : Char) (power : List Char) : Int :=
  if sign = '-' then -(digitsValue power : Int) else digitsValue power

private theorem parseExponent_mark {sign : Char} (isSign : sign = '+' ∨ sign = '-')
    (isRun : IsRun digits) (ends : ∀ character ∈ rest.head?, isDigit character = false) :
    parseExponent ('e' :: sign :: (digits ++ rest)) = some (exponentOf sign digits, rest) := by
  obtain ⟨taken, dropped⟩ := takeWhile_run isRun ends
  rcases isSign with rfl | rfl
  · simp [parseExponent, taken, dropped, isRun.1, exponentOf]
  · simp [parseExponent, taken, dropped, isRun.1, exponentOf]

/-- What is taken off the front of a number are the digits before the point. -/
theorem takeWhile_whole (isWhole : IsWhole digits)
    (ends : ∀ character ∈ rest.head?, isDigit character = false) :
    (digits ++ rest).takeWhile isDigit = digits ∧
    (digits = ['0'] ∨ ∀ others, digits ≠ '0' :: others) := by
  refine ⟨(takeWhile_run isWhole.1 ends).1, ?_⟩
  by_cases starts : digits.head? = some '0'
  · exact Or.inl (isWhole.2 starts)
  · refine Or.inr fun others same => starts ?_
    rw [same, List.head?_cons]

theorem parseNumber_integer (negative : Bool) (isWhole : IsWhole digits) (ends : EndsNumber rest) :
    parseNumber negative (digits ++ rest)
      = some (.int (if negative then -(digitsValue digits : Int) else digitsValue digits),
        rest) := by
  have noFraction := parseFraction_none fun character isHead => (ends character isHead).2.1
  have noExponent := parseExponent_none fun character isHead => (ends character isHead).2.2
  have endsDigits : ∀ character ∈ rest.head?, isDigit character = false := fun character isHead =>
    (ends character isHead).1
  obtain ⟨taken, isZero | notZero⟩ := takeWhile_whole isWhole endsDigits
  · subst isZero
    unfold parseNumber
    simp only [taken]
    simp [noFraction, noExponent]
  · unfold parseNumber
    simp only [taken]
    simp [noFraction, noExponent, isWhole.1.1]

private theorem parseNumber_decimal {fraction : Option (List Char × List Char)}
    {exponent : Option (Int × List Char)} (negative : Bool) (isWhole : IsWhole digits)
    (ends : ∀ character ∈ rest.head?, isDigit character = false)
    (fractionIs : parseFraction rest = fraction)
    (exponentIs : parseExponent (fraction.elim rest Prod.snd) = exponent)
    (given : fraction.isSome ∨ exponent.isSome) :
    parseNumber negative (digits ++ rest)
      = some (.float (Double.ofDecimal negative (digitsValue (digits ++ fraction.elim [] Prod.fst))
          (exponent.elim 0 Prod.fst - (fraction.elim [] Prod.fst).length)),
        exponent.elim (fraction.elim rest Prod.snd) Prod.snd) := by
  obtain ⟨taken, isZero | notZero⟩ := takeWhile_whole isWhole ends
  · subst isZero
    unfold parseNumber
    simp only [taken]
    cases fraction <;> cases exponent <;> simp_all
  · unfold parseNumber
    simp only [taken]
    cases fraction <;> cases exponent <;> simp_all [isWhole.1.1]

end Parts

/-! ### Digits of naturals -/

theorem isRun_toDigits (value : Nat) : IsRun (Nat.toDigits 10 value) := by
  refine ⟨Nat.toDigits_ne_nil, fun digit isIn => ?_⟩
  exact Nat.isDigit_of_mem_toDigits (by decide) (by decide) isIn

theorem digitsValue_toDigits (value : Nat) : digitsValue (Nat.toDigits 10 value) = value := by
  have same : digitsValue (Nat.toDigits 10 value) =
      Nat.ofDigitChars 10 (Nat.toDigits 10 value) 0 := by
    unfold digitsValue Nat.ofDigitChars
    congr 1
    funext sum digit
    rw [Nat.mul_comm]
  rw [same, Nat.ofDigitChars_ten_toDigits]

private theorem foldl_digits (digits : List Char) (start : Nat) :
    digits.foldl (fun value digit => value * 10 + (digit.toNat - '0'.toNat)) start =
      start * 10 ^ digits.length + digitsValue digits := by
  induction digits generalizing start with
  | nil => simp [digitsValue]
  | cons digit rest ih =>
    have single : digitsValue (digit :: rest) = (0 * 10 + (digit.toNat - '0'.toNat)) *
        10 ^ rest.length + digitsValue rest :=
      ih _
    rw [List.foldl_cons, ih, single, List.length_cons, pow_succ]
    ring

theorem digitsValue_append (front back : List Char) :
    digitsValue (front ++ back) = digitsValue front * 10 ^ back.length + digitsValue back := by
  rw [digitsValue, List.foldl_append, foldl_digits]
  rfl

theorem digitsValue_zeros (count : Nat) : digitsValue (List.replicate count '0') = 0 := by
  induction count with
  | zero => rfl
  | succ count ih =>
    rw [List.replicate_succ, ← List.singleton_append, digitsValue_append, ih]
    simp [digitsValue]

theorem head?_toDigits {value : Nat} (positive : 0 < value) :
    (Nat.toDigits 10 value).head? ≠ some '0' := by
  induction value using Nat.strongRecOn with
  | ind value ih =>
    by_cases small : value < 10
    · rw [Nat.toDigits_of_lt_base small]
      clear ih
      interval_cases value <;> decide
    · rw [Nat.toDigits_of_base_le (by decide) (by omega),
        List.head?_append_of_ne_nil _ Nat.toDigits_ne_nil]
      exact ih (value / 10) (by omega) (by omega)

theorem isWhole_toDigits (value : Nat) : IsWhole (Nat.toDigits 10 value) := by
  refine ⟨isRun_toDigits value, fun startsWithZero => ?_⟩
  by_cases positive : 0 < value
  · exact absurd startsWithZero (head?_toDigits positive)
  · obtain rfl : value = 0 := by omega
    rfl

theorem isWhole_zero : IsWhole ['0'] := isWhole_toDigits 0

/-! ### Decimals -/

/-- The texts of decimals: digits, and after them places, an exponent or both. A text stands for its
digits, placed by a power of ten. -/
inductive IsDecimal : List Char → Nat → Int → Prop where
  | fraction {whole places : List Char} (isWhole : IsWhole whole) (isRun : IsRun places) :
      IsDecimal (whole ++ '.' :: places) (digitsValue (whole ++ places)) (0 - (places.length : Int))
  | exponent {whole power : List Char} {sign : Char} (isWhole : IsWhole whole)
      (isSign : sign = '+' ∨ sign = '-')
      (isRun : IsRun power) :
      IsDecimal (whole ++ 'e' :: sign :: power) (digitsValue (whole ++ []))
        (exponentOf sign power - (([] : List Char).length : Int))
  | both {whole places power : List Char} {sign : Char} (isWhole : IsWhole whole)
      (placesRun : IsRun places)
      (isSign : sign = '+' ∨ sign = '-') (isRun : IsRun power) :
      IsDecimal (whole ++ '.' :: places ++ 'e' :: sign :: power) (digitsValue (whole ++ places))
        (exponentOf sign power - (places.length : Int))

variable {text : List Char} {value : Nat} {power : Int}

/-- A decimal is read as the floating-point number nearest to it, whatever follows that does not
continue it. -/
theorem IsDecimal.parseNumber (isDecimal : IsDecimal text value power) (negative : Bool)
    {rest : List Char} (ends : EndsNumber rest) :
    Json.parseNumber negative (text ++ rest) =
      some (.float (Double.ofDecimal negative value power), rest) := by
  cases isDecimal with
  | @fraction whole places isWhole isRun =>
    have fraction := parseFraction_point isRun fun character isHead => (ends character isHead).1
    have noExponent := parseExponent_none fun character isHead => (ends character isHead).2.2
    rw [List.append_assoc, List.cons_append]
    simpa only [Option.elim_some, Option.elim_none] using
      parseNumber_decimal negative isWhole (by simp [isDigit]) fraction noExponent (Or.inl rfl)
  | @exponent whole power sign isWhole isSign isRun =>
    have exponent := parseExponent_mark isSign isRun fun character isHead =>
      (ends character isHead).1
    rw [List.append_assoc, List.cons_append, List.cons_append]
    simpa only [Option.elim_some, Option.elim_none] using
      parseNumber_decimal negative isWhole (by simp [isDigit]) (parseFraction_none (by simp))
        exponent (Or.inr rfl)
  | @both whole places power sign isWhole placesRun isSign isRun =>
    have exponent := parseExponent_mark isSign isRun fun character isHead =>
      (ends character isHead).1
    have fraction : parseFraction ('.' :: (places ++ 'e' :: sign :: (power ++ rest))) = _ :=
      parseFraction_point placesRun (by simp [isDigit])
    rw [List.append_assoc, List.append_assoc, List.cons_append, List.cons_append, List.cons_append]
    simpa only [Option.elim_some] using
      parseNumber_decimal negative isWhole (by simp [isDigit]) fraction exponent (Or.inr rfl)

theorem IsDecimal.head (isDecimal : IsDecimal text value power) :
    ∃ digit others, text = digit :: others ∧ isDigit digit = true := by
  have ofWhole {whole : List Char} (isWhole : IsWhole whole) (tail : List Char) :
      ∃ digit others, whole ++ tail = digit :: others ∧ isDigit digit = true := by
    cases whole with
    | nil => exact absurd rfl isWhole.1.1
    | cons digit others => exact ⟨digit, others ++ tail, rfl, isWhole.1.2 digit List.mem_cons_self⟩
  cases isDecimal with
  | fraction isWhole _ => exact ofWhole isWhole _
  | exponent isWhole _ _ => exact ofWhole isWhole _
  | both isWhole _ _ _ =>
    rw [List.append_assoc]
    exact ofWhole isWhole _

/-- A text that stands for a rational number. -/
def Denotes (text : List Char) (number : ℚ) : Prop :=
  ∃ (value : Nat) (power : Int), IsDecimal text value power ∧ (value : ℚ) * 10 ^ power = number

/-! ### The layout of digits -/

/-- The number that digits stand for, the first of which has a given place. -/
def placed (digits : List Char) (lead : Int) : ℚ :=
  digitsValue digits * 10 ^ (lead + 1 - digits.length)

/-- Digits that start a number, if there are any. -/
def IsLeading (digits : List Char) : Prop :=
  (∀ digit ∈ digits, isDigit digit = true) ∧ digits.head? ≠ some '0'

theorem isDigit_of_mem_replicate {digit : Char} (isIn : digit ∈ List.replicate count '0') :
    isDigit digit = true := by
  rw [(List.mem_replicate.mp isIn).2]
  rfl

theorem IsLeading.isWhole {digits zeros : List Char} (isLeading : IsLeading digits)
    (present : digits ≠ []) (areZeros : ∀ zero ∈ zeros, isDigit zero = true) :
    IsWhole (digits ++ zeros) := by
  refine ⟨⟨by simp [present], ?_⟩, ?_⟩
  · intro digit isIn
    rcases List.mem_append.mp isIn with isDigit | isZero
    · exact isLeading.1 digit isDigit
    · exact areZeros digit isZero
  · intro startsWithZero
    rw [List.head?_append_of_ne_nil _ present] at startsWithZero
    exact absurd startsWithZero isLeading.2

section Layout

variable {digits : List Char} {lead : Int}

private theorem denotes_layout_below (isLeading : IsLeading digits) (present : digits ≠ [])
    (low : -4 ≤ lead) (below : lead < 0) :
    Denotes (Double.layout digits lead).toList (placed digits lead) := by
  have positional : (decide (-4 ≤ lead) && decide (lead < 16)) = true := by
    simp only [Bool.and_eq_true, decide_eq_true_eq]
    omega
  have places : IsRun (List.replicate (-lead - 1).toNat '0' ++ digits) := by
    refine ⟨by simp [present], fun digit isIn => ?_⟩
    rcases List.mem_append.mp isIn with isZero | isDigit
    · exact isDigit_of_mem_replicate isZero
    · exact isLeading.1 digit isDigit
  have textIs : (Double.layout digits lead).toList = ['0'] ++ '.' ::
      (List.replicate (-lead - 1).toNat '0' ++ digits) := by
    unfold Double.layout
    rw [if_pos positional, if_pos below]
    simp
  have valueIs : digitsValue (['0'] ++ (List.replicate (-lead - 1).toNat '0' ++ digits)) =
      digitsValue digits := by
    rw [digitsValue_append, digitsValue_append, digitsValue_zeros]
    simp [digitsValue]
  rw [textIs]
  refine ⟨_, _, .fraction isWhole_zero places, ?_⟩
  rw [valueIs, placed, List.length_append, List.length_replicate]
  congr 2
  omega

/-- Digits before the point are filled up with zeros, and a zero stands after it where there are no
digits. -/
theorem denotes_layout_above (isLeading : IsLeading digits) (lacking : digits = [] → lead = 0)
    (above : 0 ≤ lead) (high : lead < 16) :
    Denotes (Double.layout digits lead).toList (placed digits lead) := by
  have positional : (decide (-4 ≤ lead) && decide (lead < 16)) = true := by
    simp only [Bool.and_eq_true, decide_eq_true_eq]
    omega
  have whole : IsWhole (digits.take (lead.toNat + 1)
      ++ List.replicate (lead.toNat + 1 - (digits.take (lead.toNat + 1)).length) '0') := by
    by_cases present : digits = []
    · obtain rfl := lacking present
      subst present
      exact isWhole_zero
    · refine IsLeading.isWhole
        ⟨fun digit isIn => isLeading.1 digit (List.mem_of_mem_take isIn), ?_⟩ ?_
        fun digit isIn => isDigit_of_mem_replicate isIn
      · rw [List.head?_take, if_neg (by omega)]
        exact isLeading.2
      · simpa using present
  by_cases short : digits.length ≤ lead.toNat + 1
  · rw [List.take_of_length_le short] at whole
    have textIs : (Double.layout digits lead).toList =
        digits ++ List.replicate (lead.toNat + 1 - digits.length) '0' ++ '.' :: ['0'] := by
      unfold Double.layout
      rw [if_pos positional, if_neg (by omega)]
      simp [List.take_of_length_le short, List.drop_eq_nil_of_le short]
    rw [textIs]
    refine ⟨_, _, .fraction whole (isRun_toDigits 0), ?_⟩
    have valueIs : digitsValue
      (digits ++ List.replicate (lead.toNat + 1 - digits.length) '0' ++ ['0']) =
        digitsValue digits * 10 ^ (lead.toNat + 1 - digits.length + 1) := by
      rw [digitsValue_append, digitsValue_append, digitsValue_zeros]
      simp [digitsValue, pow_succ, mul_assoc]
    rw [valueIs, placed, List.length_singleton, Nat.cast_mul, Nat.cast_pow, mul_assoc,
      Nat.cast_ofNat, ← zpow_natCast, ← zpow_add₀ (by norm_num)]
    congr 2
    omega
  · have places : IsRun (digits.drop (lead.toNat + 1)) := by
      refine ⟨by simpa using short, fun digit isIn => ?_⟩
      exact isLeading.1 digit (List.mem_of_mem_drop isIn)
    have full : (digits.take (lead.toNat + 1)).length = lead.toNat + 1 :=
      List.length_take_of_le (by omega)
    rw [full, Nat.sub_self, List.replicate_zero, List.append_nil] at whole
    have textIs : (Double.layout digits lead).toList =
        digits.take (lead.toNat + 1) ++ '.' :: digits.drop (lead.toNat + 1) := by
      unfold Double.layout
      rw [if_pos positional, if_neg (by omega)]
      simp [full, short]
    rw [textIs]
    refine ⟨_, _, .fraction whole places, ?_⟩
    rw [List.take_append_drop, placed, List.length_drop]
    congr 2
    omega

private theorem isRun_power (power : Nat) :
    IsRun (if (decimalDigits power).length < 2 then "0" ++ decimalDigits power
      else decimalDigits power).toList := by
  have digits := isRun_toDigits power
  split
  · refine ⟨by simp, fun digit isIn => ?_⟩
    rcases List.mem_cons.mp (by simpa [decimalDigits] using isIn) with rfl | isDigit
    · rfl
    · exact digits.2 digit isDigit
  · simpa [decimalDigits] using digits

private theorem digitsValue_power (power : Nat) :
    digitsValue (if (decimalDigits power).length < 2 then "0" ++ decimalDigits power
      else decimalDigits power).toList = power := by
  have valueIs : digitsValue (decimalDigits power).toList = power := by
    rw [decimalDigits, String.toList_ofList, digitsValue_toDigits]
  split
  · rw [String.toList_append, digitsValue_append, valueIs]
    simp [digitsValue]
  · exact valueIs

private theorem denotes_layout_exponent (isLeading : IsLeading digits)
    (beyond : ¬ (-4 ≤ lead ∧ lead < 16)) :
    Denotes (Double.layout digits lead).toList (placed digits lead) := by
  have power := isRun_power lead.natAbs
  have powerIs := digitsValue_power lead.natAbs
  obtain ⟨sign, isSign, signIs, signed⟩ : ∃ sign, (sign = '+' ∨ sign = '-') ∧
      (if lead < 0 then "e-" else "e+") = String.ofList ['e', sign] ∧
      (if sign = '-' then -(lead.natAbs : Int) else lead.natAbs) = lead := by
    by_cases below : lead < 0
    · exact ⟨'-', Or.inr rfl, by rw [if_pos below], by rw [if_pos rfl]; omega⟩
    · exact ⟨'+', Or.inl rfl, by rw [if_neg below], by rw [if_neg (by decide)]; omega⟩
  unfold Double.layout
  rw [if_neg (by simpa using beyond)]
  simp only [signIs]
  generalize (if (decimalDigits lead.natAbs).length < 2 then "0" ++ decimalDigits lead.natAbs
    else decimalDigits lead.natAbs) = powerText at power powerIs ⊢
  have exponentIs : exponentOf sign powerText.toList = lead := by rw [exponentOf, powerIs, signed]
  cases digits with
  | nil =>
    refine ⟨_, _, by simpa using IsDecimal.exponent isWhole_zero isSign power, ?_⟩
    simp [placed, digitsValue]
  | cons digit others =>
    have whole : IsWhole ([digit] ++ []) := by
      refine IsLeading.isWhole ⟨?_, isLeading.2⟩ (by simp) (by simp)
      intro first isIn
      rw [List.mem_singleton.mp isIn]
      exact isLeading.1 digit List.mem_cons_self
    cases others with
    | nil =>
      refine ⟨_, _, by simpa using IsDecimal.exponent whole isSign power, ?_⟩
      simp [placed, exponentIs]
    | cons second others =>
      have places : IsRun (second :: others) :=
        ⟨by simp, fun place isIn => isLeading.1 place (List.mem_cons_of_mem _ isIn)⟩
      refine ⟨_, _, by simpa using IsDecimal.both whole places isSign power, ?_⟩
      rw [placed, exponentIs]
      congr 2
      simp only [List.length_cons]
      push_cast
      ring

/-- Digits are laid out as the number that they stand for. No digits are laid out as zero. -/
theorem denotes_layout (isLeading : IsLeading digits) (lacking : digits = [] → lead = 0) :
    Denotes (Double.layout digits lead).toList (placed digits lead) := by
  by_cases positional : -4 ≤ lead ∧ lead < 16
  · by_cases below : lead < 0
    · have present : digits ≠ [] := fun absent => absurd (lacking absent) (by omega)
      exact denotes_layout_below isLeading present positional.1 below
    · exact denotes_layout_above isLeading lacking (by omega) positional.2
  · exact denotes_layout_exponent isLeading positional

end Layout

/-! ### The digits of a floating-point number -/

/-- The point that is found on a grid is one of the two neighbours of the centre, and lies in the
interval. -/
theorem pointOn_some {place : Int} {grid : Nat} (found : interval.pointOn place = some grid) :
    grid ≠ 0 ∧ interval.contains grid place = true := by
  unfold Double.Neighbourhood.pointOn at found
  simp only at found
  generalize (if place ≥ 0 then interval.centre else interval.centre * Nat.pow 10 (-place).toNat) =
    num at found
  generalize (if place ≥ 0 then interval.denominator * Nat.pow 10 place.toNat
    else interval.denominator) = den at found
  split at found
  · rename_i below above
    cases found
    rw [Bool.and_eq_true, bne_iff_ne] at below
    unfold roundHalfEven
    simp only
    split
    · exact ⟨Nat.succ_ne_zero _, above⟩
    · exact ⟨below.2, below.1⟩
  · rename_i below _
    cases found
    rw [Bool.and_eq_true, bne_iff_ne] at below
    exact ⟨below.2, below.1⟩
  · rename_i above
    cases found
    exact ⟨Nat.succ_ne_zero _, above⟩
  · cases found

private theorem searchGrids_exponent {lead : Int} {fuel : Nat}
    (isZero : (Double.searchGrids interval lead count fuel).digits = 0) :
    (Double.searchGrids interval lead count fuel).exponent = 0 := by
  induction fuel generalizing count with
  | zero => rfl
  | succ fuel ih =>
    rw [Double.searchGrids] at isZero ⊢
    cases found : interval.pointOn (lead - count + 1) with
    | none =>
      simp only [found] at isZero ⊢
      exact ih isZero
    | some grid =>
      simp only [found] at isZero
      exact absurd isZero (pointOn_some found).1

private theorem isLeading_normalised (decimal : Double.Decimal10) :
    IsLeading decimal.normalised.1 := by
  have kept : decimal.normalised.1 <+: Nat.toDigits 10 decimal.digits := List.rdropWhile_prefix _ _
  refine ⟨fun digit isIn => (isRun_toDigits decimal.digits).2 digit (kept.subset isIn),
    fun startsWithZero => ?_⟩
  by_cases positive : 0 < decimal.digits
  · apply head?_toDigits positive
    obtain ⟨others, joined⟩ := kept
    rw [← joined, List.head?_append, startsWithZero]
    rfl
  · obtain isZero : decimal.digits = 0 := by omega
    simp [Double.Decimal10.normalised, isZero] at startsWithZero

private theorem digits_eq_zero {decimal : Double.Decimal10} (noDigits : decimal.normalised.1 = []) :
    decimal.digits = 0 := by
  by_contra positive
  apply head?_toDigits (Nat.pos_of_ne_zero positive)
  have allZero : ∀ digit ∈ Nat.toDigits 10 decimal.digits, (digit == '0') = true :=
    List.rdropWhile_eq_nil_iff.mp noDigits
  cases digits : Nat.toDigits 10 decimal.digits with
  | nil => exact absurd digits Nat.toDigits_ne_nil
  | cons digit others =>
    rw [digits] at allZero
    simpa using allZero digit List.mem_cons_self

/-- Zeros at the end of the digits are left out, and what the digits stand for stays the same. -/
theorem placed_normalised (decimal : Double.Decimal10) :
    placed decimal.normalised.1 decimal.normalised.2 = decimal.digits * 10 ^ decimal.exponent := by
  have joined : decimal.normalised.1 ++ (Nat.toDigits 10 decimal.digits).rtakeWhile (· == '0') =
      Nat.toDigits 10 decimal.digits := List.rdropWhile_append_rtakeWhile
  have areZeros : (Nat.toDigits 10 decimal.digits).rtakeWhile (· == '0') =
      List.replicate ((Nat.toDigits 10 decimal.digits).rtakeWhile (· == '0')).length '0' :=
    List.eq_replicate_iff.mpr ⟨rfl, fun digit isIn => by simpa using List.mem_rtakeWhile_imp isIn⟩
  generalize (Nat.toDigits 10 decimal.digits).rtakeWhile (· == '0') = zeros at joined areZeros
  have value := digitsValue_toDigits decimal.digits
  rw [← joined, digitsValue_append, areZeros, digitsValue_zeros, List.length_replicate,
    add_zero] at value
  have lengths : (Nat.toDigits 10 decimal.digits).length = decimal.normalised.1.length +
      zeros.length := by
    rw [← joined, List.length_append]
  have leadIs : decimal.normalised.2 = decimal.exponent +
    (Nat.toDigits 10 decimal.digits).length - 1 := rfl
  rw [placed, leadIs, lengths, ← value, Nat.cast_mul, Nat.cast_pow, Nat.cast_ofNat, mul_assoc,
    ← zpow_natCast, ← zpow_add₀ (by norm_num)]
  congr 2
  push_cast
  ring

theorem denotes_shortest (number : Double) :
    Denotes (Double.layout number.shortest.normalised.1 number.shortest.normalised.2).toList
      (number.shortest.digits * 10 ^ number.shortest.exponent) := by
  rw [← placed_normalised]
  refine denotes_layout (isLeading_normalised _) fun noDigits => ?_
  have isZero := digits_eq_zero noDigits
  have exponentZero : number.shortest.exponent = 0 := searchGrids_exponent isZero
  simp [Double.Decimal10.normalised, isZero, exponentZero]

def magnitudeText (number : Double) : List Char :=
  if number.isInfinite then "Infinity".toList
  else if number.isZero then "0.0".toList
  else (Double.layout number.shortest.normalised.1 number.shortest.normalised.2).toList

/-- The text of what is a number has a sign, if the number is negative. -/
theorem toList_text (isNumber : number.isNaN = false) :
    (number.text numberTexts).toList = (if number.negative then ['-'] else []) ++
    magnitudeText number := by
  have signs : (if number.negative then "-" else "").toList =
      if number.negative then ['-'] else [] := by
    cases number.negative <;> rfl
  unfold Double.text magnitudeText
  rw [isNumber, if_neg Bool.false_ne_true]
  simp only
  split
  · rw [String.toList_append, signs]
    rfl
  · split
    · rw [String.toList_append, signs]
    · rw [String.toList_append, signs]

theorem denotes_zero : Denotes "0.0".toList 0 :=
  ⟨_, _, .fraction isWhole_zero (isRun_toDigits 0), by simp [digitsValue]⟩

theorem exists_denotes_magnitudeText (finite : number.isInfinite = false) :
    ∃ value, Denotes (magnitudeText number) value := by
  unfold magnitudeText
  rw [finite, if_neg Bool.false_ne_true]
  split
  · exact ⟨0, denotes_zero⟩
  · exact ⟨_, denotes_shortest number⟩

end Avro.Json
