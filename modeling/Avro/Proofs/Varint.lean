import Avro.Binary.Varint
import Mathlib

/-!
Contract: integers of variable length are read as they were written.

Owns: the base-128 digits as a code whose end shows by itself, and the zigzag map as a one-to-one
map within 64 bits.

The digits of every natural number are read back, whatever follows them. Only the zigzag map
restricts integers to 64 bits: beyond, the bits of the sign are mixed into the number.
-/

namespace Avro.Varint

variable {cut missing : Bytes} {value : Int}

theorem toNat_ofNat_of_lt {number : Nat} (small : number < 256) :
    (UInt8.ofNat number).toNat = number := by
  simp only [UInt8.toNat_ofNat']
  exact Nat.mod_eq_of_lt small

/-- Digits are read back as the number that they were made of, in units of the weight of the first
of them. -/
theorem decodeDigits_digits (fuel value sum weight : Nat) (rest : Bytes) (bounded : value ≤ fuel) :
    decodeDigits sum weight (digits fuel value ++ rest) = some (sum + value * weight, rest) := by
  induction fuel generalizing value sum weight with
  | zero =>
    obtain rfl : value = 0 := Nat.le_zero.mp bounded
    simp [digits, decodeDigits]
  | succ fuel ih =>
    unfold digits
    by_cases last : value < 128
    · have byte := toNat_ofNat_of_lt (show value < 256 by omega)
      rw [if_pos last]
      simp only [List.cons_append, List.nil_append, decodeDigits, byte, if_pos last,
        Nat.mod_eq_of_lt last]
    · have byte := toNat_ofNat_of_lt (show value % 128 + 128 < 256 by omega)
      have continues : ¬ value % 128 + 128 < 128 := by omega
      have digit : (value % 128 + 128) % 128 = value % 128 := by omega
      rw [if_neg last]
      simp only [List.cons_append, decodeDigits, byte, if_neg continues, digit]
      rw [ih (value / 128) _ _ (by omega)]
      have whole : value = 128 * (value / 128) + value % 128 := (Nat.div_add_mod value 128).symm
      congr 2
      calc sum + value % 128 * weight + value / 128 * (weight * 128)
          = sum + (128 * (value / 128) + value % 128) * weight := by ring
        _ = sum + value * weight := by rw [← whole]

private theorem digits_ne_nil (fuel value : Nat) : digits fuel value ≠ [] := by
  cases fuel with
  | zero => simp [digits]
  | succ fuel =>
    unfold digits
    split <;> simp

theorem encode_ne_nil (value : Int) : encode value ≠ [] := digits_ne_nil _ _

/-- The bytes of any integer end by themselves, and stand for the integer of its zigzag number. -/
theorem decode_encode_append (value : Int) (rest : Bytes) :
    decode (encode value ++ rest) = .value (unzigzag (zigzag value)) rest := by
  have read := decodeDigits_digits (zigzag value) (zigzag value) 0 1 rest (Nat.le_refl _)
  unfold decode
  cases bytes : encode value ++ rest with
  | nil => exact absurd (List.append_eq_nil_iff.mp bytes).1 (encode_ne_nil value)
  | cons byte tail =>
    change digits (zigzag value) (zigzag value) ++ rest = _ at bytes
    rw [bytes] at read
    simp [read]

private theorem decodeDigits_of_cut {fuel value : Nat} (parts : cut ++ missing = digits fuel value)
    (isCut : missing ≠ []) (sum weight : Nat) : decodeDigits sum weight cut = none := by
  induction fuel generalizing value cut sum weight with
  | zero =>
    cases cut with
    | nil => rfl
    | cons byte rest =>
      rw [digits, List.cons_append, List.cons.injEq, List.append_eq_nil_iff] at parts
      exact absurd parts.2.2 isCut
  | succ fuel ih =>
    cases cut with
    | nil => rfl
    | cons byte rest =>
      unfold digits at parts
      by_cases last : value < 128
      · rw [if_pos last, List.cons_append, List.cons.injEq, List.append_eq_nil_iff] at parts
        exact absurd parts.2.2 isCut
      · rw [if_neg last, List.cons_append, List.cons.injEq] at parts
        have continues : ¬ byte.toNat < 128 := by
          rw [parts.1, toNat_ofNat_of_lt (show value % 128 + 128 < 256 by omega)]
          omega
        simp only [decodeDigits, if_neg continues]
        exact ih parts.2 _ _

/-- The bytes of an integer are not the start of those of another one: without the last of them,
none is read. -/
theorem decode_of_cut (parts : cut ++ missing = encode value) (isCut : missing ≠ []) :
    decode cut = if cut = [] then .absent else .cut := by
  cases cut with
  | nil => rfl
  | cons byte rest =>
    rw [if_neg (List.cons_ne_nil _ _), decode]
    simp only [decodeDigits_of_cut parts isCut]

theorem unzigzag_zigzag (lower : -2 ^ 63 ≤ value) (upper : value < 2 ^ 63) :
    unzigzag (zigzag value) = value := by
  have power : ((Nat.pow 2 63 : Nat) : Int) = 2 ^ 63 := by decide
  unfold zigzag
  rw [power]
  by_cases sign : 0 ≤ value
  · have high : Int.fdiv value (2 ^ 63) = 0 := by
      rw [Int.fdiv_eq_ediv_of_nonneg _ (by decide)]
      exact Int.ediv_eq_zero_of_lt sign upper
    rw [if_pos sign, high]
    unfold unzigzag
    simp only [Int.toNat_zero, Nat.xor_zero]
    rw [if_pos (by omega)]
    omega
  · have high : Int.fdiv value (2 ^ 63) = -1 := by
      rw [Int.fdiv_eq_ediv_of_nonneg _ (by decide)]
      omega
    rw [if_neg sign, high]
    unfold unzigzag
    simp only [neg_neg, sub_self, Int.toNat_zero, Nat.xor_zero]
    rw [if_neg (by omega)]
    omega

/-- The bytes of an integer of 64 bits are read back as the integer, whatever follows them. -/
theorem decode_encode (lower : -2 ^ 63 ≤ value) (upper : value < 2 ^ 63) (rest : Bytes) :
    decode (encode value ++ rest) = .value value rest := by
  rw [decode_encode_append, unzigzag_zigzag lower upper]

end Avro.Varint
