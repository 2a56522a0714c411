import Avro.Digest.Checksum
import Avro.Proofs.Transfer

/-!
Contract: the fingerprint by the table is the fingerprint bit by bit.

Owns: `bitwise`, which takes the bits of the data one after the other and needs no table; that the
steps for single bits go through exclusive or, so that those for a byte are the entry of the table
for its low bits; that the running value never needs more than 64 bits; and `lowBytesFirst`, the
digits of the text.
-/

namespace Avro.Digest.Rabin

/-- A step for one bit: the bit goes out at the low end, and a one brings the polynomial in. -/
def shiftOut (value : Nat) : Nat :=
  if value % 2 = 1 then (value >>> 1) ^^^ 0xc15d213aa4d7a795 else value >>> 1

/-- The fingerprint as a number: each byte is mixed into the low end and taken out bit by bit. -/
def bitwise (data : Bytes) : Nat :=
  data.foldl (fun value byte => shiftOut^[8] (value ^^^ byte.toNat)) 0xc15d213aa4d7a795

private theorem bitStep_eq_shiftOut : bitStep = shiftOut := by
  funext value
  unfold bitStep shiftOut
  rw [Nat.and_one_is_mod]
  split
  · rfl
  · exact Nat.xor_zero _

private theorem bitSteps_eq_iterate (value count : Nat) :
    bitSteps value count = shiftOut^[count] value := by
  induction count generalizing value with
  | zero => rfl
  | succ count ih => rw [bitSteps, ih, bitStep_eq_shiftOut, Function.iterate_succ_apply]

/-! ### Linearity -/

private theorem shiftOut_xor (left right : Nat) :
    shiftOut (left ^^^ right) = shiftOut left ^^^ shiftOut right := by
  have parity : (left ^^^ right) % 2 = (left % 2) ^^^ (right % 2) := Nat.xor_mod_two_pow (n := 1)
  unfold shiftOut
  rw [parity, Nat.shiftRight_xor_distrib]
  generalize left >>> 1 = first
  generalize right >>> 1 = second
  generalize 0xc15d213aa4d7a795 = polynomial
  obtain evenLeft | oddLeft := Nat.mod_two_eq_zero_or_one left
  · rw [evenLeft, Nat.zero_xor, if_neg Nat.zero_ne_one]
    split
    · exact Nat.xor_assoc _ _ _
    · rfl
  · obtain evenRight | oddRight := Nat.mod_two_eq_zero_or_one right
    · rw [oddLeft, evenRight, Nat.xor_zero, if_pos rfl, if_neg Nat.zero_ne_one, if_pos rfl]
      exact Nat.xor_right_comm _ _ _
    · -- Two ones bring the polynomial in twice, which is not at all.
      rw [oddLeft, oddRight, Nat.xor_self, if_neg Nat.zero_ne_one, if_pos rfl]
      calc first ^^^ second = first ^^^ second ^^^ (polynomial ^^^ polynomial) := by
            rw [Nat.xor_self, Nat.xor_zero]
        _ = first ^^^ polynomial ^^^ (second ^^^ polynomial) := by ac_rfl

private theorem iterate_shiftOut_xor (count left right : Nat) :
    shiftOut^[count] (left ^^^ right) = shiftOut^[count] left ^^^ shiftOut^[count] right := by
  induction count generalizing left right with
  | zero => rfl
  | succ count ih => simp only [Function.iterate_succ_apply, shiftOut_xor, ih]

/-- Zeros at the low end go out and leave no trace. -/
theorem iterate_shiftOut_of_zeros (count high : Nat) :
    shiftOut^[count] (high <<< count) = high := by
  induction count with
  | zero => rfl
  | succ count ih =>
    have zero : (high <<< (count + 1)) % 2 = 0 := by
      rw [Nat.shiftLeft_succ]
      omega
    have next : (high <<< (count + 1)) >>> 1 = high <<< count := by
      rw [Nat.shiftLeft_succ, Nat.shiftRight_one]
      omega
    rw [Function.iterate_succ_apply, shiftOut, if_neg (by omega), next, ih]

private theorem xor_low_bits (value : Nat) : (value >>> 8) <<< 8 ^^^ (value &&& 0xff) = value := by
  apply Nat.eq_of_testBit_eq
  intro place
  have mask : Nat.testBit 0xff place = decide (place < 8) := Nat.testBit_two_pow_sub_one 8 place
  rw [Nat.testBit_xor, Nat.testBit_shiftLeft, Nat.testBit_shiftRight, Nat.testBit_and, mask]
  by_cases low : place < 8
  · simp [low, show ¬ 8 ≤ place by omega]
  · simp [low, show 8 ≤ place by omega, show 8 + (place - 8) = place by omega]

/-! ### The table -/

private theorem table_entry {index : Nat} (small : index < 256) :
    table.getD index 0 = shiftOut^[8] index := by
  simp [table, Array.getD, small, bitSteps_eq_iterate]

private theorem step_table (value : Nat) (byte : UInt8) :
    step table value byte = shiftOut^[8] (value ^^^ byte.toNat) := by
  have low : (value ^^^ byte.toNat) &&& 0xff < 256 := Nat.lt_succ_of_le Nat.and_le_right
  have high : (value ^^^ byte.toNat) >>> 8 = value >>> 8 := by
    rw [Nat.shiftRight_xor_distrib, Nat.shiftRight_eq_div_pow byte.toNat,
      Nat.div_eq_of_lt byte.toNat_lt, Nat.xor_zero]
  calc step table value byte
      = (value >>> 8) ^^^ shiftOut^[8] ((value ^^^ byte.toNat) &&& 0xff) := by
        rw [step, table_entry low]
    _ = shiftOut^[8] ((value ^^^ byte.toNat) >>> 8 <<< 8 ^^^
          ((value ^^^ byte.toNat) &&& 0xff)) := by
        rw [iterate_shiftOut_xor, iterate_shiftOut_of_zeros, high]
    _ = shiftOut^[8] (value ^^^ byte.toNat) := by rw [xor_low_bits]

private theorem value_eq_bitwise (data : Bytes) : value data = bitwise data := by
  have steps : step table = fun value byte => shiftOut^[8] (value ^^^ byte.toNat) := by
    funext value byte
    exact step_table value byte
  unfold value bitwise
  rw [steps]
  rfl

/-! ### The bound -/

private theorem shiftOut_lt {value : Nat} (bounded : value < 2 ^ 64) : shiftOut value < 2 ^ 64 := by
  have half : value >>> 1 < 2 ^ 64 := Nat.lt_of_le_of_lt (Nat.shiftRight_le _ _) bounded
  unfold shiftOut
  split
  · exact Nat.xor_lt_two_pow half (by decide)
  · exact half

private theorem bitwise_lt (data : Bytes) : bitwise data < 2 ^ 64 := by
  unfold bitwise
  refine List.foldlRecOn data _ (motive := (· < 2 ^ 64)) (by decide) ?_
  intro value bounded byte _
  have mixed : value ^^^ byte.toNat < 2 ^ 64 :=
    Nat.xor_lt_two_pow bounded (byte.toNat_lt.trans (by decide))
  exact Function.Iterate.rec (· < 2 ^ 64) mixed (fun _ => shiftOut_lt) 8

/-! ### The text -/

def alphabet : List Char :=
  ['0', '1', '2', '3', '4', '5', '6', '7', '8', '9', 'a', 'b', 'c', 'd', 'e', 'f']

/-- The digits of the byte at a place, the higher one first. The byte at place zero is the least
significant. -/
def byteDigits (number place : Nat) : List Char :=
  let byte := number / 256 ^ place % 256
  [alphabet.getD (byte / 16) '-', alphabet.getD (byte % 16) '-']

/-- The digits of a number of eight bytes, least significant byte first. -/
def lowBytesFirst (number : Nat) : List Char := (List.range 8).flatMap (byteDigits number)

private theorem hexDigit_eq (number : Nat) :
    Text.hexDigit number = alphabet.getD (number % 16) '-' := by
  have entries : ∀ digit < 16, Nat.digitChar digit = alphabet.getD digit '-' := by decide
  exact entries (number % 16) (Nat.mod_lt _ (by decide))

private theorem littleEndian_eq_map (width number : Nat) :
    Octets.littleEndian width number =
      (List.range width).map fun place => UInt8.ofNat (number / 256 ^ place) := by
  induction width generalizing number with
  | zero => rfl
  | succ width ih =>
    rw [Octets.littleEndian, ih, List.range_succ_eq_map, List.map_cons, List.map_map,
      pow_zero, Nat.div_one]
    simp only [Function.comp_def, Nat.pow_succ', Nat.div_div_eq_div_mul]

private theorem hexOfBytes_littleEndian (number : Nat) :
    Text.hexOfBytes (Octets.littleEndian 8 number) = String.ofList (lowBytesFirst number) := by
  have digits (place : Nat) :
      Text.hexDigits 2 (UInt8.ofNat (number / 256 ^ place)).toNat = byteDigits number place := by
    have small : number / 256 ^ place % 256 / 16 < 16 := by omega
    simp [Text.hexDigits, byteDigits, hexDigit_eq, UInt8.toNat_ofNat', Nat.mod_eq_of_lt small]
  rw [Text.hexOfBytes, littleEndian_eq_map, List.flatMap_map]
  simp only [digits]
  rfl

/-- The fingerprint is the sixteen digits of the number that is found bit by bit, least significant
byte first. The running value is below `2 ^ 64` after every part of the data, so there are eight
bytes for it. -/
theorem fingerprint_eq_bitwise (data : Bytes) :
    (∀ count, value (data.take count) < 2 ^ 64) ∧
      fingerprint data = .ok (String.ofList (lowBytesFirst (bitwise data))) ∧
      (lowBytesFirst (bitwise data)).length = 16 := by
  have bounded : ∀ data, value data < 2 ^ 64 := fun data => value_eq_bitwise data ▸ bitwise_lt data
  have fits : value data < Nat.pow 256 8 := bounded data
  refine ⟨fun count => bounded (data.take count), ?_, rfl⟩
  rw [fingerprint, eightBytes, if_pos fits, outcome_ok_bind, hexOfBytes_littleEndian,
    value_eq_bitwise]
  rfl

end Avro.Digest.Rabin
