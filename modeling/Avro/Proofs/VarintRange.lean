import Avro.Binary.Input
import Avro.Binary.Output
import Avro.Proofs.Varint

/-!
Contract: which integers survive their variable-length form.

Owns: `Sends`, the loop that sends the seven-bit groups of an integer out, for integers of any size
and either sign; that the bytes of an integer are what this loop sends for its zigzag number; and
that an integer is read back from its bytes just if it has 64 bits.

The loop does not end for a negative number. The zigzag number is none: the shift by 63 leaves a
number with the sign of the integer, so both sides of the exclusive or have one sign.
-/

namespace Avro.Varint

variable {value : Int}
variable {fuel number : Nat}

/-- What the loop over the groups of a number sends: a group has its high bit set as long as there
are bits above it. -/
inductive Sends : Int → List Int → Prop where
  | last {number : Int} (isLast : Int.land number (Int.lnot 0x7f) = 0) : Sends number [number]
  | more {number : Int} {rest : List Int} (goesOn : Int.land number (Int.lnot 0x7f) ≠ 0)
      (others : Sends (number >>> (7 : Nat)) rest) :
      Sends number (Int.lor (Int.land number 0x7f) 0x80 :: rest)

def Fits (value : Int) : Prop := -2 ^ 63 ≤ value ∧ value < 2 ^ 63

/-! ### The groups -/

private theorem ldiff_low (number : Nat) : Nat.ldiff number 0x7f = 128 * (number / 128) := by
  apply Nat.eq_of_testBit_eq
  intro place
  have mask : Nat.testBit 0x7f place = decide (place < 7) := Nat.testBit_two_pow_sub_one 7 place
  rw [Nat.testBit_ldiff, mask, show 128 = 2 ^ 7 by rfl, Nat.testBit_two_pow_mul,
    Nat.testBit_div_two_pow]
  by_cases low : place < 7
  · simp [low, show ¬ 7 ≤ place by omega]
  · simp [low, show 7 ≤ place by omega, show place - 7 + 7 = place by omega]

private theorem land_high (number : Nat) :
    Int.land number (Int.lnot 0x7f) = (128 * (number / 128) : Nat) :=
  congrArg Int.ofNat (ldiff_low number)

private theorem group_with_high_bit (number : Nat) :
    Int.lor (Int.land number 0x7f) 0x80 = (number % 128 + 128 : Nat) := by
  have group : number &&& 0x7f = number % 128 := Nat.and_two_pow_sub_one_eq_mod number 7
  have apart : (number % 128) ||| 0x80 = number % 128 + 128 := by
    rw [Nat.lor_comm, Nat.add_comm]
    exact (Nat.two_pow_add_eq_or_of_lt (show number % 128 < 2 ^ 7 by omega) 1).symm
  exact congrArg Int.ofNat (group ▸ apart)

private theorem sends_digits (bounded : number ≤ fuel) :
    Sends number ((digits fuel number).map fun byte => (byte.toNat : Int)) := by
  induction fuel generalizing number with
  | zero =>
    obtain rfl : number = 0 := Nat.le_zero.mp bounded
    exact .last (land_high 0)
  | succ fuel ih =>
    unfold digits
    by_cases last : number < 128
    · have byte := toNat_ofNat_of_lt (show number < 256 by omega)
      rw [if_pos last, List.map_singleton, byte]
      exact .last (by rw [land_high]; omega)
    · have byte := toNat_ofNat_of_lt (show number % 128 + 128 < 256 by omega)
      have next : (number : Int) >>> (7 : Nat) = (number / 128 : Nat) := by
        rw [Int.shiftRight_eq_div_pow]
        rfl
      rw [if_neg last, List.map_cons, byte, ← group_with_high_bit]
      refine .more (by rw [land_high]; omega) ?_
      rw [next]
      exact ih (by omega)

/-- Just the last byte has no high bit. -/
theorem digits_split (fuel : Nat) (bounded : number ≤ fuel) :
    ∃ front last, digits fuel number = front ++ [last] ∧ (∀ byte ∈ front, 128 ≤ byte.toNat) ∧
      last.toNat < 128 := by
  induction fuel generalizing number with
  | zero =>
    obtain rfl : number = 0 := Nat.le_zero.mp bounded
    exact ⟨[], 0, rfl, by simp, by decide⟩
  | succ fuel ih =>
    unfold digits
    by_cases last : number < 128
    · rw [if_pos last]
      refine ⟨[], _, rfl, by simp, ?_⟩
      rw [toNat_ofNat_of_lt (by omega)]
      exact last
    · obtain ⟨front, byte, parts, continued, ends⟩ := ih (show number / 128 ≤ fuel by omega)
      rw [if_neg last, parts]
      refine ⟨_ :: front, byte, rfl, ?_, ends⟩
      intro other isIn
      obtain rfl | inFront := List.mem_cons.mp isIn
      · rw [toNat_ofNat_of_lt (by omega)]
        omega
      · exact continued other inFront

private theorem length_digits_le {count : Nat} (bounded : number < 128 ^ (count + 1)) :
    (digits fuel number).length ≤ count + 1 := by
  induction fuel generalizing number count with
  | zero => simp [digits]
  | succ fuel ih =>
    unfold digits
    by_cases last : number < 128
    · simp [last]
    · cases count with
      | zero => exact absurd bounded last
      | succ count =>
        have quotient : number / 128 < 128 ^ (count + 1) :=
          Nat.div_lt_of_lt_mul (by rw [← pow_succ']; exact bounded)
        rw [if_neg last, List.length_cons]
        exact Nat.succ_le_succ (ih quotient)

/-! ### The zigzag map beyond 64 bits -/

theorem zigzag_natCast (magnitude : Nat) :
    zigzag magnitude = (2 * magnitude) ^^^ (magnitude / 2 ^ 63) := by
  have high : (Int.fdiv magnitude (Nat.pow 2 63)).toNat = magnitude / 2 ^ 63 := by
    rw [Int.fdiv_eq_ediv_of_nonneg _ (by decide)]
    exact Int.toNat_natCast _
  rw [zigzag, if_pos (Int.natCast_nonneg _), high]
  congr 1

theorem zigzag_negSucc (below : Nat) :
    zigzag (.negSucc below) = (2 * below + 1) ^^^ (below / 2 ^ 63) := by
  have high : (-Int.fdiv (.negSucc below) (Nat.pow 2 63) - 1).toNat = below / 2 ^ 63 := by
    have power : ((Nat.pow 2 63 : Nat) : Int) = 2 ^ 63 := by decide
    rw [power, Int.fdiv_eq_ediv_of_nonneg _ (by decide)]
    omega
  have double : (-2 * Int.negSucc below - 1).toNat = 2 * below + 1 := by omega
  rw [zigzag, if_neg (by omega), high, double]

/-- The zigzag number is the double of the integer, exclusive or its bits from the sixty-third
on. -/
theorem zigzag_eq_xor (value : Int) :
    (zigzag value : Int) = Int.xor (value <<< (1 : Nat)) (value >>> (63 : Nat)) := by
  have double : value <<< (1 : Nat) = 2 * value := by
    rw [Int.shiftLeft_eq]
    omega
  rw [double, Int.shiftRight_eq_div_pow]
  cases value with
  | ofNat magnitude => exact congrArg Int.ofNat (zigzag_natCast magnitude)
  | negSucc below =>
    have low : 2 * Int.negSucc below = .negSucc (2 * below + 1) := by omega
    have high : Int.negSucc below / (2 ^ 63 : Nat) = .negSucc (below / 2 ^ 63) := by omega
    rw [low, high]
    exact congrArg Int.ofNat (zigzag_negSucc below)

/-- Without bits from the sixty-third on, the zigzag number stands for the integer; each of these
bits spoils it. -/
theorem unzigzag_zigzag_iff : unzigzag (zigzag value) = value ↔ Fits value := by
  unfold Fits
  cases value with
  | ofNat magnitude =>
    have exact : ∀ number, unzigzag number = magnitude ↔ number = 2 * magnitude := by
      intro number
      unfold unzigzag
      split <;> omega
    rw [Int.ofNat_eq_natCast, exact, zigzag_natCast, xor_left_eq_self_iff]
    omega
  | negSucc below =>
    have exact : ∀ number, unzigzag number = .negSucc below ↔ number = 2 * below + 1 := by
      intro number
      unfold unzigzag
      split <;> omega
    rw [exact, zigzag_negSucc, xor_left_eq_self_iff]
    omega

private theorem zigzag_lt (fits : Fits value) : zigzag value < 2 ^ 64 := by
  have same := unzigzag_zigzag_iff.mpr fits
  unfold unzigzag at same
  unfold Fits at fits
  split at same <;> omega

/-! ### Writing and reading -/

private theorem writeLong_int (value : Int) (output : BinaryOutput) :
    (Sink.writeLong (.int value) : WriteM BinaryOutput Unit) output =
      .ok () (output.append (encode value)) := rfl

private theorem readLong_append (value : Int) (rest : Bytes) (blockCount : Option Int) :
    (Source.readLong : ReadM BinaryInput Datum) ⟨encode value ++ rest, blockCount⟩
      = .ok (.int (unzigzag (zigzag value))) ⟨rest, blockCount⟩ := by
  have read : BinaryInput.readVarint ⟨encode value ++ rest, blockCount⟩ =
      .ok (unzigzag (zigzag value)) ⟨rest, blockCount⟩ := by
    rw [BinaryInput.readVarint, decode_encode_append]
  change (BinaryInput.readVarint >>= fun number => pure (Datum.int number)) _ = _
  simp only [bind, EStateM.bind, read]
  rfl

/-- Every integer is written, in bytes of which just the last one has no high bit, namely those that
the loop over the groups of its zigzag number sends. Reading ends behind them, whatever follows, and
gives the integer just if it has 64 bits; then there are ten of them at most. -/
theorem long_read_back_iff (value : Int) : ∃ front last number,
    (∀ output, (Sink.writeLong (.int value) : WriteM BinaryOutput Unit) output =
      .ok () (output.append (front ++ [last]))) ∧
      Sends (Int.xor (value <<< (1 : Nat)) (value >>> (63 : Nat)))
        ((front ++ [last]).map fun byte => (byte.toNat : Int)) ∧
      (∀ byte ∈ front, 128 ≤ byte.toNat) ∧ last.toNat < 128 ∧
      (∀ rest blockCount, (Source.readLong : ReadM BinaryInput Datum)
        ⟨front ++ [last] ++ rest, blockCount⟩
        = .ok (.int number) ⟨rest, blockCount⟩) ∧
      (number = value ↔ -2 ^ 63 ≤ value ∧ value < 2 ^ 63) ∧
      (-2 ^ 63 ≤ value ∧ value < 2 ^ 63 → (front ++ [last]).length ≤ 10) := by
  obtain ⟨front, last, parts, continued, ends⟩ := digits_split (zigzag value) (Nat.le_refl _)
  change encode value = front ++ [last] at parts
  refine ⟨front, last, unzigzag (zigzag value), ?_, ?_, continued, ends, ?_,
    unzigzag_zigzag_iff, ?_⟩
  · rw [← parts]
    exact writeLong_int value
  · rw [← zigzag_eq_xor, ← parts]
    exact sends_digits (Nat.le_refl _)
  · rw [← parts]
    exact readLong_append value
  · intro fits
    rw [← parts]
    exact length_digits_le (Nat.lt_of_lt_of_le (zigzag_lt fits) (by decide))

end Avro.Varint
