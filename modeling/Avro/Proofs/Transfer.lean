import Avro.Binary.Input
import Avro.Binary.Output
import Avro.Proofs.Steps
import Avro.Proofs.Varint

/-!
Contract: what is written in the binary format is read from it.

Owns: `Reads`, the bytes from which a step of reading makes a value whatever follows them, which is
closed under composition and holds of every elementary step, and `Carries`, the pairing of a step of
writing with a step of reading.

The count of the next block is the one part of the input's state besides the bytes; a step may leave
any count behind, since whoever needs one reads it first.
-/

namespace Avro

open Datum (sizeLimit)
open Varint (encode)

open BinaryInput BinaryOutput

variable {α β : Type}
variable {next : α → ReadM BinaryInput β} {result : β}
variable {count : Nat} {step : ReadM BinaryInput α} {bytes : Bytes}

/-- Where a cut through two parts lies: within the first of them, or behind it. -/
theorem cut_cases {cut missing front back : List α} (parts : cut ++ missing = front ++ back) :
    (∃ lost, lost ≠ [] ∧ cut ++ lost = front ∧ missing = lost ++ back) ∨
    ∃ rest, cut = front ++ rest ∧ rest ++ missing = back := by
  rcases List.append_eq_append_iff.mp parts with ⟨lost, frontIs, missingIs⟩ | ⟨rest, cutIs, backIs⟩
  · by_cases whole : lost = []
    · subst whole
      exact .inr ⟨[], by rw [frontIs, List.append_nil, List.append_nil], missingIs⟩
    · exact .inl ⟨lost, whole, frontIs.symm, missingIs⟩
  · exact .inr ⟨rest, cutIs, backIs.symm⟩

/-! ### Reading at the end of the data -/

/-- What the encoder makes of a number is decoded, whatever follows it. -/
theorem readVarint_encode (number : Int) (rest : Bytes) (before : Option Int) :
    readVarint ⟨encode number ++ rest, before⟩ =
      .ok (Varint.unzigzag (Varint.zigzag number)) ⟨rest, before⟩ := by
  unfold readVarint
  simp only [Varint.decode_encode_append]

theorem readVarint_of_cut {number : Int} {cut missing : Bytes}
    (parts : cut ++ missing = encode number) (isCut : missing ≠ []) (before : Option Int) :
    ∃ error after, readVarint ⟨cut, before⟩ = .error error after ∧
      (cut ≠ [] → error ≠ .exhausted) := by
  unfold readVarint
  rw [Varint.decode_of_cut parts isCut]
  by_cases nothing : cut = []
  · rw [if_pos nothing]
    exact ⟨_, _, rfl, fun present => absurd nothing present⟩
  · rw [if_neg nothing]
    exact ⟨_, _, rfl, fun _ => by simp⟩

/-- A size within the limit is taken as it is. -/
theorem takeSized_natCast {size : Nat} (small : size < sizeLimit) (input : BinaryInput) :
    BinaryInput.takeSized size input = BinaryInput.take size input := by
  have inRange : ¬ ((size : Int) ≥ sizeLimit || (size : Int) < -sizeLimit) = true := by
    simp only [Bool.or_eq_true, decide_eq_true_eq]
    omega
  unfold BinaryInput.takeSized
  rw [if_neg inRange, if_neg (by omega), Int.toNat_natCast]

/-! ### Bytes from which a value is read -/

/-- The step makes the value of the bytes, and leaves what follows them. -/
def Reads (step : ReadM BinaryInput α) (bytes : Bytes) (value : α) : Prop :=
  ∀ rest count, ∃ after, step ⟨bytes ++ rest, count⟩ = .ok value ⟨rest, after⟩

namespace Reads

variable {value : α} {bytes : Bytes}

theorem pure (value : α) : Reads (Pure.pure value) [] value := by
  intro rest count
  exact ⟨count, rfl⟩

/-- Steps that read neighbouring bytes read them one after the other. -/
theorem bind {first : ReadM BinaryInput α} {front back : Bytes}
    (firstReads : Reads first front value) (nextReads : Reads (next value) back result) :
    Reads (first >>= next) (front ++ back) result := by
  intro rest count
  obtain ⟨between, started⟩ := firstReads (back ++ rest) count
  obtain ⟨after, done⟩ := nextReads rest between
  refine ⟨after, step_bind_ok.mpr ⟨value, _, ?_, done⟩⟩
  rw [List.append_assoc]
  exact started

theorem map {step : ReadM BinaryInput α} (change : α → β) (reads : Reads step bytes value) :
    Reads (step >>= fun result => Pure.pure (change result)) bytes (change value) := by
  have both : Reads (step >>= fun result => Pure.pure (change result)) (bytes ++ [])
      (change value) :=
    reads.bind (Reads.pure (change value))
  rwa [List.append_nil] at both

theorem lift {outcome : Outcome α} {bytes : Bytes} {value : α} (given : outcome = .ok value)
    (nextReads : Reads (next value) bytes result) :
    Reads (ReadM.lift outcome >>= next) bytes result := by
  subst given
  exact nextReads

theorem varint {value : Int} (lower : -2 ^ 63 ≤ value) (upper : value < 2 ^ 63) :
    Reads readVarint (encode value) value := by
  intro rest count
  refine ⟨count, ?_⟩
  unfold readVarint
  simp only [Varint.decode_encode lower upper]

theorem take {count : Nat} {bytes : Bytes} (size : bytes.length = count) :
    Reads (BinaryInput.take count) bytes bytes := by
  intro rest blockCount
  refine ⟨blockCount, ?_⟩
  subst size
  simp [BinaryInput.take]

theorem takeSized {bytes : Bytes} (small : bytes.length < sizeLimit) :
    Reads (BinaryInput.takeSized bytes.length) bytes bytes := by
  intro rest count
  rw [takeSized_natCast small]
  exact Reads.take rfl rest count

theorem sized (small : bytes.length < sizeLimit) :
    Reads readSized (encode bytes.length ++ bytes) bytes := by
  have size : Reads readVarint (encode bytes.length) bytes.length := by
    unfold sizeLimit at small
    exact Reads.varint (by omega) (by omega)
  exact size.bind (Reads.takeSized small)

end Reads

theorem Octets.length_littleEndian (width value : Nat) :
    (Octets.littleEndian width value).length = width := by
  induction width generalizing value with
  | zero => rfl
  | succ width ih => simp [Octets.littleEndian, ih]

theorem Octets.ofLittleEndian_littleEndian (width value : Nat) (small : value < 256 ^ width) :
    Octets.ofLittleEndian (Octets.littleEndian width value) = value := by
  induction width generalizing value with
  | zero =>
    simp only [Nat.pow_zero, Nat.lt_one_iff] at small
    subst small
    rfl
  | succ width ih =>
    have quotientSmall : value / 256 < 256 ^ width := by
      rw [Nat.pow_succ] at small
      omega
    have byte : (UInt8.ofNat value).toNat = value % 256 := by simp
    simp only [Octets.littleEndian, Octets.ofLittleEndian, ih _ quotientSmall, byte]
    omega

theorem Reads.fixedWidth {width value : Nat} (small : value < 256 ^ width) :
    Reads (readFixedWidth width) (Octets.littleEndian width value) value := by
  have size := Octets.length_littleEndian width value
  rw [← List.append_nil (Octets.littleEndian width value)]
  apply (Reads.take size).bind
  rw [if_pos size, Octets.ofLittleEndian_littleEndian width value small]
  exact Reads.pure value

theorem Text.decodeUtf8_encodeUtf8 (text : String) :
    Text.decodeUtf8? (Text.encodeUtf8 text) = some text := by
  change String.fromUTF8? text.toByteArray = some text
  unfold String.fromUTF8?
  rw [dif_pos text.isValidUTF8]
  rfl

/-! ### Collections -/

theorem readBlockCount_encode (small : count < sizeLimit) (rest : Bytes) (before : Option Int) :
    readBlockCount ⟨encode count ++ rest, before⟩ = .ok () ⟨rest, some count⟩ := by
  have lower : -2 ^ 63 ≤ (count : Int) := by omega
  have upper : (count : Int) < 2 ^ 63 := by
    unfold sizeLimit at small
    omega
  obtain ⟨after, read⟩ := Reads.varint lower upper rest before
  refine step_bind_ok.mpr ⟨count, ⟨rest, after⟩, read, rfl⟩

theorem startBlock_of_count (count : Nat) (rest : Bytes) :
    startBlock ⟨rest, some (count : Int)⟩ = .ok count ⟨rest, some (count : Int)⟩ := by
  have notNegative : ¬ (count : Int) < 0 := by omega
  unfold startBlock
  refine step_bind_ok.mpr ⟨⟨rest, some (count : Int)⟩, _, rfl, ?_⟩
  simp [notNegative]

/-- A block of no items ends the blocks. -/
theorem readBlocks_end {fuel : Nat} (rest : Bytes) :
    readBlocks step (fuel + 1) ⟨rest, some 0⟩ = .ok [] ⟨rest, some 0⟩ := by
  rw [readBlocks]
  exact step_bind_ok.mpr ⟨0, _, startBlock_of_count 0 rest, rfl⟩

theorem Reads.emptyCollection (step : ReadM BinaryInput α) :
    Reads (readBlockCount >>= fun _ => readCollection step) (encode 0) [] := by
  intro rest count
  refine ⟨some 0, step_bind_ok.mpr ⟨(), ⟨rest, some 0⟩, ?_, ?_⟩⟩
  · exact readBlockCount_encode (by decide) rest count
  · exact readBlocks_end rest

theorem Reads.oneBlock {values : List α} (positive : 0 < count) (small : count < sizeLimit)
    (items : Reads (times step count) bytes values) :
    Reads (readBlockCount >>= fun _ => readCollection step)
      (encode count ++ (bytes ++ encode 0)) values := by
  intro rest before
  obtain ⟨between, itemsDone⟩ := items (encode 0 ++ rest) (some count)
  have ended : betweenItems readBlockCount ⟨encode 0 ++ rest, between⟩ = .ok () ⟨rest, some 0⟩ := by
    unfold betweenItems
    rw [show encode 0 = encode (0 : Nat) from rfl, readBlockCount_encode (by decide)]
    rfl
  refine ⟨some 0, step_bind_ok.mpr ⟨(), ⟨bytes ++ encode 0 ++ rest, some count⟩, ?_, ?_⟩⟩
  · rw [List.append_assoc]
    exact readBlockCount_encode small _ before
  · -- The end takes a byte, so the fuel lasts for a second block.
    obtain ⟨fuel, fuelIs⟩ : ∃ fuel, (bytes ++ encode 0 ++ rest).length = fuel + 1 := by
      refine ⟨bytes.length + rest.length, ?_⟩
      rw [show encode 0 = [0] from rfl]
      simp
      omega
    unfold readCollection
    rw [fuelIs, readBlocks]
    refine step_bind_ok.mpr ⟨count, _, startBlock_of_count count _, ?_⟩
    rw [if_neg (by omega)]
    refine step_bind_ok.mpr ⟨values, ⟨encode 0 ++ rest, between⟩, ?_, ?_⟩
    · rw [List.append_assoc]
      exact itemsDone
    · refine step_bind_ok.mpr ⟨(), _, ended, ?_⟩
      refine step_bind_ok.mpr ⟨[], _, readBlocks_end rest, ?_⟩
      simp

/-! ### Steps of writing paired with steps of reading -/

theorem put_ok {output after : BinaryOutput} :
    BinaryOutput.put bytes output = .ok () after ↔ after = output.append bytes := by
  constructor
  · intro written
    cases written
    rfl
  · rintro rfl
    rfl

/-- Bytes that are appended one after the other are appended together. -/
theorem BinaryOutput.append_append (output : BinaryOutput) (front back : Bytes) :
    (output.append front).append back = output.append (front ++ back) := by
  simp [BinaryOutput.append, List.reverseAux_eq]

/-- Whenever the step of writing succeeds, what it has appended is read as the expected value. -/
def Carries (write : WriteM BinaryOutput Unit) (read : ReadM BinaryInput α) (expected : Outcome α) :
    Prop :=
  ∀ output after, write output = .ok () after →
    ∃ bytes value, after = output.append bytes ∧ expected = .ok value ∧ Reads read bytes value

namespace Carries

theorem pure (value : α) : Carries (Pure.pure ()) (Pure.pure value) (.ok value) := by
  intro output after written
  cases written
  exact ⟨[], value, rfl, rfl, Reads.pure value⟩

theorem throw (error : Error) (read : ReadM BinaryInput α) (expected : Outcome α) :
    Carries (MonadExcept.throw error) read expected := by
  intro output after written
  simp at written

end Carries

end Avro
