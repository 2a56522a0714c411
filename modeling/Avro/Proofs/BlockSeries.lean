import Avro.Container.Reader
import Avro.Proofs.Progress

/-!
Contract: a file is the same whether it is read record by record or block by block.

Owns: `Tiles`, blocks that lie side by side, and the agreement of the two series of a file, for
every byte string.

The two series meet the failures of a file in different orders: the marker of a block is checked
before the block is shown, but after its records are. They agree on whether there is a failure at
all.
-/

namespace Avro

open BinaryInput

variable {α β : Type}
variable {input after : BinaryInput}

/-! ### What reading leaves -/

/-- No integer starts where the data has ended, and nowhere else. -/
theorem rest_of_readVarint_exhausted (done : readVarint input = .error .exhausted after) :
    input.rest = [] := by
  unfold readVarint Varint.decode at done
  cases bytesAre : input.rest with
  | nil => rfl
  | cons byte others =>
    rw [bytesAre] at done
    simp only at done
    cases decoded : Varint.decodeDigits 0 1 (byte :: others) with
    | none =>
      rw [decoded] at done
      cases done
    | some found =>
      rw [decoded] at done
      cases done

namespace Container

variable {input : BinaryInput} {file : File} {items : List α} {records : List Datum} {limit : Nat}

private theorem forward_header : Forward False limit Header.read := by
  refine .bindSame ?_ fun _ => .forward .lift
  refine ((Decode.follows_read [] Schema.depthLimit headerSchema .null false).relabelled
    fun input => ?_).forward
  unfold Header.orUnreadable
  split
  · exact .inr ⟨_, _, rfl, by simp⟩
  · exact .inl rfl

private theorem forward_openFile (reader : Json) (named : Bool) :
    Forward False limit (openFile reader named) :=
  .afterLifts fun _ _ => forward_header.bindSame fun _ => .afterLifts fun _ _ =>
    .afterLifts fun _ _ => .pure _ _

private theorem forward_readBlock (codec : Codec) : Forward False limit codec.readBlock :=
  .afterLifts fun _ _ => Forward.readSized.bindSame fun _ => .forward .lift

private theorem forward_readSync (file : File) : Forward False limit file.readSync := by
  refine (Forward.take _).bindSame fun found => ?_
  split
  · exact .throw _
  · exact .pure _ _

/-- What follows the header of an opened file is the end of the data. -/
theorem exists_head_of_ofBytes {data : Bytes} {reader : Json} {named : Bool}
    (opened : ofBytes data reader named = .ok (file, input)) :
    ∃ head, head ++ input.rest = data := by
  unfold ofBytes at opened
  split at opened
  · rename_i found after isOpen
    cases opened
    exact ((forward_openFile reader named).ok le_rfl isOpen).1
  · cases opened

/-! ### The two series -/

private theorem append_eq_ended {first : Series α} {second : Unit → Series α} :
    first.append second = ⟨items, none⟩ ↔
      ∃ front back, first = ⟨front, none⟩ ∧ second () = ⟨back, none⟩ ∧ front ++ back = items := by
  obtain ⟨front, failure⟩ := first
  cases failure with
  | some error => simp [Series.append]
  | none =>
    cases secondIs : second () with
    | mk back failure => simp [Series.append, secondIs, and_comm]

theorem cons_eq_ended {item : α} {series : Series α} :
    series.cons item = ⟨items, none⟩ ↔ ∃ rest, series = ⟨rest, none⟩ ∧ item :: rest = items := by
  obtain ⟨rest, failure⟩ := series
  simp [Series.cons, and_comm]

def Give (file : File) (blocks : List Block) (records : List Datum) : Prop :=
  ∃ parts, List.Forall₂ (fun block part => file.recordsOfBlock block = ⟨part, none⟩) blocks parts ∧
    parts.flatten = records

private theorem give_nil : Give file [] records ↔ records = [] := by
  simp [Give, eq_comm]

private theorem give_cons {block : Block} {rest : List Block} :
    Give file (block :: rest) records ↔
      ∃ front back, file.recordsOfBlock block = ⟨front, none⟩ ∧ Give file rest back ∧
        front ++ back = records := by
  constructor
  · rintro ⟨parts, given, rfl⟩
    cases given with
    | cons first others => exact ⟨_, _, first, ⟨_, others, rfl⟩, rfl⟩
  · rintro ⟨front, _, first, ⟨parts, others, rfl⟩, rfl⟩
    exact ⟨front :: parts, .cons first others, rfl⟩

/-- With the same fuel, the records end without a failure exactly if the blocks do, and each of them
gives its records. -/
theorem recordsFrom_iff (file : File) (codec : Codec) (total fuel : Nat) (input : BinaryInput)
    (records : List Datum) :
    file.recordsFrom codec fuel input = ⟨records, none⟩ ↔
      ∃ blocks, file.blocksFrom codec total fuel input = ⟨blocks, none⟩ ∧
        Give file blocks records := by
  induction fuel generalizing input records with
  | zero => simp [File.recordsFrom, File.blocksFrom, Series.ended, give_nil, eq_comm]
  | succ fuel ih =>
    unfold File.recordsFrom File.blocksFrom
    cases readVarint input with
    | error error after =>
      cases error with
      | exhausted => simp [Series.ended, give_nil, eq_comm]
      | _ => simp [Series.failed]
    | ok count afterCount =>
      simp only
      cases codec.readBlock afterCount with
      | error error after => simp [Series.failed]
      | ok data afterData =>
        simp only
        cases file.readSync afterData with
        | error error after => simp [append_eq_ended, Series.failed]
        | ok _ afterSync =>
          simp only [append_eq_ended, cons_eq_ended, ih]
          constructor
          · rintro ⟨front, back, first, ⟨blocks, blocksAre, gives⟩, rfl⟩
            exact ⟨_, ⟨blocks, blocksAre, rfl⟩, give_cons.mpr ⟨front, back, first, gives, rfl⟩⟩
          · rintro ⟨_, ⟨blocks, blocksAre, rfl⟩, gives⟩
            obtain ⟨front, back, first, others, rfl⟩ := give_cons.mp gives
            exact ⟨front, back, first, ⟨blocks, blocksAre, others⟩, rfl⟩

/-! ### Where blocks lie -/

/-- Blocks that lie side by side between two places. -/
inductive Tiles : Int → List Block → Int → Prop where
  | nil {place : Int} : Tiles place [] place
  | cons {start stop : Int} {block : Block} {rest : List Block} (starts : block.offset = start)
      (others : Tiles (block.offset + block.size) rest stop) : Tiles start (block :: rest) stop

/-- A series of blocks ends without a failure only where the data ends, and lies side by side up to
there. -/
theorem tiles_blocksFrom {codec : Codec} {total fuel : Nat} {blocks : List Block}
    (within : input.rest.length ≤ total) (enough : input.rest.length < fuel)
    (done : file.blocksFrom codec total fuel input = ⟨blocks, none⟩) :
    Tiles ((total - input.rest.length : Nat) : Int) blocks total := by
  induction fuel generalizing input blocks with
  | zero => omega
  | succ fuel ih =>
    unfold File.blocksFrom at done
    cases countDone : readVarint input with
    | error error after =>
      rw [countDone] at done
      cases error with
      | exhausted =>
        cases done
        rw [rest_of_readVarint_exhausted countDone]
        exact .nil
      | _ => cases done
    | ok count afterCount =>
      simp only [countDone] at done
      cases dataDone : codec.readBlock afterCount with
      | error error after =>
        rw [dataDone] at done
        cases done
      | ok data afterData =>
        simp only [dataDone] at done
        cases syncDone : file.readSync afterData with
        | error error after =>
          rw [syncDone] at done
          cases done
        | ok _ afterSync =>
          simp only [syncDone] at done
          obtain ⟨rest, restDone, rfl⟩ := cons_eq_ended.mp done
          obtain ⟨front, present, joined⟩ := exists_bytes_of_readVarint countDone
          have shorter : afterCount.rest.length < input.rest.length := by
            have positive := List.length_pos_of_ne_nil present
            rw [← joined, List.length_append]
            omega
          have afterDataLess := ((forward_readBlock codec).ok le_rfl dataDone).1.length_le
          have afterSyncLess := ((forward_readSync file).ok le_rfl syncDone).1.length_le
          have others := ih (by omega) (by omega) restDone
          have place : (((total - input.rest.length : Nat) : Int) +
            ((input.rest.length - afterSync.rest.length : Nat) : Int)) =
              ((total - afterSync.rest.length : Nat) : Int) := by omega
          exact .cons rfl (place ▸ others)

/-- Reading by records and reading by blocks agree, on every byte string, for every reader's schema
and whatever the libraries of codecs do. The records of a file can be read to their end exactly if
its blocks can, and each of them gives its records; the records are then those of the blocks, one
block after the other. The blocks lie side by side from the end of the header to the end of the
data. -/
theorem records_iff_blocks (libraries : Codec.Libraries) (data : Bytes) (reader : Json)
    (named : Bool) :
    (∀ records,
      (∃ file input, ofBytes data reader named = .ok (file, input) ∧
        file.records libraries input = ⟨records, none⟩) ↔
      ∃ file input blocks parts, ofBytes data reader named = .ok (file, input) ∧
        file.blocks libraries data.length input = ⟨blocks, none⟩ ∧
        List.Forall₂ (fun block part => file.recordsOfBlock block = ⟨part, none⟩) blocks parts ∧
        parts.flatten = records) ∧
    ∀ file input blocks, ofBytes data reader named = .ok (file, input) →
      file.blocks libraries data.length input = ⟨blocks, none⟩ →
      ∃ header, data = header ++ input.rest ∧ Tiles header.length blocks data.length := by
  have series (file : File) (input : BinaryInput) (records : List Datum) :
      file.records libraries input = ⟨records, none⟩ ↔
        ∃ blocks, file.blocks libraries data.length input = ⟨blocks, none⟩ ∧
          Give file blocks records := by
    unfold File.records File.blocks
    cases Codec.find? libraries file.header.codec with
    | none => simp [Series.failed]
    | some codec =>
      exact recordsFrom_iff file codec data.length (input.rest.length + 1) input records
  refine ⟨fun records => ?_, fun file input blocks opened done => ?_⟩
  · constructor
    · rintro ⟨file, input, opened, done⟩
      obtain ⟨blocks, blocksAre, parts, given, joined⟩ := (series file input records).mp done
      exact ⟨file, input, blocks, parts, opened, blocksAre, given, joined⟩
    · rintro ⟨file, input, blocks, parts, opened, blocksAre, given, joined⟩
      exact ⟨file, input, opened, (series file input records).mpr
        ⟨blocks, blocksAre, parts, given, joined⟩⟩
  · obtain ⟨header, joined⟩ := exists_head_of_ofBytes opened
    refine ⟨header, joined.symm, ?_⟩
    have lengths : header.length + input.rest.length = data.length := by
      rw [← joined, List.length_append]
    unfold File.blocks at done
    cases codecIs : Codec.find? libraries file.header.codec with
    | none =>
      rw [codecIs] at done
      cases done
    | some codec =>
      rw [codecIs] at done
      have tiles := tiles_blocksFrom (by omega) (Nat.lt_succ_self _) done
      rwa [show data.length - input.rest.length = header.length by omega] at tiles

end Container

end Avro
