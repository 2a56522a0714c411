import Avro.Container.Writer
import Avro.Proofs.Transfer

/-!
Contract: the blocks of a container file are read back.

Owns: `StoredBlock`, a block as it stands in a stream, and that the records of a series of blocks
are the records of its blocks, one after the other. A block of which the records cannot all be read
breaks the series off.
-/

namespace Avro

/-! ### Series -/

namespace Series

variable {α : Type}

theorem append_ended (series : Series α) : (series.append fun _ => ended) = series := by
  obtain ⟨items, failure⟩ := series
  cases failure with
  | none => simp [append, ended]
  | some error => rfl

theorem append_assoc (first : Series α) (second third : Unit → Series α) :
    (first.append second).append third = first.append fun _ => (second ()).append third := by
  obtain ⟨items, failure⟩ := first
  cases failure with
  | some error => rfl
  | none =>
    simp only [append]
    cases (second ()).failure with
    | some error => rfl
    | none => simp

end Series

namespace Container

variable {codec : Codec} {file : File} {blocks : List StoredBlock}

/-! ### Stored blocks -/

/-- A block as it stands in a stream: how many records it says to have, its data, and their
compressed form. -/
structure StoredBlock where
  count : Int
  data : Bytes
  compressed : Bytes

/-- The bytes of a block, closed by the marker. -/
def StoredBlock.bytes (sync : Bytes) (block : StoredBlock) : Bytes :=
  Varint.encode block.count ++ (Varint.encode block.compressed.length ++ block.compressed) ++ sync

/-- A block whose counts fit into 64 bits, and whose data are expanded from their compressed
form. -/
structure StoredBlock.Sound (codec : Codec) (block : StoredBlock) : Prop where
  countLower : -2 ^ 63 ≤ block.count
  countUpper : block.count < 2 ^ 63
  small : block.compressed.length < Datum.sizeLimit
  expands : codec.expand block.compressed = .ok block.data

def recordsOfBlocks (file : File) : List StoredBlock → Series Datum
  | [] => .ended
  | block :: rest =>
    (file.recordsOf block.count.toNat block.data).append fun _ => recordsOfBlocks file rest

theorem recordsOfBlocks_append (file : File) (front back : List StoredBlock) :
    recordsOfBlocks file (front ++ back) = (recordsOfBlocks file front).append fun _ =>
      recordsOfBlocks file back := by
  induction front with
  | nil => rfl
  | cons block rest ih =>
    rw [List.cons_append, recordsOfBlocks, recordsOfBlocks, ih, Series.append_assoc]

/-! ### Reading -/

private theorem reads_data {block : StoredBlock} (sound : block.Sound codec) :
    Reads codec.readBlock (Varint.encode block.compressed.length ++ block.compressed)
      block.data := by
  obtain ⟨expand, isExpander, expands⟩ := outcome_bind_ok.mp sound.expands
  unfold Codec.readBlock
  rw [isExpander, readLift_ok_bind, ← List.append_nil (_ ++ block.compressed)]
  refine (Reads.sized sound.small).bind ?_
  rw [expands]
  exact Reads.pure _

theorem reads_sync (sized : file.header.sync.length = syncSize) :
    Reads file.readSync file.header.sync () := by
  rw [← List.append_nil file.header.sync]
  refine (Reads.take sized).bind ?_
  rw [if_neg (by simp)]
  exact Reads.pure ()

/-- The records of a file are those of its blocks, if there is fuel for each of them. -/
theorem recordsFrom_blocks (sized : file.header.sync.length = syncSize)
    (sound : ∀ block ∈ blocks, block.Sound codec) {fuel : Nat} (enough : blocks.length < fuel)
    (before : Option Int) :
    file.recordsFrom codec fuel ⟨blocks.flatMap (StoredBlock.bytes file.header.sync), before⟩ =
      recordsOfBlocks file blocks := by
  induction blocks generalizing fuel before with
  | nil =>
    cases fuel with
    | zero => omega
    | succ fuel => rfl
  | cons block rest ih =>
    rw [List.forall_mem_cons] at sound
    obtain ⟨fuel, rfl⟩ : ∃ less, fuel = less + 1 := ⟨fuel - 1, by omega⟩
    rw [List.length_cons] at enough
    rw [List.flatMap_cons, StoredBlock.bytes, List.append_assoc, List.append_assoc, recordsOfBlocks]
    obtain ⟨afterCount, countDone⟩ := Reads.varint sound.1.countLower sound.1.countUpper
      ((Varint.encode block.compressed.length ++ block.compressed) ++
        (file.header.sync ++ rest.flatMap (StoredBlock.bytes file.header.sync))) before
    obtain ⟨afterData, dataDone⟩ := reads_data sound.1
      (file.header.sync ++ rest.flatMap (StoredBlock.bytes file.header.sync)) afterCount
    obtain ⟨afterSync, syncDone⟩ :=
      reads_sync sized (rest.flatMap (StoredBlock.bytes file.header.sync)) afterData
    rw [File.recordsFrom]
    simp only [countDone, dataDone, syncDone]
    rw [ih sound.2 (by omega)]

theorem length_le_bytes (sync : Bytes) (blocks : List StoredBlock) :
    blocks.length ≤ (blocks.flatMap (StoredBlock.bytes sync)).length := by
  induction blocks with
  | nil => exact Nat.le_refl 0
  | cons block rest ih =>
    have notEmpty := List.length_pos_of_ne_nil (Varint.encode_ne_nil block.count)
    rw [List.flatMap_cons, List.length_cons, List.length_append, StoredBlock.bytes,
      List.length_append, List.length_append]
    omega

theorem records_blocks {libraries : Codec.Libraries}
    (codecIs : Codec.find? libraries file.header.codec = some codec)
    (sized : file.header.sync.length = syncSize) (sound : ∀ block ∈ blocks, block.Sound codec)
    (before : Option Int) :
    file.records libraries ⟨blocks.flatMap (StoredBlock.bytes file.header.sync), before⟩ =
      recordsOfBlocks file blocks := by
  rw [File.records, codecIs]
  exact recordsFrom_blocks sized sound (Nat.lt_succ_of_le (length_le_bytes _ _)) before

/-- As many records are read as are counted, whatever stands behind them. -/
theorem recordsOf_flatMap {α : Type} {entries : List α} {bytesOf : α → Bytes} {valueOf : α → Datum}
    (readable : ∀ entry ∈ entries, Reads file.readRecord (bytesOf entry) (valueOf entry))
    (behind : Bytes) :
    file.recordsOf entries.length (entries.flatMap bytesOf ++ behind) =
      ⟨entries.map valueOf, none⟩ := by
  induction entries with
  | nil => rfl
  | cons entry rest ih =>
    rw [List.forall_mem_cons] at readable
    obtain ⟨after, done⟩ := readable.1 (rest.flatMap bytesOf ++ behind) none
    rw [List.length_cons, List.flatMap_cons, List.append_assoc, File.recordsOf, BinaryInput.ofBytes]
    simp only [done, ih readable.2]
    rfl

theorem recordsOf_congr {other : File} (same : file.readRecord = other.readRecord) (count : Nat)
    (data : Bytes) : file.recordsOf count data = other.recordsOf count data := by
  induction count generalizing data with
  | zero => rfl
  | succ count ih =>
    rw [File.recordsOf, File.recordsOf, same]
    simp only [ih]

end Container

end Avro
