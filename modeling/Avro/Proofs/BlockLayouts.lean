import Avro.Proofs.BlockSeries
import Avro.Proofs.ReadingLevel
import Avro.Proofs.RoundTrip
import Avro.Proofs.Skip
import Avro.Proofs.Transparency

/-!
Contract: a collection is read from any division into blocks.

Owns: `Layout`, the byte strings that hold given items in consecutive blocks; `Laid`, the encodings
of a value whose arrays and maps are laid out in any such way, at every depth; and that reading such
an encoding gives the value, and skipping it stops where reading does.

A writer puts all items into one block. Foreign data may have many, and may tell the size of a block
behind its negated count. The loop over the blocks takes the next count from the state that the
collections within the items use as well; it may do so, because it reads that count after the items.
-/

namespace Avro

open BinaryInput
open Decode (readArray readMap)
open Members (get?)

variable {α : Type} {step : ReadM BinaryInput α} {items : List (α × Bytes)} {bytes front : Bytes}
  {number : Int}

/-! ### Divisions into blocks -/

/-- The bytes before the items of a block: their number, or their number negated and a size that may
be any long. -/
inductive BlockHead (count : Nat) : Bytes → Prop where
  | counted {front : Bytes} (number : Reads readVarint front count) : BlockHead count front
  | sized {front size : Bytes} {anyLong : Int} (number : Reads readVarint front (-count))
      (sizeIs : Reads readVarint size anyLong) : BlockHead count (front ++ size)

/-- The bytes hold the items, each given with its own bytes, in blocks that are not empty, and then
a count of zero. -/
inductive Layout : List (α × Bytes) → Bytes → Prop where
  | ended {stop : Bytes} (zero : Reads readVarint stop 0) : Layout [] stop
  | block {items others : List (α × Bytes)} {head rest : Bytes} (present : items ≠ [])
      (headed : BlockHead items.length head)
      (remaining : Layout others rest) :
      Layout (items ++ others) (head ++ (items.flatMap Prod.snd ++ rest))

/-- Behind a count, the blocks of a collection continue with the bytes. -/
def Continues (step : ReadM BinaryInput α) (number : Int) (bytes : Bytes) (values : List α) :
    Prop :=
  ∀ rest fuel, bytes.length < fuel →
    ∃ after, readBlocks step fuel ⟨bytes ++ rest, some number⟩ = .ok values ⟨rest, after⟩

theorem readBlockCount_of_reads (reads : Reads readVarint front number) (rest : Bytes)
    (count : Option Int) : readBlockCount ⟨front ++ rest, count⟩ = .ok () ⟨rest, some number⟩ := by
  obtain ⟨after, done⟩ := reads rest count
  exact step_bind_ok.mpr ⟨number, _, done, rfl⟩

theorem betweenItems_of_ok {input after : BinaryInput} {value : α}
    (done : step input = .ok value after) : betweenItems step input = .ok value after := by
  rw [betweenItems, done]

private theorem length_pos_of_reads (reads : Reads readVarint front number) : 0 < front.length := by
  obtain ⟨after, done⟩ := reads [] none
  obtain ⟨digits, present, joined⟩ := exists_bytes_of_readVarint done
  have nonempty := List.length_pos_of_ne_nil present
  simp only [List.append_nil] at joined
  rwa [← joined]

/-- A block starts with a count, behind which the block's number of items is known. -/
theorem startBlock_of_head {count : Nat} {head : Bytes} (headed : BlockHead count head)
    (positive : 0 < count) :
    ∃ front number back, head = front ++ back ∧ Reads readVarint front number ∧
      ∀ rest, ∃ after, startBlock ⟨back ++ rest, some number⟩ = .ok count ⟨rest, after⟩ := by
  cases headed with
  | counted numberIs =>
    exact ⟨_, _, [], (List.append_nil _).symm, numberIs, fun rest =>
      ⟨_, startBlock_of_count count rest⟩⟩
  | @sized front size anyLong numberIs sizeIs =>
    refine ⟨front, _, size, rfl, numberIs, fun rest => ?_⟩
    have negative : -(count : Int) < 0 := by omega
    obtain ⟨after, sizeDone⟩ := sizeIs rest (some (-(-(count : Int))))
    refine ⟨after, step_bind_ok.mpr ⟨_, _, rfl, ?_⟩⟩
    simp only [negative, if_true]
    refine step_bind_ok.mpr ⟨(), _, rfl,
      step_bind_ok.mpr ⟨anyLong, _, betweenItems_of_ok sizeDone, ?_⟩⟩
    rw [Int.natAbs_neg, Int.natAbs_natCast]
    rfl

theorem Reads.times (each : ∀ item ∈ items, Reads step item.2 item.1) :
    Reads (BinaryInput.times step items.length) (items.flatMap Prod.snd) (items.map Prod.fst) := by
  induction items with
  | nil => exact Reads.pure []
  | cons item others ih =>
    rw [List.forall_mem_cons] at each
    rw [List.length_cons, BinaryInput.times, List.flatMap_cons, List.map_cons]
    exact each.1.bind ((ih each.2).map _)

/-- Whatever its division into blocks, a collection starts with a count, behind which it continues
with all its items. -/
theorem continues_of_layout (layout : Layout items bytes)
    (each : ∀ item ∈ items, Reads step item.2 item.1) :
    ∃ front number back, bytes = front ++ back ∧ Reads readVarint front number ∧
      Continues step number back (items.map Prod.fst) := by
  induction layout with
  | @ended stop zero =>
    refine ⟨stop, 0, [], (List.append_nil stop).symm, zero, fun rest fuel enough => ⟨some 0, ?_⟩⟩
    obtain ⟨left, rfl⟩ : ∃ left, fuel = left + 1 := ⟨fuel - 1, by omega⟩
    exact readBlocks_end rest
  | @block items others head rest present headed remaining ih =>
    rw [List.forall_mem_append] at each
    have positive : 0 < items.length := List.length_pos_of_ne_nil present
    obtain ⟨front, number, back, rfl, numberIs, starts⟩ := startBlock_of_head headed positive
    obtain ⟨nextFront, nextNumber, nextBack, rfl, nextNumberIs, continues⟩ := ih each.2
    refine ⟨front, number, _, List.append_assoc _ _ _, numberIs, fun after fuel enough => ?_⟩
    obtain ⟨left, rfl⟩ : ∃ left, fuel = left + 1 := ⟨fuel - 1, by omega⟩
    have nextPositive := length_pos_of_reads nextNumberIs
    simp only [List.length_append] at enough
    obtain ⟨count, started⟩ := starts (items.flatMap Prod.snd ++ (nextFront ++ nextBack) ++ after)
    obtain ⟨between, itemsDone⟩ := Reads.times each.1 ((nextFront ++ nextBack) ++ after) count
    have counted := readBlockCount_of_reads nextNumberIs (nextBack ++ after) between
    obtain ⟨last, othersDone⟩ := continues after left (by omega)
    refine ⟨last, ?_⟩
    rw [readBlocks, List.append_assoc, step_bind_of_ok started, if_neg (by omega),
      List.append_assoc, step_bind_of_ok itemsDone, List.append_assoc,
      step_bind_of_ok (betweenItems_of_ok counted), step_bind_of_ok othersDone, List.map_append]
    rfl

theorem Reads.layout (layout : Layout items bytes)
    (each : ∀ item ∈ items, Reads step item.2 item.1) :
    Reads (readBlockCount >>= fun _ => readCollection step) bytes (items.map Prod.fst) := by
  intro rest count
  obtain ⟨front, number, back, rfl, numberIs, continues⟩ := continues_of_layout layout each
  obtain ⟨after, done⟩ := continues rest ((back ++ rest).length + 1)
    (by simp only [List.length_append]; omega)
  refine ⟨after, ?_⟩
  rw [List.append_assoc, step_bind_of_ok (readBlockCount_of_reads numberIs _ count)]
  exact done

/-! ### Collections of a schema -/

/-- A pair of a map, with the bytes of its key and of its value. -/
structure EncodedPair where
  key : String
  value : Datum
  keyBytes : Bytes
  valueBytes : Bytes

/-- The entry that the pair is read as, with all its bytes. -/
def EncodedPair.entry (pair : EncodedPair) : (Datum × Datum) × Bytes :=
  ((.str pair.key, pair.value), pair.keyBytes ++ pair.valueBytes)

/-- The mapping that pairs make, put in one after the other: a repeated key takes the last of its
values. -/
def entriesOf (pairs : List EncodedPair) : List (Datum × Datum) :=
  pairs.foldl (fun entries pair => Datum.insert entries pair.key pair.value) []

section Node

variable {members : Members} {registry : Registry} {depth : Nat} {item : Json}

theorem finish_of_word {word : String} (isWord : word ∈ ["record", "error", "array", "map"])
    (typeIs : get? members "type" = some (.str word)) (type : Json) (datum : Datum) :
    Decode.finish (.obj members) .null type datum = .ok datum :=
  finish_of_plain (Validation.ofSchema_of_word isWord typeIs) rfl type datum

/-- An array is read from any division of its items into blocks. -/
theorem reads_array {items : List (Datum × Bytes)}
    (typeIs : get? members "type" = some (.str "array")) (itemIs : get? members "items" = some item)
    (layout : Layout items bytes)
    (each : ∀ entry ∈ items, Reads (Decode.read registry depth item .null false) entry.2 entry.1) :
    Reads (Decode.read registry (depth + 1) (.obj members) .null false) bytes
      (.list (items.map Prod.fst)) := by
  refine reads_succ (finish_of_word (by simp) typeIs) (Schema.kindOf_obj typeIs) rfl ?_
  change Reads (readArray _ _ _ _) _ _
  rw [readArray_eq]
  refine (Reads.layout layout fun entry isEntry => ?_).map Datum.list
  exact Reads.lift (attributeOf_obj itemIs) (Reads.lift rfl (each entry isEntry))

/-- A map is read from any division of its pairs into blocks. -/
theorem reads_map {pairs : List EncodedPair} (typeIs : get? members "type" = some (.str "map"))
    (itemIs : get? members "values" = some item)
    (layout : Layout (pairs.map EncodedPair.entry) bytes)
    (keys : ∀ pair ∈ pairs, Reads readString pair.keyBytes (.str pair.key))
    (each : ∀ pair ∈ pairs, Reads (Decode.read registry depth item .null false) pair.valueBytes
      pair.value) :
    Reads (Decode.read registry (depth + 1) (.obj members) .null false) bytes
      (.dict (entriesOf pairs)) := by
  have merged : ((pairs.map EncodedPair.entry).map Prod.fst).foldl Decode.insertEntry [] =
      entriesOf pairs := by
    rw [List.foldl_map, List.foldl_map]
    rfl
  refine reads_succ (finish_of_word (by simp) typeIs) (Schema.kindOf_obj typeIs) rfl ?_
  change Reads (readMap _ _ _ _) _ _
  rw [readMap_eq, ← merged]
  refine (Reads.layout layout fun entry isEntry => ?_).map fun entries =>
    Datum.dict (entries.foldl Decode.insertEntry [])
  obtain ⟨pair, isPair, rfl⟩ := List.mem_map.mp isEntry
  exact (keys pair isPair).bind
    (Reads.lift (attributeOf_obj itemIs) (Reads.lift rfl ((each pair isPair).map _)))

end Node

/-! ### Encodings in any layout -/

/-- The bytes encode the value, with all its blocks laid out in any way: they are given as an
encoding of the value, or the value is an array or a map, and they hold the encodings of its parts
in blocks. -/
inductive Laid (registry : Registry) : Nat → Json → Datum → Bytes → Prop where
  | given {depth : Nat} {node : Json} {value : Datum} {bytes : Bytes}
      (reads : Reads (Decode.read registry depth node .null false) bytes value) :
      Laid registry depth node value bytes
  | array {depth : Nat} {members : Members} {item : Json} {items : List (Datum × Bytes)}
      {bytes : Bytes}
      (typeIs : get? members "type" = some (.str "array"))
      (itemIs : get? members "items" = some item)
      (layout : Layout items bytes)
      (each : ∀ entry ∈ items, Laid registry depth item entry.1 entry.2) :
      Laid registry (depth + 1) (.obj members) (.list (items.map Prod.fst)) bytes
  | map {depth : Nat} {members : Members} {item : Json} {pairs : List EncodedPair} {bytes : Bytes}
      (typeIs : get? members "type" = some (.str "map"))
      (itemIs : get? members "values" = some item)
      (layout : Layout (pairs.map EncodedPair.entry) bytes)
      (keys : ∀ pair ∈ pairs, Reads readString pair.keyBytes (.str pair.key))
      (each : ∀ pair ∈ pairs, Laid registry depth item pair.value pair.valueBytes) :
      Laid registry (depth + 1) (.obj members) (.dict (entriesOf pairs)) bytes

theorem Laid.reads {registry : Registry} {depth : Nat} {node : Json} {value : Datum}
    (laid : Laid registry depth node value bytes) :
    Reads (Decode.read registry depth node .null false) bytes value := by
  induction laid with
  | given reads => exact reads
  | array typeIs itemIs layout _ ih => exact reads_array typeIs itemIs layout ih
  | map typeIs itemIs layout keys _ ih => exact reads_map typeIs itemIs layout keys ih

/-- A value is read from every encoding of it, however its arrays and maps are divided into blocks,
and whatever count an enclosing collection has left; skipping it stops at the same place. -/
theorem read_of_laid {registry : Registry} {depth : Nat} {node : Json} {value : Datum}
    {bytes : Bytes} (laid : Laid registry depth node value bytes) (rest : Bytes)
    (count : Option Int) :
    ∃ after, Decode.read registry depth node .null false (BinaryInput.mk (bytes ++ rest) count) =
        .ok value (BinaryInput.mk rest after) ∧
      Decode.skip registry depth node (BinaryInput.mk (bytes ++ rest) count) =
        .ok () (BinaryInput.mk rest after) := by
  obtain ⟨after, done⟩ := laid.reads rest count
  obtain ⟨_, skipped⟩ := read_endsAs_skip registry depth node .null false _ _ _ done
  exact ⟨after, done, skipped⟩

/-- A map with one key, which is given a number in each of two blocks. -/
def repeatedKeyPairs : List EncodedPair :=
  [⟨"a", .int 1, [2, 97], [2]⟩, ⟨"a", .int 3, [2, 97], [6]⟩]

private theorem layout_repeatedKeyPairs :
    Layout (repeatedKeyPairs.map EncodedPair.entry) [2, 2, 97, 2, 2, 2, 97, 6, 0] :=
  have head : BlockHead 1 [2] := .counted fun _ count => ⟨count, rfl⟩
  have later : Layout (repeatedKeyPairs.tail.map EncodedPair.entry) [2, 2, 97, 6, 0] :=
    @Layout.block _ (repeatedKeyPairs.tail.map EncodedPair.entry) [] [2] [0]
      (List.cons_ne_nil _ _) head
      (.ended fun _ count => ⟨count, rfl⟩)
  @Layout.block _ [EncodedPair.entry ⟨"a", .int 1, [2, 97], [2]⟩] _ [2] _
    (List.cons_ne_nil _ _) head later

/-- An array of that map alone, in a block that tells a size of minus one, behind a count of
nine. -/
theorem read_of_laid_repeatedKeyPairs :
    let node : Json := .obj [("type", .str "array"),
      ("items", .obj [("type", .str "map"), ("values", .str "long")])]
    let input := BinaryInput.mk ([1, 1, 2, 2, 97, 2, 2, 2, 97, 6, 0, 0] ++ [255]) (some 9)
    ∃ after, Decode.read [] 3 node .null false input =
      .ok (.list [.dict [(.str "a", .int 3)]]) (BinaryInput.mk [255] after) ∧
      Decode.skip [] 3 node input = .ok () (BinaryInput.mk [255] after) := by
  have inner : Laid [] 2 (.obj [("type", .str "map"), ("values", .str "long")])
    (.dict [(.str "a", .int 3)])
      [2, 2, 97, 2, 2, 2, 97, 6, 0] := by
    refine Laid.map rfl rfl layout_repeatedKeyPairs ?_ ?_
    · simp only [repeatedKeyPairs, List.forall_mem_cons]
      exact ⟨fun _ count => ⟨count, by cbv⟩, fun _ count => ⟨count, by cbv⟩, by simp⟩
    · simp only [repeatedKeyPairs, List.forall_mem_cons]
      exact ⟨.given fun _ count => ⟨count, rfl⟩, .given fun _ count => ⟨count, rfl⟩, by simp⟩
  have head : BlockHead 1 [1, 1] :=
    @BlockHead.sized 1 [1] [1] (-1) (fun _ count => ⟨count, rfl⟩) fun _ count => ⟨count, rfl⟩
  let items : List (Datum × Bytes) := [(.dict [(.str "a", .int 3)], [2, 2, 97, 2, 2, 2, 97, 6, 0])]
  have layout : Layout items [1, 1, 2, 2, 97, 2, 2, 2, 97, 6, 0, 0] :=
    @Layout.block _ items [] [1, 1] [0] (List.cons_ne_nil _ _) head
      (.ended fun _ count => ⟨count, rfl⟩)
  exact read_of_laid (Laid.array rfl rfl layout (List.forall_mem_singleton.mpr inner))
    [255] (some 9)

end Avro
