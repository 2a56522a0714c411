import Avro.Proofs.Completion
import Avro.Proofs.Framing

/-!
Contract: what is missing from a cut-off value that is read without an error.

Owns: `Bounds`, how reading treats a front part of labelled bytes, and that it is a way to tell what
is read.

A number, a count and a place are never read from a part of their bytes. A byte string, a text and a
fixed type take what is left, so a value may be read without the end of its last content. Nothing
else may be missing.
-/

namespace Avro

open Datum (sizeLimit)
open Encode (parts_eq)
open Schema (attributeOf integer? kindOf)
open Varint (encode unzigzag zigzag)

open BinaryInput BinaryOutput Labelled

variable {α β : Type} {good : List α → Prop} {registry : Registry}

namespace Labelled

variable {bytes : Bytes} {isContent : Bool}

private theorem isContent_of_mem_all {label : Labelled} (isLabel : label ∈ all isContent bytes) :
    label.isContent = isContent := by
  obtain ⟨byte, -, rfl⟩ := List.mem_map.mp isLabel
  rfl

theorem eq_all_of_append {front back : List Labelled}
    (parts : front ++ back = all isContent bytes) :
    bytesOf front ++ bytesOf back = bytes ∧ ∀ label ∈ back, label.isContent = isContent := by
  refine ⟨by rw [← bytesOf_append, parts, bytesOf_all], fun label isLabel => ?_⟩
  exact isContent_of_mem_all (parts ▸ List.mem_append_right front isLabel)

end Labelled

/-- The labelled bytes of a single value by a schema that is parsed first. -/
def Encode.labelled (schema : Json) (datum : Datum) : Outcome (List Labelled) := do
  let (parsed, registry) ← Schema.parse {} [] schema
  match write registry Schema.depthLimit datum parsed (.str "") LabelledOutput.empty with
  | .ok _ output => return output.labels
  | .error error _ => throw error

/-! ### Reading a front part -/

/-- Where the step succeeds on a front part of the labelled bytes, it takes that part and nothing
else; all that is missing behind it is content; and the value is as expected. What is missing is
followed by nothing. -/
def Bounds (read : ReadM BinaryInput α) (labels : List Labelled) (expected : α → Prop) : Prop :=
  ∀ front back rest before value after, front ++ back = labels → (back = [] ∨ rest = []) →
    read ⟨bytesOf front ++ rest, before⟩ = .ok value after →
    after.rest = rest ∧ (∀ label ∈ back, label.isContent = true) ∧ expected value

namespace Bounds

variable {final : β → Prop} {expected : α → Prop} {front back labels : List Labelled}
  {next : α → ReadM BinaryInput β} {read step : ReadM BinaryInput α} {bytes : Bytes} {count : Nat}

theorem throw (error : Error) (labels : List Labelled) (expected : α → Prop) :
    Bounds (MonadExcept.throw error) labels expected := by
  intro front back rest before value after _ _ done
  cases done

theorem pure {value : α} {expected : α → Prop} (isExpected : expected value) :
    Bounds (Pure.pure value) [] expected := by
  intro front back rest before result after parts _ done
  obtain ⟨rfl, rfl⟩ := List.append_eq_nil_iff.mp parts
  cases done
  exact ⟨rfl, by simp, isExpected⟩

theorem bind {first : ReadM BinaryInput α} (firstBounds : Bounds first front expected)
    (nextBounds : ∀ value, expected value → Bounds (next value) back final) :
    Bounds (first >>= next) (front ++ back) final := by
  intro kept missing rest before result after parts atEnd done
  obtain ⟨value, between, started, done⟩ := step_bind_ok.mp done
  rcases cut_cases parts with ⟨lost, isLost, frontIs, rfl⟩ | ⟨others, rfl, backIs⟩
  · -- The cut lies in the first part, so the second one starts at the end of the data.
    have nothing : rest = [] :=
      atEnd.resolve_left fun whole => isLost (List.append_eq_nil_iff.mp whole).1
    subst nothing
    obtain ⟨restIs, lostContent, isExpected⟩ :=
      firstBounds kept lost [] before value between frontIs (.inr rfl) started
    obtain ⟨left, count⟩ := between
    subst restIs
    obtain ⟨afterIs, backContent, isFinal⟩ :=
      nextBounds value isExpected [] back [] count result after rfl (.inr rfl) done
    exact ⟨afterIs, fun label isLabel =>
      (List.mem_append.mp isLabel).elim (lostContent label) (backContent label), isFinal⟩
  · rw [bytesOf_append, List.append_assoc] at started
    obtain ⟨restIs, -, isExpected⟩ :=
      firstBounds front [] (bytesOf others ++ rest) before value between (List.append_nil front)
        (.inl rfl) started
    obtain ⟨left, count⟩ := between
    subst restIs
    exact nextBounds value isExpected others missing rest count result after backIs atEnd done

theorem ofWhole
    (whole : ∀ rest before value after, read ⟨bytes ++ rest, before⟩ = .ok value after →
      after.rest = rest ∧ expected value)
    (cut : ∀ front back before value after, front ++ back = bytes → back ≠ [] →
      read ⟨front, before⟩ ≠ .ok value after) :
    Bounds read (all false bytes) expected := by
  intro front back rest before value after parts atEnd done
  obtain ⟨bytesAre, -⟩ := eq_all_of_append parts
  by_cases nothing : back = []
  · subst nothing
    rw [show bytesOf [] = [] from rfl, List.append_nil] at bytesAre
    rw [bytesAre] at done
    obtain ⟨restIs, isExpected⟩ := whole rest before value after done
    exact ⟨restIs, by simp, isExpected⟩
  · obtain rfl := atEnd.resolve_left nothing
    rw [List.append_nil] at done
    exact absurd done (cut _ _ before value after bytesAre (by simpa [bytesOf] using nothing))

theorem varint (number : Int) :
    Bounds readVarint (all false (encode number)) (· = unzigzag (zigzag number)) := by
  apply ofWhole
  · intro rest before value after done
    rw [readVarint_encode] at done
    cases done
    exact ⟨rfl, rfl⟩
  · intro front back before value after parts isCut done
    obtain ⟨error, stopped, failed, -⟩ := readVarint_of_cut parts isCut before
    rw [failed] at done
    cases done

theorem fixedWidth {width number : Nat} (small : number < 256 ^ width) :
    Bounds (readFixedWidth width) (all false (Octets.littleEndian width number)) (· = number) := by
  apply ofWhole
  · intro rest before value after done
    obtain ⟨left, whole⟩ := Reads.fixedWidth small rest before
    cases whole.symm.trans done
    exact ⟨rfl, rfl⟩
  · intro front back before value after parts isCut done
    obtain ⟨taken, between, takes, done⟩ := step_bind_ok.mp done
    cases takes
    have short : (front.take width).length ≠ width := by
      have widthIs := Octets.length_littleEndian width number
      have positive : 0 < back.length := List.length_pos_iff.mpr isCut
      rw [← parts, List.length_append] at widthIs
      rw [List.length_take]
      omega
    rw [if_neg short] at done
    cases done

theorem takeSized {bytes : Bytes} (small : bytes.length < sizeLimit) :
    Bounds (BinaryInput.takeSized bytes.length) (all true bytes) fun found => ¬ True →
    found = bytes := by
  intro front back rest before value after parts atEnd done
  obtain ⟨rfl, isContent⟩ := eq_all_of_append parts
  rw [takeSized_natCast small] at done
  cases done
  refine ⟨?_, isContent, absurd trivial⟩
  change (bytesOf front ++ rest).drop (bytesOf front ++ bytesOf back).length = rest
  rcases atEnd with rfl | rfl
  · rw [show bytesOf [] = [] from rfl, List.append_nil, List.drop_left]
  · rw [List.append_nil, List.drop_eq_nil_iff, List.length_append]
    exact Nat.le_add_right _ _

/-! ### Collections -/

theorem blockCount_of_front (small : count < sizeLimit) {rest : Bytes} {before : Option Int}
    {after : BinaryInput} (parts : front ++ back = all false (encode count) ++ labels)
    (atEnd : back = [] ∨ rest = [])
    (done : readBlockCount ⟨bytesOf front ++ rest, before⟩ = .ok () after) :
    ∃ others, others ++ back = labels ∧ after = ⟨bytesOf others ++ rest, some (count : Int)⟩ := by
  rcases cut_cases parts with ⟨lost, isLost, countIs, rfl⟩ | ⟨others, rfl, backIs⟩
  · obtain rfl : rest = [] :=
      atEnd.resolve_left fun whole => isLost (List.append_eq_nil_iff.mp whole).1
    obtain ⟨number, between, started, -⟩ := step_bind_ok.mp done
    obtain ⟨-, lostContent, -⟩ :=
      varint count front lost [] before number between countIs (.inr rfl) started
    obtain ⟨label, others, rfl⟩ := List.exists_cons_of_ne_nil isLost
    have isForm := (eq_all_of_append countIs).2 label (List.mem_cons_self ..)
    exact absurd (isForm ▸ lostContent label (List.mem_cons_self ..)) Bool.false_ne_true
  · rw [bytesOf_append, bytesOf_all, List.append_assoc, readBlockCount_encode small] at done
    cases done
    exact ⟨others, backIs, rfl⟩

private theorem lastBlock {items : List α} (areGood : good items) (fuel : Nat) :
    Bounds (betweenItems readBlockCount >>= fun _ => readBlocks step fuel >>= fun more =>
      Pure.pure (items ++ more))
      (all false (encode 0)) good := by
  intro front back rest before value after parts atEnd done
  obtain ⟨_, between, ended, done⟩ := step_bind_ok.mp done
  have counted : readBlockCount ⟨bytesOf front ++ rest, before⟩ = .ok () between := by
    unfold betweenItems at ended
    split at ended
    · cases ended
    · exact ended
  rw [← List.append_nil (all false (encode 0))] at parts
  obtain ⟨others, othersAre, rfl⟩ :=
    blockCount_of_front (by decide : 0 < sizeLimit) parts atEnd counted
  obtain ⟨rfl, rfl⟩ := List.append_eq_nil_iff.mp othersAre
  obtain ⟨more, final, read, done⟩ := step_bind_ok.mp done
  cases fuel with
  | zero => cases read
  | succ fuel =>
    change readBlocks step (fuel + 1) ⟨rest, some 0⟩ = _ at read
    rw [readBlocks_end rest] at read
    cases read
    rw [List.append_nil] at done
    cases done
    exact ⟨rfl, by simp, areGood⟩

theorem emptyCollection (step : ReadM BinaryInput α) :
    Bounds (readBlockCount >>= fun _ => readCollection step) (all false (encode 0)) (· = []) := by
  intro front back rest before value after parts atEnd done
  obtain ⟨_, between, counted, done⟩ := step_bind_ok.mp done
  rw [← List.append_nil (all false (encode 0))] at parts
  obtain ⟨others, othersAre, rfl⟩ :=
    blockCount_of_front (by decide : 0 < sizeLimit) parts atEnd counted
  obtain ⟨rfl, rfl⟩ := List.append_eq_nil_iff.mp othersAre
  have ended : readCollection step ⟨rest, some 0⟩ = .ok [] ⟨rest, some 0⟩ := readBlocks_end rest
  change readCollection step ⟨rest, some 0⟩ = _ at done
  rw [ended] at done
  cases done
  exact ⟨rfl, by simp, rfl⟩

theorem oneBlock (positive : 0 < count) (small : count < sizeLimit)
    (items : Bounds (times step count) labels good) :
    Bounds (readBlockCount >>= fun _ => readCollection step)
      (all false (encode count) ++ (labels ++ all false (encode 0))) good := by
  intro front back rest before value after parts atEnd done
  obtain ⟨_, between, counted, done⟩ := step_bind_ok.mp done
  obtain ⟨others, othersAre, rfl⟩ := blockCount_of_front small parts atEnd counted
  unfold readCollection at done
  rw [readBlocks] at done
  obtain ⟨found, between, started, done⟩ := step_bind_ok.mp done
  rw [startBlock_of_count] at started
  cases started
  rw [if_neg (by omega)] at done
  exact items.bind (fun values areGood => lastBlock areGood _) others back rest (some count) value
    after othersAre atEnd done

/-- What is told about the data that end within a number does not matter for what is read. -/
theorem orTruncated (bounds : Bounds read labels expected) (type : Json) :
    Bounds (Decode.orTruncated type read) labels expected := by
  intro front back rest before value after parts atEnd done
  refine bounds front back rest before value after parts atEnd ?_
  unfold Decode.orTruncated at done
  split at done
  · cases done
  · exact done

end Bounds

/-- What a cut-off encoding is read as, if it is read. -/
def Bounding : ReadLogic where
  total := False
  cut := True
  whole := False.elim
  holds := Bounds
  pure := Bounds.pure
  throw _ error labels := Bounds.throw error labels _
  bind := Bounds.bind
  orTruncated := Bounds.orTruncated
  varint := Bounds.varint
  fixedWidth := Bounds.fixedWidth
  takeSized := Bounds.takeSized
  emptyCollection := Bounds.emptyCollection
  oneBlock := Bounds.oneBlock

/-! ### Values -/

/-- Whether a site is as a schema is parsed: a reference has no logical type of its own, and
`request` is a reference too. -/
def Encode.Site.regular (site : Site) : Bool :=
  match kindOf site.node with
  | .ok (.named _) => site.isPlain
  | .ok .request => Schema.isText site.node
  | _ => true

/-- What occurs in an accepted value is accepted, if all sites are regular. -/
theorem accepted_of_occurs {limit : Nat} {site other : Encode.Site}
    (accepted : Accepted registry site)
    (regular : ∀ other, Encode.Occurs registry limit site other → other.regular = true)
    (occurs : Encode.Occurs registry limit site other) : Accepted registry other := by
  induction occurs with
  | whole site => exact accepted
  | @within site part _ isPart _ ih =>
    refine ih ?_ fun other inner => regular other (.within isPart inner)
    obtain ⟨level, place, valid⟩ := accepted
    obtain ⟨below, kind, datum, kindIs, prepared, valid⟩ := check_prepared_ok valid
    rw [parts_eq kindIs prepared] at isPart
    refine accepted_part valid (fun isReference => ?_) isPart
    cases kind with
    | named name =>
      have here := regular site (.whole site)
      simp only [Encode.Site.regular, kindIs] at here
      rw [prepareFor_of_plain (Encode.Site.plain_of_isPlain here)] at prepared
      exact (Except.ok.inj prepared).symm
    | foreign value => cases valid
    | _ => cases isReference

/-- Content is read by the declared size. A size that is not whole is not read at all. -/
theorem bounds_fixed {schema : Json} {content : Bytes} (small : content.length < sizeLimit)
    (valid : Validation.checkFixed schema (.bytes content) = .ok true) :
    Bounds (ReadM.lift (attributeOf schema "size") >>= Source.readFixed) (all true content)
      fun _ => True := by
  obtain ⟨size, sizeIs, valid⟩ := outcome_bind_ok.mp valid
  have same := Except.ok.inj valid
  rw [sizeIs, readLift_ok_bind]
  have ofSize (counts : integer? size = some (content.length : Int)) :
      Bounds (readFixedSize size) (all true content) fun _ => True :=
    Bounding.weaken (Bounding.fixed small counts) fun _ _ => trivial
  cases size with
  | null => cases same
  | int count =>
    simp only [Json.same, Json.integral?, beq_iff_eq, Option.some.injEq] at same
    exact ofSize (by rw [integer?, same])
  | bool flag =>
    simp only [Json.same, Json.integral?, beq_iff_eq, Option.some.injEq] at same
    exact ofSize (by rw [integer?, same])
  | _ => exact .throw _ _ _

theorem Encode.Site.fits_of_regular {site : Site} (accepted : Accepted registry site)
    (isRegular : site.regular = true) : site.Fits Bounding where
  notRequest requestIs := by
    obtain ⟨level, place, valid⟩ := accepted
    obtain ⟨below, kind, other, kindIs, -, valid⟩ := check_prepared_ok valid
    cases requestIs.symm.trans kindIs
    simp only [regular, requestIs] at isRegular
    -- A value is checked by the word itself, which has no name.
    cases nodeIs : site.node with
    | str word =>
      simp [nodeIs, Validation.checkKind, Validation.checkRecord, Schema.qualifiedName, bind,
        Except.bind] at valid
    | _ => simp [nodeIs, Schema.isText] at isRegular
  reference name kindIs := by
    simp only [regular, kindIs] at isRegular
    exact plain_of_isPlain isRegular
  sized fixedIs datum content preparedIs contentIs small := by
    obtain ⟨level, place, valid⟩ := accepted
    obtain ⟨below, kind, other, kindIs, prepared, valid⟩ := check_prepared_ok valid
    cases fixedIs.symm.trans kindIs
    cases preparedIs.symm.trans prepared
    cases datum with
    | bytes bytes =>
      cases contentIs
      exact bounds_fixed small valid
    | _ => cases valid
  symbols := False.elim
  plain := False.elim

/-- From a cut-off encoding a value is read only if nothing but content is missing. Let a schema
accept a value, let every site that is met on the way be regular, and let the value be written. Then
it is written with labels, and where the reader accepts a front part of the bytes, it has read that
part to its end, and all labels behind it are those of content. -/
theorem missing_of_accepted_cut {schema parsed : Json} {registry : Registry} {datum : Datum}
    {bytes : Bytes} (parses : Schema.parse {} [] schema = .ok (parsed, registry))
    (accepted : Accepted registry ⟨parsed, datum⟩)
    (regular : ∀ site, Encode.Occurs registry Schema.depthLimit ⟨parsed, datum⟩ site →
      site.regular = true)
    (written : Encode.single schema datum = .ok bytes) :
    ∃ labels, Encode.labelled schema datum = .ok labels ∧ bytesOf labels = bytes ∧
      ∀ cut missing value rest, cut ++ missing = bytes →
        Decode.single schema .null false cut = .ok (value, rest) →
        rest = [] ∧ ∀ label ∈ labels.drop cut.length, label.isContent = true := by
  simp only [Encode.single, parses, outcome_ok_bind] at written
  split at written
  · rename_i output done
    cases written
    have fitting (site : Encode.Site)
        (occurs : Encode.Occurs registry Schema.depthLimit ⟨parsed, datum⟩ site) :=
      Encode.Site.fits_of_regular (accepted_of_occurs accepted regular occurs) (regular site occurs)
    obtain ⟨labels, appended, isLabelled, bounds⟩ :=
      pairsValues Bounding registry le_rfl fitting BinaryOutput.empty output done
    have bytesAre : output.written = bytesOf labels := by
      rw [appended, written_append, written_empty, List.nil_append]
    refine ⟨labels, ?_, bytesAre.symm, ?_⟩
    · simp only [Encode.labelled, parses, outcome_ok_bind, isLabelled trivial]
      rfl
    · intro cut missing value rest parts read
      have cutIs : bytesOf (labels.take cut.length) = cut := by
        rw [bytesOf, List.map_take, ← bytesOf, ← bytesAre, ← parts, List.take_left]
      have noReader : (if schema.same .null then Json.null else Json.null) = .null := ite_self _
      simp only [Decode.single, parses, outcome_ok_bind, noReader, Json.truthy, Bool.false_eq_true,
        if_false, pure_bind] at read
      split at read
      · rename_i found input started
        cases read
        rw [← cutIs, BinaryInput.ofBytes, ← List.append_nil (bytesOf _)] at started
        obtain ⟨nothing, isContent, -⟩ :=
          bounds _ (labels.drop cut.length) [] none value input (List.take_append_drop ..)
            (.inr rfl) started
        exact ⟨nothing, isContent⟩
      · cases read
  · cases written

/-- A page with one mark and a parent. -/
def markedPage : Datum :=
  .dict [(.str "digest", .bytes [97, 98]), (.str "flag", .bool true),
    (.str "marks", .list [.int 200]),
    (.str "parent", .bytes [99, 100])]

def markedPageSites : List Encode.Site :=
  [⟨pageNode, markedPage⟩, ⟨digestNode, .bytes [97, 98]⟩, ⟨.str "boolean", .bool true⟩,
    ⟨.obj [("type", .str "array"), ("items", .str "long")], .list [.int 200]⟩,
    ⟨.arr [.str "null", .str "Digest"], .bytes [99, 100]⟩, ⟨.str "long", .int 200⟩,
    ⟨.str "Digest", .bytes [99, 100]⟩,
    ⟨digestNode, .bytes [99, 100]⟩]

theorem missing_of_accepted_cut_markedPage :
    ∃ labels, Encode.labelled pageSchema markedPage = .ok labels ∧
      bytesOf labels = [97, 98, 1, 2, 144, 3, 0, 2, 99, 100] ∧
      ∀ cut missing value rest, cut ++ missing = [97, 98, 1, 2, 144, 3, 0, 2, 99, 100] →
        Decode.single pageSchema .null false cut = .ok (value, rest) →
        rest = [] ∧ ∀ label ∈ labels.drop cut.length, label.isContent = true := by
  have parses : Schema.parse {} [] pageSchema = .ok (pageNode, pageRegistry) := rfl
  have accepted : Accepted pageRegistry ⟨pageNode, markedPage⟩ := ⟨4, .null, rfl⟩
  have regular : ∀ site, Encode.Occurs pageRegistry Schema.depthLimit ⟨pageNode, markedPage⟩ site →
      site.regular = true := by
    intro site occurs
    have levels : markedPageSites.flatMap (Encode.parts pageRegistry Schema.depthLimit) =
      markedPageSites.tail := rfl
    have isSite : site ∈ markedPageSites :=
      occurs.mem_of_closed (levels ▸ List.tail_subset _) (List.mem_cons_self ..)
    have allRegular : markedPageSites.all Encode.Site.regular = true := rfl
    exact List.all_eq_true.mp allRegular site isSite
  have written : Encode.single pageSchema markedPage = .ok [97, 98, 1, 2, 144, 3, 0, 2, 99, 100] :=
    rfl
  exact missing_of_accepted_cut parses accepted regular written

/-- A byte string takes what is left of it: a value is read from a part of its encoding. -/
theorem cut_bytes_accepted :
    Encode.single (.str "bytes") (.bytes [97, 98, 99]) = .ok [6, 97, 98, 99] ∧
      Decode.single (.str "bytes") .null false [6, 97] = .ok (.bytes [97], []) :=
  ⟨rfl, rfl⟩

end Avro
