import Avro.Proofs.Acceptance
import Avro.Proofs.Answers
import Avro.Proofs.Instants
import Avro.Proofs.Reparsing

/-!
Contract: where refusals can be put into words.

Owns: `Datum.isBounded`, the values whose integers have texts, also once they are prepared for their
logical types; that a check of such a value meets no other; and that it is then the same check
whether refusals are put into words or not.
-/

namespace Avro

open Schema (attributeOf iterate required)

namespace Datum

variable {test weaker : Datum → Bool} {datum : Datum}

/-! ### Leaves -/

theorem allItemLeaves_iff {items : List Datum} :
    allItemLeaves test items = true ↔ ∀ item ∈ items, item.allLeaves test = true := by
  induction items with
  | nil => simp [allItemLeaves]
  | cons item rest ih => simp [allItemLeaves, ih]

theorem allEntryLeaves_iff {entries : List (Datum × Datum)} :
    allEntryLeaves test entries = true ↔
      ∀ entry ∈ entries, entry.1.allLeaves test = true ∧ entry.2.allLeaves test = true := by
  induction entries with
  | nil => simp [allEntryLeaves]
  | cons entry rest ih => simp [allEntryLeaves, ih, and_assoc]

mutual

private theorem allLeaves_mono (implies : ∀ leaf, test leaf = true → weaker leaf = true) :
    ∀ datum : Datum, datum.allLeaves test = true → datum.allLeaves weaker = true
  | .list items, passes => allItemLeaves_mono implies items passes
  | .tuple items, passes => allItemLeaves_mono implies items passes
  | .dict entries, passes => allEntryLeaves_mono implies entries passes
  | .null, passes | .bool _, passes | .int _, passes | .float _, passes | .str _, passes
  | .bytes _, passes | .buffer _, passes | .decimal _, passes | .uuid _, passes | .date _, passes
  | .time _ _, passes | .dateTime _, passes => implies _ passes

theorem allItemLeaves_mono (implies : ∀ leaf, test leaf = true → weaker leaf = true) :
    ∀ items : List Datum, allItemLeaves test items = true → allItemLeaves weaker items = true
  | [], _ => rfl
  | item :: rest, passes => by
    rw [allItemLeaves, Bool.and_eq_true] at passes ⊢
    exact ⟨allLeaves_mono implies item passes.1, allItemLeaves_mono implies rest passes.2⟩

theorem allEntryLeaves_mono (implies : ∀ leaf, test leaf = true → weaker leaf = true) :
    ∀ entries : List (Datum × Datum), allEntryLeaves test entries = true →
      allEntryLeaves weaker entries = true
  | [], _ => rfl
  | (key, value) :: rest, passes => by
    rw [allEntryLeaves, Bool.and_eq_true, Bool.and_eq_true] at passes ⊢
    exact ⟨⟨allLeaves_mono implies key passes.1.1, allLeaves_mono implies value passes.1.2⟩,
      allEntryLeaves_mono implies rest passes.2⟩

end

/-! ### Bounded values -/

/-- An integer that has a text, a date of the calendar, a time of a clock, or both of these in a
zone less than a day away from universal time. -/
def isBoundedLeaf : Datum → Bool
  | .int value => isShortInteger (.int value)
  | .date day => day.isReal
  | .time clock _ => clock.seconds < 86400 && clock.microsecond < 1000000
  | .dateTime moment =>
    moment.date.isReal && moment.time.seconds < 86400 && moment.time.microsecond < 1000000
      && moment.offset.all fun offset => -86400 < offset && offset < 86400
  | _ => true

/-- Whether all integers in a value have texts, and its dates and times are real. -/
def isBounded (datum : Datum) : Bool := datum.allLeaves isBoundedLeaf

private theorem isPrintable_of_isBounded (bounded : datum.isBounded = true) :
    datum.isPrintable = true := by
  refine allLeaves_mono (fun leaf passes => ?_) datum bounded
  cases leaf with
  | int value => exact passes
  | _ => rfl

theorem isBounded_int {value : Int} (few : value.natAbs < 10 ^ 20) :
    (Datum.int value).isBounded = true := by
  have short := (Nat.length_toDigits_le_iff (b := 10) (by decide) (by decide : 0 < 20)).mpr few
  exact decide_eq_true (short.trans (show 20 ≤ digitLimit by decide))

private theorem mem_of_lookup {entries : List (Datum × Datum)} {key : String} {value : Datum}
    (found : lookup entries key = some value) : ∃ entry ∈ entries, entry.2 = value := by
  induction entries with
  | nil => cases found
  | cons entry rest ih =>
    have later (found : lookup rest key = some value) :
        ∃ found ∈ entry :: rest, found.2 = value := by
      obtain ⟨found, isIn, valueIs⟩ := ih found
      exact ⟨found, List.mem_cons_of_mem _ isIn, valueIs⟩
    obtain ⟨own, _⟩ := entry
    cases own with
    | str text =>
      rw [lookup] at found
      split at found
      · cases found
        exact ⟨_, List.mem_cons_self, rfl⟩
      · exact later found
    | _ => exact later found

private theorem isBounded_value {entries : List (Datum × Datum)} {name : Json} {value : Datum}
    (bounded : (Datum.dict entries).isBounded = true)
    (found : Validation.valueUnder? entries name = some value) : value.isBounded = true := by
  have entryBounded := allEntryLeaves_iff.mp bounded
  have ⟨entry, isEntry, valueIs⟩ : ∃ entry ∈ entries, entry.2 = value := by
    unfold Validation.valueUnder? at found
    split at found
    · exact mem_of_lookup found
    · obtain ⟨entry, isFound, valueIs⟩ := Option.map_eq_some_iff.mp found
      exact ⟨entry, List.mem_of_find?_eq_some isFound, valueIs⟩
  exact valueIs ▸ (entryBounded entry isEntry).2

private theorem isBounded_item {items : List Datum} {item : Datum}
    (bounded : datum.isBounded = true) (itemsAre : Validation.sequenceItems? datum = some items)
    (isItem : item ∈ items) : item.isBounded = true := by
  have ofBytes (content : Bytes) : ∀ item ∈ content.map (fun byte => Datum.int byte.toNat),
      item.isBounded = true := by
    intro item isItem
    obtain ⟨byte, -, rfl⟩ := List.mem_map.mp isItem
    have small := byte.toNat_lt
    exact isBounded_int (by omega)
  cases datum with
  | list own | tuple own =>
    cases itemsAre
    exact allItemLeaves_iff.mp bounded item isItem
  | bytes content | buffer content =>
    cases itemsAre
    exact ofBytes content item isItem
  | _ => cases itemsAre

end Datum

namespace Logical

variable {schema : Json} {datum prepared : Datum} {logical : Logical}

private theorem isBounded_days {day : Date} (real : day.isReal = true) :
    (Datum.int day.daysSinceEpoch).isBounded = true := by
  have range := Date.toOrdinal_range real
  refine Datum.isBounded_int ?_
  simp only [Date.daysSinceEpoch, Calendar.epochOrdinal, Calendar.lastOrdinal] at range ⊢
  omega

private theorem universalSeconds_bounds {moment : DateTime} (real : moment.date.isReal = true)
    (inDay : moment.time.seconds < 86400) :
    -10 ^ 12 < moment.universalSeconds ∧ moment.universalSeconds < 10 ^ 12 := by
  have range := Date.toOrdinal_range real
  simp only [DateTime.universalSeconds, Calendar.lastOrdinal] at range ⊢
  omega

private theorem isBounded_moment {moment : DateTime}
    (bounded : (Datum.dateTime moment).isBounded = true) :
    (Datum.int ((instantOf moment).1 * 1000 + millisOf (instantOf moment).2)).isBounded = true ∧
      (Datum.int ((instantOf moment).1 * 1000000 + (instantOf moment).2)).isBounded = true := by
  obtain ⟨⟨⟨real, inDay⟩, few⟩, zone⟩ : ((moment.date.isReal = true ∧ moment.time.seconds < 86400) ∧
      moment.time.microsecond < 1000000) ∧
      moment.offset.all (fun offset => -86400 < offset && offset < 86400) = true := by
    simpa [Datum.isBounded, Datum.allLeaves, Datum.isBoundedLeaf] using bounded
  have seconds := universalSeconds_bounds real inDay
  have offset : -86400 < moment.offset.getD 0 ∧ moment.offset.getD 0 < 86400 := by
    cases offsetIs : moment.offset with
    | none => decide
    | some offset => simpa [offsetIs] using zone
  rw [instantOf_eq few]
  simp only [millisOf_eq few]
  exact ⟨Datum.isBounded_int (by omega), Datum.isBounded_int (by omega)⟩

private theorem isBounded_clock {time : TimeOfDay} {offset : Option Int}
    (bounded : (Datum.time time offset).isBounded = true) :
    (Datum.int (time.hour * 3600000 + time.minute * 60000 + time.second * 1000
      + millisOf time.microsecond)).isBounded = true ∧
    (Datum.int (time.hour * 3600000000 + time.minute * 60000000 + time.second * 1000000
      + time.microsecond)).isBounded = true := by
  obtain ⟨inDay, few⟩ : time.seconds < 86400 ∧ time.microsecond < 1000000 := by
    simpa [Datum.isBounded, Datum.allLeaves, Datum.isBoundedLeaf] using bounded
  rw [millisOf_eq few]
  simp only [TimeOfDay.seconds] at inDay
  exact ⟨Datum.isBounded_int (by omega), Datum.isBounded_int (by omega)⟩

/-- A bounded value is prepared to a bounded one. -/
theorem isBounded_prepare (bounded : datum.isBounded = true)
    (done : prepare logical datum schema = .ok prepared) : prepared.isBounded = true := by
  unfold prepare at done
  split at done
  · cases done
    exact (isBounded_moment bounded).1
  · cases done
    exact (isBounded_moment bounded).2
  · cases done
    exact isBounded_days bounded
  · cases done
    simp only [Datum.isBounded, Datum.allLeaves, Datum.isBoundedLeaf, Bool.and_eq_true] at bounded
    exact isBounded_days bounded.1.1.1
  · split at done
    · rename_i day isDay
      cases done
      exact isBounded_days (Date.isReal_of_parse? isDay)
    · cases done
  · obtain ⟨content, -, done⟩ := outcome_bind_ok.mp done
    cases done
    rfl
  · obtain ⟨content, -, done⟩ := outcome_bind_ok.mp done
    cases done
    rfl
  · cases done
    rfl
  · cases done
    exact (isBounded_clock bounded).1
  · cases done
    exact (isBounded_clock bounded).2
  · cases done
    exact bounded

private theorem isBounded_prepareFor (bounded : datum.isBounded = true)
    (done : prepareFor schema datum = .ok prepared) : prepared.isBounded = true := by
  obtain ⟨logical, -, done⟩ := outcome_bind_ok.mp done
  cases logical with
  | none =>
    cases done
    exact bounded
  | some logical => exact isBounded_prepare bounded done

end Logical

/-! ### Documents -/

namespace Json

theorem isPrintable_arr {items : List Json} :
    (Json.arr items).isPrintable = true ↔ ∀ item ∈ items, item.isPrintable = true := by
  induction items with
  | nil => simp [isPrintable, Datum.ofJson, Datum.ofJsonItems, Datum.isPrintable, Datum.allLeaves,
      Datum.allItemLeaves]
  | cons item rest ih =>
    rw [List.forall_mem_cons, ← ih]
    exact Bool.and_eq_true _ _ ▸ Iff.rfl

theorem isPrintable_obj {members : Members} :
    (Json.obj members).isPrintable = true ↔ ∀ member ∈ members, member.2.isPrintable = true := by
  induction members with
  | nil => simp [isPrintable, Datum.ofJson, Datum.ofJsonMembers, Datum.isPrintable,
      Datum.allLeaves, Datum.allEntryLeaves]
  | cons member rest ih =>
    obtain ⟨key, value⟩ := member
    rw [List.forall_mem_cons, ← ih]
    exact Bool.and_eq_true _ _ ▸ Iff.rfl

/-- Whether no object of a document has a key twice, and its integers have texts. -/
def Printable (document : Json) : Prop :=
  document.keysDistinct = true ∧ document.isPrintable = true

theorem hereditary_printable : Hereditary Printable where
  bool := fun _ => ⟨rfl, rfl⟩
  str := fun _ => ⟨rfl, rfl⟩
  arr := by
    intro items
    rw [Printable, keysDistinct, itemsDistinct_iff, isPrintable_arr, ← forall₂_and]
    exact Iff.rfl
  obj := by
    intro members
    rw [Printable, keysDistinct, Bool.and_eq_true, decide_eq_true_eq, membersDistinct_iff,
      isPrintable_obj, and_assoc, ← forall₂_and]
    exact Iff.rfl

theorem isPrintable_get? {members : Members} {key : String} {value : Json}
    (printable : (Json.obj members).isPrintable = true)
    (found : Members.get? members key = some value) : value.isPrintable = true :=
  isPrintable_obj.mp printable _ (Members.mem_of_get? found)

private theorem isPrintable_attributeOf {schema value : Json} {key : String}
    (printable : schema.isPrintable = true) (found : attributeOf schema key = .ok value) :
    value.isPrintable = true := by
  cases schema with
  | obj members => exact isPrintable_get? printable (Schema.required_ok.mp found)
  | _ => cases found

private theorem isPrintable_iterate {document item : Json} {items : List Json}
    (printable : document.isPrintable = true) (itemsAre : iterate document = .ok items)
    (isItem : item ∈ items) : item.isPrintable = true := by
  cases document with
  | arr own =>
    cases itemsAre
    exact isPrintable_arr.mp printable item isItem
  | str text | obj members =>
    cases itemsAre
    obtain ⟨_, -, rfl⟩ := List.mem_map.mp isItem
    rfl
  | _ => cases itemsAre

mutual

/-- The values of documents have neither dates nor times. -/
theorem isBounded_ofJson : ∀ document : Json, document.isPrintable = true →
    (Datum.ofJson document).isBounded = true
  | .null, _ | .bool _, _ | .float _, _ | .str _, _ => rfl
  | .int _, printable => printable
  | .arr items, printable =>
    Datum.allItemLeaves_iff.mpr (isBounded_ofJsonItems items (isPrintable_arr.mp printable))
  | .obj members, printable =>
    Datum.allEntryLeaves_iff.mpr (isBounded_ofJsonMembers members (isPrintable_obj.mp printable))

theorem isBounded_ofJsonItems : ∀ items : List Json, (∀ item ∈ items, item.isPrintable = true) →
    ∀ datum ∈ Datum.ofJsonItems items, datum.isBounded = true
  | [], _ => List.forall_mem_nil _
  | item :: rest, printable => by
    rw [List.forall_mem_cons] at printable
    rw [Datum.ofJsonItems, List.forall_mem_cons]
    exact ⟨isBounded_ofJson item printable.1, isBounded_ofJsonItems rest printable.2⟩

theorem isBounded_ofJsonMembers : ∀ members : Members,
    (∀ member ∈ members, member.2.isPrintable = true) →
    ∀ entry ∈ Datum.ofJsonMembers members, entry.1.isBounded = true ∧ entry.2.isBounded = true
  | [], _ => List.forall_mem_nil _
  | (_, value) :: rest, printable => by
    rw [List.forall_mem_cons] at printable
    rw [Datum.ofJsonMembers, List.forall_mem_cons]
    exact ⟨⟨rfl, isBounded_ofJson value printable.1⟩, isBounded_ofJsonMembers rest printable.2⟩

end

end Json

namespace Validation

variable {registry : Registry} {datum value : Datum} {schema node field : Json} {kind : Kind}

/-! ### What a check meets -/

/-- A bounded value and a printable node lead to such values and nodes only. -/
theorem Inspects.bounded (inspects : Inspects registry datum schema kind value node)
    (registryPrintable : (Json.obj registry).isPrintable = true)
    (bounded : datum.isBounded = true) (printable : schema.isPrintable = true) :
    value.isBounded = true ∧ node.isPrintable = true := by
  cases inspects with
  | item itemsAre isItem nodeIs =>
    exact ⟨Datum.isBounded_item bounded itemsAre isItem,
      Json.isPrintable_attributeOf printable nodeIs⟩
  | entry datumIs isEntry nodeIs =>
    subst datumIs
    exact ⟨(Datum.allEntryLeaves_iff.mp bounded _ isEntry).2,
      Json.isPrintable_attributeOf printable nodeIs⟩
  | branch _ branchesAre isBranch =>
    exact ⟨bounded, Json.isPrintable_iterate printable branchesAre isBranch⟩
  | chosen _ datumIs branchesAre isBranch =>
    subst datumIs
    exact ⟨Datum.allItemLeaves_iff.mp bounded _ (List.mem_cons_of_mem _ List.mem_cons_self),
      Json.isPrintable_iterate printable branchesAre isBranch⟩
  | @field _ entries _ node _ view _ datumIs fieldsAre nodesAre isNode viewIs =>
    subst datumIs
    have nodePrintable := Json.isPrintable_iterate
      (Json.isPrintable_attributeOf printable fieldsAre) nodesAre isNode
    cases node with
    | obj members =>
      obtain ⟨-, typeIs, defaultIs⟩ := fieldView_ok viewIs
      refine ⟨?_, Json.isPrintable_get? nodePrintable (Schema.required_ok.mp typeIs)⟩
      unfold fieldValue
      split
      · rename_i found
        exact Datum.isBounded_value bounded found
      · refine Json.isBounded_ofJson _ ?_
        rw [defaultIs]
        cases found : Members.get? members "default" with
        | none => rfl
        | some default => exact Json.isPrintable_get? nodePrintable found
    | _ => cases viewIs
  | definition found => exact ⟨bounded, Json.isPrintable_get? registryPrintable found⟩

/-! ### Refusals without words -/

/-- Checks a value as `check` does, but does not put refusals into words. -/
def checkUnworded (registry : Registry) (strict : Bool) : Nat → Checker
  | 0, _, _, _ => .error .tooDeep
  | depth + 1, given, schema, field => do
    let type ← Schema.typeOf schema
    let datum ← Logical.prepareFor schema given
    let kind ← Kind.ofType type
    let passed ← checkKind registry strict (checkUnworded registry strict depth) schema
      field datum kind
    if strict && !passed then throw (.refused [⟨datum, schema, field⟩])
    return passed

/-- A lenient check refuses nothing. -/
theorem check_lenient (registry : Registry) (depth : Nat) :
    check registry false depth = checkUnworded registry false depth := by
  induction depth with
  | zero => rfl
  | succ depth ih =>
    funext given schema field
    simp only [check, checkUnworded, ih, Bool.false_and, Bool.false_eq_true, if_false]

/-- Where all that is met can be put into words, refusals are the same with and without. -/
theorem check_eq_unworded (registryPrintable : (Json.obj registry).isPrintable = true)
    (strict : Bool) (depth : Nat) (bounded : datum.isBounded = true)
    (printable : schema.isPrintable = true) (fieldPrintable : field.isPrintable = true) :
    check registry strict depth datum schema field =
      checkUnworded registry strict depth datum schema field := by
  induction depth generalizing datum schema field with
  | zero => rfl
  | succ depth ih =>
    have answering := answering_eq strict
    refine answering.after (.typeOf schema) fun type _ =>
      answering.after (.prepareFor schema datum) fun prepared isPrepared =>
        answering.after (.ofType type) fun kind _ => ?_
    have preparedBounded := Logical.isBounded_prepareFor bounded isPrepared
    have worded : Refusal.error ⟨prepared, schema, field⟩ =
        .refused [⟨prepared, schema, field⟩] := by
      simp [Refusal.error, Refusal.isPrintable, Datum.isPrintable_of_isBounded preparedBounded,
        printable, fieldPrintable]
    have inner : checkKind registry strict (check registry strict depth) schema field
      prepared kind =
        checkKind registry strict (checkUnworded registry strict depth) schema field
          prepared kind := by
      refine answering.checkKind_of_parts fun value node inspects place placeIs => ?_
      have parts := inspects.bounded registryPrintable preparedBounded printable
      refine ih parts.1 parts.2 ?_
      rcases placeIs with rfl | ⟨text, rfl⟩
      · exact fieldPrintable
      · rfl
    rw [inner, worded]

end Validation

end Avro
