import Avro.Proofs.Parts

/-!
Contract: what a schema accepts is written.

Owns: `Completes`, the steps of writing that succeed after every output, `Site.ready`, the
conditions on a site under which acceptance is enough for writing, and that a value which is
accepted, and whose sites are ready, is written.

Acceptance and writing go through a schema on their own. They differ in what may be absent: a check
takes a missing field as null, the writer looks for the word `null` in the type of the field. And
they differ in unions: a check stops at the first branch that accepts the value, the writer goes on
behind a record.
-/

namespace Avro

open Datum (sizeLimit)
open Encode (partsOfKind)
open Members (get? has)
open Schema (attributeOf documentItemAt isSymbol iterate kindOf mentions qualifiedName required)

open BinaryOutput

variable {document place schema branch : Json} {depth index : Nat} {registry : Registry}
  {datum given : Datum} {branches : List Json} {members : Members} {name : Json}

/-! ### The place of a value -/

private theorem eq_wrongType_of_mentions {word : String} {failure : Error}
    (failed : mentions document word = .error failure) : failure = .wrongType [] := by
  cases document with
  | obj members => cases failed
  | arr items => cases failed
  | str text => cases failed
  | _ =>
    cases failed
    rfl

/-- Where the namespace does not matter, or the name can be searched for a dot, there is a full
name. -/
theorem exists_qualifiedName (place : Json) (nameIs : get? members "name" = some name)
    (full : ((get? members "namespace").getD place).truthy = false ∨
      ∃ dotted, mentions name "." = .ok dotted) :
    ∃ found, qualifiedName (.obj members) place = .ok found := by
  simp only [qualifiedName, nameIs]
  rcases full with isFalse | ⟨dotted, mentioned⟩
  · rw [isFalse]
    exact ⟨_, rfl⟩
  · rw [mentioned]
    split
    · exact ⟨_, rfl⟩
    · cases dotted <;> exact ⟨_, rfl⟩

/-- A name is full at one place if it is at another, unless only the first of them makes it a matter
of namespaces. -/
theorem qualifiedName_place (schema : Json) {other : Json}
    (implied : other.truthy = true → place.truthy = true) :
    qualifiedName schema place = .error (.wrongType []) ∨
      (∃ failure, qualifiedName schema place = .error failure ∧
        qualifiedName schema other = .error failure) ∨
      ∃ first second, qualifiedName schema place = .ok first ∧
        qualifiedName schema other = .ok second := by
  cases schema with
  | obj members =>
    cases nameIs : get? members "name" with
    | none => exact Or.inr (Or.inl ⟨.nameMissing (.obj members), by simp [qualifiedName, nameIs],
        by simp [qualifiedName, nameIs]⟩)
    | some name =>
      have both (full : ∀ spot, spot = place ∨ spot = other →
          ((get? members "namespace").getD spot).truthy = false ∨
          ∃ dotted, mentions name "." = .ok dotted) :
          ∃ first second, qualifiedName (.obj members) place = .ok first ∧
            qualifiedName (.obj members) other = .ok second := by
        obtain ⟨first, firstIs⟩ := exists_qualifiedName place nameIs (full place (Or.inl rfl))
        obtain ⟨second, secondIs⟩ := exists_qualifiedName other nameIs (full other (Or.inr rfl))
        exact ⟨first, second, firstIs, secondIs⟩
      cases mentioned : mentions name "." with
      | ok dotted => exact Or.inr (Or.inr (both fun _ _ => Or.inr ⟨dotted, mentioned⟩))
      | error failure =>
        obtain rfl := eq_wrongType_of_mentions mentioned
        cases isTrue : ((get? members "namespace").getD place).truthy with
        | true => exact Or.inl (by simp only [qualifiedName, nameIs, isTrue, mentioned]; rfl)
        | false =>
          refine Or.inr (Or.inr (both ?_))
          rintro spot (rfl | rfl)
          · exact Or.inl isTrue
          · cases spaceIs : get? members "namespace" with
            | some space =>
              rw [spaceIs] at isTrue
              exact Or.inl isTrue
            | none =>
              rw [spaceIs] at isTrue
              cases otherTrue : spot.truthy with
              | false => exact Or.inl otherTrue
              | true => exact absurd (isTrue ▸ implied otherTrue : false = true) Bool.false_ne_true
  | _ => exact Or.inl rfl

namespace Validation

variable {checkItem : Checker}
variable {place other : Json}

private theorem checkRecord_place
    (related : ∀ datum schema (first second : String), first ≠ "" →
      FailsOr (.wrongType []) (checkItem datum schema (.str first))
        (checkItem datum schema (.str second)))
    (schema : Json) (implied : other.truthy = true → place.truthy = true) (datum : Datum) :
    FailsOr (.wrongType []) (checkRecord checkItem schema place datum)
      (checkRecord checkItem schema other datum) := by
  unfold checkRecord
  rcases qualifiedName_place schema implied with failed | ⟨failure, failed, failedAlike⟩ |
    ⟨first, second, firstIs, secondIs⟩
  · rw [failed]
    exact Or.inl rfl
  · rw [failed, failedAlike]
    exact FailsOr.refl _
  · rw [firstIs, secondIs, outcome_ok_bind, outcome_ok_bind]
    cases datum with
    | dict entries =>
      refine FailsOr.bind (FailsOr.refl _) fun fields =>
        FailsOr.bind (FailsOr.refl _) fun nodes => ?_
      have answering : Answering false false (FailsOr (.wrongType [])) :=
        answering_failsOr (by simp) false
      exact answering.allPass fun node _ =>
        FailsOr.bind (FailsOr.refl _) fun view => related _ _ _ _ (by simp)
    | _ => exact FailsOr.refl _

/-- The answer of a check does not depend on the place, which can only make it fail where a name is
looked into. -/
theorem check_place (registry : Registry) (depth : Nat) (datum : Datum) (schema : Json)
    (implied : other.truthy = true → place.truthy = true) :
    FailsOr (.wrongType []) (check registry false depth datum schema place)
      (check registry false depth datum schema other) := by
  induction depth generalizing datum schema place other with
  | zero => exact FailsOr.refl _
  | succ depth ih =>
    rw [check, check]
    refine FailsOr.bind (FailsOr.refl _) fun type =>
      FailsOr.bind (FailsOr.refl _) fun prepared => ?_
    refine FailsOr.bind (FailsOr.refl _) fun kind => FailsOr.bind ?_ fun passed => FailsOr.refl _
    have answering : Answering false false (FailsOr (.wrongType [])) :=
      answering_failsOr (by simp) false
    refine answering.checkKind (fun value node _ => ih value node implied)
      (fun _ => checkRecord_place ?_ schema implied prepared) fun name _ =>
        answering.named fun value node _ => ih value node implied
    intro datum schema first second notEmpty
    exact ih datum schema fun _ => by simpa [Json.truthy] using notEmpty

private theorem check_null {registry : Registry} {depth : Nat} {datum : Datum} {schema : Json}
    {answer : Bool} (answered : check registry false depth datum schema place = .ok answer) :
    check registry false depth datum schema .null = .ok answer :=
  (check_place registry depth datum schema (by simp [Json.truthy])).ok answered

end Validation

/-! ### Steps that succeed -/

def Completes (step : WriteM BinaryOutput Unit) : Prop :=
  ∀ output, ∃ after, step output = .ok () after

namespace Completes

variable {α : Type}
variable {content : Bytes} {datum : Datum}

theorem put (bytes : Bytes) : Completes (BinaryOutput.put bytes) :=
  fun output => ⟨output.append bytes, rfl⟩

theorem pure : Completes (Pure.pure ()) := fun output => ⟨output, rfl⟩

theorem bind {first next : WriteM BinaryOutput Unit} (firstCompletes : Completes first)
    (nextCompletes : Completes next) : Completes (first >>= fun _ => next) := by
  intro output
  obtain ⟨between, started⟩ := firstCompletes output
  obtain ⟨after, done⟩ := nextCompletes between
  exact ⟨after, step_bind_ok.mpr ⟨(), between, started, done⟩⟩

theorem lift {outcome : Outcome α} {value : α} {next : α → WriteM BinaryOutput Unit}
    (given : outcome = .ok value) (nextCompletes : Completes (next value)) :
    Completes (WriteM.lift outcome >>= next) := by
  subst given
  exact nextCompletes

theorem size {datum : Datum} {count : Nat} {next : Nat → WriteM BinaryOutput Unit}
    (sizeIs : datum.size? = some count) (small : count < sizeLimit)
    (nextCompletes : Completes (next count)) : Completes (WriteM.size datum >>= next) := by
  intro output
  obtain ⟨after, done⟩ := nextCompletes output
  exact ⟨after, step_bind_ok.mpr ⟨count, output, size_ok.mpr ⟨sizeIs, small, rfl⟩, done⟩⟩

theorem raw (contentIs : datum.byteContent? = some content) (small : content.length < sizeLimit) :
    Completes (writeRaw datum) := by
  have writes : writeRaw datum = BinaryOutput.put content := by simp [writeRaw, contentIs, small]
  rw [writes]
  exact put content

theorem sized (contentIs : datum.byteContent? = some content) (small : content.length < sizeLimit) :
    Completes (writeSized datum) := by
  have sizeIs : datum.size? = some content.length := by
    cases datum <;> simp_all [Datum.byteContent?, Datum.size?]
  exact size sizeIs small ((put _).bind (raw contentIs small))

end Completes

/-! ### Sites that are ready -/

namespace Encode

def fits (count : Nat) : Bool := count < sizeLimit

/-- Whether the bytes of a text are of a size that a value can have. -/
def textFits : Datum → Bool
  | .str text => fits (Text.encodeUtf8 text).length
  | _ => true

/-- Whether the type of a field mentions the null type: as a key, as an item, or within a text. -/
def mentionsNull (members : List (String × Json)) : Bool :=
  match get? members "type" with
  | some type =>
    match mentions type "null" with
    | .ok answer => answer
    | .error _ => false
  | none => false

/-- Whether a field is given among the entries of a value, has a default, or mentions the null
type. -/
def isProvided (entries : List (Datum × Datum)) : Json → Bool
  | .obj members =>
    match isAbsent ((get? members "name").getD .null) (.dict entries) with
    | .ok absent => !absent || has members "default" || mentionsNull members
    | .error _ => false
  | _ => false

/-- A pair names the branch of a union that it is written in. -/
def choosesByName : Datum → Bool
  | .tuple _ => true
  | _ => false

/-- Whether the branches of a union answer if they accept a value, one after the other, up to the
first one that is chosen whatever follows it: a branch that accepts the value and is no record. -/
def branchesAnswer (accepts : Json → Outcome Bool) : List Json → Bool
  | [] => true
  | branch :: rest =>
    match accepts branch, Schema.isRecord branch with
    | .ok true, .ok false => true
    | .ok _, _ => branchesAnswer accepts rest
    | .error _, _ => false

def fitsSingle (datum : Datum) : Bool :=
  match doubleOf datum with
  | .ok number => number.toBinary32?.isSome
  | .error _ => false

def fitsDouble (datum : Datum) : Bool :=
  match doubleOf datum with
  | .ok _ => true
  | .error _ => false

/-- What writing needs of a prepared value of a kind, besides its acceptance. -/
def readyKind (registry : Registry) (depth : Nat) (schema : Json) (datum : Datum) : Kind → Bool
  | .string => textFits datum
  | .bytes | .fixed => datum.byteContent?.all fun content => fits content.length
  | .float => fitsSingle datum
  | .double => fitsDouble datum
  | .enum =>
    match attributeOf schema "symbols" with
    | .ok (.arr items) => fits items.length
    | .ok (.str text) => fits text.length
    | _ => false
  | .array => datum.size?.all fits
  | .map =>
    match datum with
    | .dict entries => fits entries.length && entries.all fun entry => textFits entry.1
    | _ => true
  | .union | .errorUnion =>
    match schema with
    | .obj _ => false
    | _ =>
      match iterate schema with
      | .ok branches =>
        fits branches.length && (choosesByName datum ||
          branchesAnswer (fun branch => Validation.check registry false depth datum branch .null)
            branches)
      | .error _ => true
  | .record | .error =>
    match Decode.fieldsOf schema, datum with
    | .ok nodes, .dict entries => nodes.all (isProvided entries)
    | _, _ => true
  | .request => false
  | _ => true

/-- What writing needs of a site, besides its acceptance: the sizes and numbers of its value can be
written, every field of a record is provided, the branches of a union answer up to the one that is
chosen. A reference has no logical type of its own. -/
def Site.ready (registry : Registry) (depth : Nat) (site : Site) : Bool :=
  match kindOf site.node, Logical.prepareFor site.node site.value with
  | .ok (.named _), .ok _ => site.isPlain
  | .ok kind, .ok datum => readyKind registry depth site.node datum kind
  | _, _ => true

/-- Whether sites are met at most a number of levels below a site. -/
def nestsWithin (registry : Registry) (depth : Nat) : Nat → Site → Bool
  | 0, _ => false
  | levels + 1, site => (parts registry depth site).all (nestsWithin registry depth levels)

end Encode

/-! ### Symbols -/

private theorem exists_place_of_occursIn {word text : List Char}
    (occurs : Text.occursIn word text = true) :
    ∃ place, place < text.length + 1 ∧ word.isPrefixOf (text.drop place) = true := by
  induction text with
  | nil =>
    refine ⟨0, by simp, ?_⟩
    simp only [Text.occursIn, List.isEmpty_iff] at occurs
    simp [occurs]
  | cons character rest ih =>
    rw [Text.occursIn, Bool.or_eq_true] at occurs
    rcases occurs with starts | later
    · exact ⟨0, by simp, starts⟩
    · obtain ⟨place, inRange, starts⟩ := ih later
      exact ⟨place + 1, by simpa using inRange, starts⟩

private theorem foundPlace_of_fits {place : Option Nat} {bound : Nat}
    (isPlace : place.isSome = true) (inRange : ∀ index, place = some index → index ≤ bound)
    (bounded : bound < sizeLimit) : ∃ index, Schema.foundPlace place = .ok index := by
  obtain ⟨index, rfl⟩ := Option.isSome_iff_exists.mp isPlace
  have small : index < sizeLimit := by
    have := inRange index rfl
    omega
  exact ⟨index, by simp [Schema.foundPlace, small]⟩

/-- An accepted symbol has a place, unless the symbols are the keys of an object. -/
theorem symbolIndex_of_isSymbol {symbols : Json}
    (symbolsAre : attributeOf schema "symbols" = .ok symbols)
    (accepted : isSymbol symbols datum = .ok true)
    (ready : Encode.readyKind registry depth schema datum .enum = true) :
    ∃ index, Schema.symbolIndex symbols datum = .ok index := by
  simp only [Encode.readyKind, symbolsAre] at ready
  cases symbols with
  | arr items =>
    have isFound : (items.findIdx? datum.sameAsJson).isSome = true := by
      rw [List.findIdx?_isSome]
      exact Except.ok.inj accepted
    refine foundPlace_of_fits isFound (fun index found => ?_) (of_decide_eq_true ready)
    obtain ⟨inRange, -, -⟩ := List.findIdx?_eq_some_iff_getElem.mp found
    omega
  | str text =>
    cases datum with
    | str word =>
      obtain ⟨place, inRange, starts⟩ := exists_place_of_occursIn (Except.ok.inj accepted)
      rw [String.length_toList] at inRange
      refine foundPlace_of_fits ?_ (fun index found => ?_) (of_decide_eq_true ready)
      · rw [List.find?_isSome]
        exact ⟨place, List.mem_range.mpr inRange, starts⟩
      · obtain ⟨-, inText, -⟩ := List.find?_range_eq_some.mp found
        have := List.mem_range.mp inText
        omega
    | _ => simp [isSymbol] at accepted
  | _ => exact absurd ready Bool.false_ne_true

/-! ### Collections and records -/

section Parts

variable {write : Encode.Writer BinaryOutput} {schema field node : Json}
variable {items : List Datum} {datum : Datum} {entries : List (Datum × Datum)}

private theorem completes_items (complete : ∀ item ∈ items, Completes (write item node field)) :
    Completes (Encode.writeItems write node field items) := by
  induction items with
  | nil => exact Completes.pure
  | cons item rest ih =>
    rw [List.forall_mem_cons] at complete
    exact complete.1.bind (Completes.pure.bind (ih complete.2))

theorem completes_text (isText : Validation.isText datum = true)
    (fits : Encode.textFits datum = true) : Completes (writeString datum) := by
  cases datum with
  | str text => exact Completes.sized rfl (of_decide_eq_true fits)
  | _ => exact absurd isText Bool.false_ne_true

private theorem completes_entries (texts : ∀ entry ∈ entries, Validation.isText entry.1 = true)
    (fit : ∀ entry ∈ entries, Encode.textFits entry.1 = true)
    (complete : ∀ entry ∈ entries, Completes (write entry.2 node field)) :
    Completes (Encode.writeEntries write node field entries) := by
  induction entries with
  | nil => exact Completes.pure
  | cons entry rest ih =>
    rw [List.forall_mem_cons] at texts fit complete
    exact (completes_text texts.1 fit.1).bind (complete.1.bind (ih texts.2 fit.2 complete.2))

private theorem completes_array (itemsAre : datum.iterated? = some items)
    (sizeIs : datum.size? = some items.length)
    (small : items.length < sizeLimit)
    (complete : ∀ item ∈ items, ∃ node, attributeOf schema "items" = .ok node ∧
      Completes (write item node field)) :
    Completes (Encode.writeArray write schema field datum) := by
  refine Completes.pure.bind (Completes.size sizeIs small ?_)
  cases items with
  | nil => exact Completes.put _
  | cons item rest =>
    obtain ⟨node, nodeIs, -⟩ := complete item (List.mem_cons_self ..)
    rw [if_pos (by simp), itemsAre]
    refine (Completes.put _).bind (Completes.lift nodeIs (Completes.bind ?_ (Completes.put _)))
    apply completes_items
    intro part isPart
    obtain ⟨found, foundIs, partCompletes⟩ := complete part isPart
    rw [nodeIs] at foundIs
    cases foundIs
    exact partCompletes

private theorem completes_map (texts : ∀ entry ∈ entries, Validation.isText entry.1 = true)
    (fit : ∀ entry ∈ entries, Encode.textFits entry.1 = true) (small : entries.length < sizeLimit)
    (complete : ∀ entry ∈ entries, ∃ node, attributeOf schema "values" = .ok node ∧
      Completes (write entry.2 node field)) :
    Completes (Encode.writeMap write schema field (.dict entries)) := by
  refine Completes.pure.bind (Completes.size rfl small ?_)
  cases entries with
  | nil => exact Completes.put _
  | cons entry rest =>
    obtain ⟨node, nodeIs, -⟩ := complete entry (List.mem_cons_self ..)
    rw [if_pos (by simp)]
    refine (Completes.put _).bind (Completes.lift nodeIs (Completes.bind ?_ (Completes.put _)))
    apply completes_entries texts fit
    intro part isPart
    obtain ⟨found, foundIs, partCompletes⟩ := complete part isPart
    rw [nodeIs] at foundIs
    cases foundIs
    exact partCompletes

private theorem checkPresence_of_isProvided {type : Json} (nameIs : get? members "name" = some name)
    (typeIs : get? members "type" = some type)
    (provided : Encode.isProvided entries (.obj members) = true) :
    Encode.checkPresence members name (.dict entries) = .ok () := by
  simp only [Encode.isProvided, nameIs, Option.getD_some] at provided
  unfold Encode.checkPresence
  cases absentIs : Encode.isAbsent name (.dict entries) with
  | error failure => simp [absentIs] at provided
  | ok absent =>
    simp only [absentIs, Encode.mentionsNull, typeIs] at provided
    rw [outcome_ok_bind]
    cases absent with
    | false => rfl
    | true =>
      cases hasDefault : has members "default" with
      | true => rfl
      | false =>
        cases mentioned : mentions type "null" with
        | error failure => simp [hasDefault, mentioned] at provided
        | ok answer =>
          simp only [hasDefault, mentioned, Bool.not_true, Bool.false_or] at provided
          have typeFound : required members "type" = .ok type := by simp [required, typeIs]
          simp [typeFound, mentioned, provided]

private theorem completes_fields {nodes : List Json}
    (provided : ∀ node ∈ nodes, Encode.isProvided entries node = true)
    (complete : ∀ node ∈ nodes, ∃ view, Validation.fieldView node = .ok view ∧
      Completes (write (Validation.fieldValue entries view.name view.default) view.type
        view.name)) :
    Completes (Encode.writeFields write (.dict entries) nodes) := by
  induction nodes with
  | nil => exact Completes.pure
  | cons node rest ih =>
    rw [List.forall_mem_cons] at provided complete
    obtain ⟨view, viewIs, valueCompletes⟩ := complete.1
    cases node with
    | obj members =>
      obtain ⟨nameIs, typeIs, defaultIs⟩ := fieldView_ok viewIs
      have present := checkPresence_of_isProvided (Schema.required_ok.mp nameIs)
        (Schema.required_ok.mp typeIs) provided.1
      refine Completes.lift nameIs (Completes.lift present ?_)
      rw [defaultIs] at valueCompletes
      exact Completes.lift typeIs (valueCompletes.bind (ih provided.2 complete.2))
    | _ => simp [Validation.fieldView] at viewIs

end Parts

/-! ### Unions -/

/-- A search succeeds if the branches answer and one of them does not decline the value. -/
theorem search_of_answers {accepts : Json → Outcome Bool} {best : Option Branch.Candidate}
    (answer : Encode.branchesAnswer accepts branches = true)
    (shared : ∀ branch ∈ branches, accepts branch = .ok true →
      ∃ isRecord, Schema.isRecord branch = .ok isRecord ∧
        (isRecord = true → ∃ count, Branch.sharedFields branch datum = .ok count))
    (found : best.isSome = true ∨ ∃ branch ∈ branches, accepts branch ≠ .ok false) :
    ∃ place, Branch.search accepts datum best index branches = .ok (some place) := by
  induction branches generalizing best index with
  | nil =>
    obtain ⟨candidate, rfl⟩ := Option.isSome_iff_exists.mp (found.resolve_right (by simp))
    exact ⟨candidate.index, rfl⟩
  | cons branch rest ih =>
    rw [List.forall_mem_cons] at shared
    rw [Encode.branchesAnswer] at answer
    cases acceptedIs : accepts branch with
    | error failure => simp [acceptedIs] at answer
    | ok accepted =>
      rw [Branch.search, acceptedIs, outcome_ok_bind]
      cases accepted with
      | false =>
        simp only [acceptedIs] at answer
        refine ih answer shared.2 (found.imp_right ?_)
        rintro ⟨other, isBranch, notDeclined⟩
        rcases List.mem_cons.mp isBranch with rfl | isLater
        · exact absurd acceptedIs notDeclined
        · exact ⟨other, isLater, notDeclined⟩
      | true =>
        obtain ⟨isRecord, recordIs, counted⟩ := shared.1 acceptedIs
        rw [if_pos rfl, recordIs, outcome_ok_bind]
        cases isRecord with
        | false => exact ⟨index, rfl⟩
        | true =>
          obtain ⟨count, countIs⟩ := counted rfl
          rw [if_pos rfl, countIs, outcome_ok_bind]
          simp only [acceptedIs, recordIs] at answer
          refine ih answer shared.2 (Or.inl ?_)
          cases best with
          | none => rfl
          | some candidate => by_cases better : candidate.shared < count <;> simp [better]

private theorem exists_mapM {α β : Type} {form : α → Outcome β} {items : List α}
    (formed : ∀ item ∈ items, ∃ value, form item = .ok value) :
    ∃ values, items.mapM form = .ok values := by
  induction items with
  | nil => exact ⟨[], rfl⟩
  | cons item rest ih =>
    rw [List.forall_mem_cons] at formed
    obtain ⟨value, valueIs⟩ := formed.1
    obtain ⟨values, valuesAre⟩ := ih formed.2
    refine ⟨value :: values, ?_⟩
    rw [List.mapM_cons, valueIs, outcome_ok_bind, valuesAre]
    rfl

private theorem eq_str_of_same_str {text : String} (same : document.same (.str text) = true) :
    document = .str text := by
  cases document with
  | str found =>
    rw [Json.same, beq_iff_eq] at same
    rw [same]
  | float value => cases whole : value.toInt? <;> simp [Json.same, Json.integral?, whole] at same
  | _ => simp [Json.same, Json.integral?] at same

private theorem sharedFields_of_accepted {level : Nat}
    (valid : Validation.check registry false level datum branch place = .ok true) :
    ∃ isRecord, Schema.isRecord branch = .ok isRecord ∧
      (isRecord = true → ∃ count, Branch.sharedFields branch datum = .ok count) := by
  obtain ⟨below, kind, prepared, kindIs, -, valid⟩ := check_prepared_ok valid
  obtain ⟨type, typeIs, ofTypeIs⟩ := kindOf_ok kindIs
  refine ⟨type.same (.str "record"), by simp [Schema.isRecord, typeIs], fun isRecord => ?_⟩
  rw [eq_str_of_same_str isRecord] at ofTypeIs
  cases ofTypeIs
  obtain ⟨name, -, valid⟩ := outcome_bind_ok.mp valid
  cases prepared with
  | dict entries =>
    obtain ⟨fields, fieldsAre, valid⟩ := outcome_bind_ok.mp valid
    obtain ⟨nodes, nodesAre, valid⟩ := outcome_bind_ok.mp valid
    have named : ∀ node ∈ nodes, ∃ found, attributeOf node "name" = .ok found := by
      intro node isNode
      obtain ⟨view, viewIs, -⟩ := outcome_bind_ok.mp (allPass_ok.mp valid node isNode)
      exact ⟨view.name, (attributes_of_fieldView viewIs).2⟩
    obtain ⟨names, namesAre⟩ := exists_mapM named
    simp only [Branch.sharedFields, fieldsAre, nodesAre, namesAre, outcome_ok_bind]
    cases datum <;> exact ⟨_, rfl⟩
  | _ => cases valid

private theorem documentItemAt_of_iterate (branchesAre : iterate schema = .ok branches)
    (notObject : ∀ members, schema ≠ .obj members) (branchAt : branches[index]? = some branch)
    (small : index < sizeLimit) : documentItemAt schema index = .ok branch := by
  cases schema with
  | arr items =>
    cases branchesAre
    exact itemAt_ok.mpr ⟨small, branchAt⟩
  | str text =>
    cases branchesAre
    rw [List.getElem?_map] at branchAt
    obtain ⟨character, characterAt, rfl⟩ := Option.map_eq_some_iff.mp branchAt
    exact outcome_bind_ok.mpr ⟨character, itemAt_ok.mpr ⟨small, characterAt⟩, rfl⟩
  | obj members => exact absurd rfl (notObject members)
  | _ => cases branchesAre

private theorem firstPass_true {test : Json → Outcome Bool} {refusals found : List Refusal}
    (done : Validation.firstPass test refusals branches = .ok (true, found)) :
    ∃ branch ∈ branches, test branch = .ok true := by
  induction branches generalizing refusals with
  | nil => cases done
  | cons branch rest ih =>
    have later {others : List Refusal}
      (restDone : Validation.firstPass test others rest = .ok (true, found)) :
        ∃ other ∈ branch :: rest, test other = .ok true := by
      obtain ⟨other, isOther, passes⟩ := ih restDone
      exact ⟨other, List.mem_cons_of_mem _ isOther, passes⟩
    unfold Validation.firstPass at done
    split at done
    · exact ⟨branch, List.mem_cons_self .., by assumption⟩
    · exact later done
    · exact later done
    · cases done

/-- The writer chooses a branch for an accepted value if the branches answer. -/
theorem exists_choice {below : Nat}
    (valid : Validation.checkUnion false (Validation.check registry false below) schema place
      datum = .ok true)
    (branchesAre : iterate schema = .ok branches) (notObject : ∀ members, schema ≠ .obj members)
    (fit : branches.length < sizeLimit) (answer : (∀ items, datum ≠ .tuple items) →
      Encode.branchesAnswer (fun branch => Validation.check registry false depth datum branch .null)
        branches = true) :
    ∃ index value branch, Branch.choose registry depth schema .null datum = .ok (index, value) ∧
      documentItemAt schema index = .ok branch := by
  have branchAt {index : Nat} {branch : Json} (isAt : branches[index]? = some branch) :
      documentItemAt schema index = .ok branch := by
    obtain ⟨inRange, -⟩ := List.getElem?_eq_some_iff.mp isAt
    exact documentItemAt_of_iterate branchesAre notObject isAt (by omega)
  unfold Validation.checkUnion at valid
  split at valid
  · rename_i name value
    rw [branchesAre, outcome_ok_bind] at valid
    obtain ⟨found, foundIs, valid⟩ := outcome_bind_ok.mp valid
    cases found with
    | none => cases valid
    | some chosen =>
      obtain ⟨index, branch⟩ := chosen
      refine ⟨index, value, branch, ?_, branchAt (findBranch_ok foundIs)⟩
      simp only [Branch.choose, branchesAre, foundIs, outcome_ok_bind]
      rfl
  · cases valid
  · rename_i notPair notTuple
    rw [branchesAre, outcome_ok_bind] at valid
    obtain ⟨⟨passed, refusals⟩, passes, valid⟩ := outcome_bind_ok.mp valid
    have passedIs : passed = true := by simpa using valid
    subst passedIs
    obtain ⟨branch, isBranch, accepted⟩ := firstPass_true passes
    -- The branch gives one answer at all depths and places.
    have notDeclined : Validation.check registry false depth datum branch .null ≠ .ok false := by
      intro declined
      have atOne := check_of_le (Validation.check_null accepted) (Nat.le_max_left below depth)
      have atOther := check_of_le declined (Nat.le_max_right below depth)
      rw [atOne] at atOther
      cases atOther
    obtain ⟨index, found⟩ : ∃ index,
      Branch.search (fun other => Validation.check registry false depth datum other .null)
        datum none 0 branches = .ok (some index) :=
      search_of_answers (answer notTuple)
        (fun other _ otherAccepted => sharedFields_of_accepted otherAccepted)
        (Or.inr ⟨branch, isBranch, notDeclined⟩)
    rcases search_ok found with before | ⟨offset, other, otherAt, indexIs, -⟩
    · cases before
    · rw [Nat.zero_add] at indexIs
      subst indexIs
      refine ⟨index, datum, other, ?_, branchAt otherAt⟩
      rw [Branch.choose, branchesAre, outcome_ok_bind]
      split
      · exact absurd rfl (notPair _ _)
      · exact absurd rfl (notTuple _)
      · rw [found]
        rfl

/-! ### Values -/

/-- Some check accepts the value of the site, whatever its depth and place. -/
def Accepted (registry : Registry) (site : Encode.Site) : Prop :=
  ∃ level place, Validation.check registry false level site.value site.node place = .ok true

section Values

variable {registry : Registry} {depth below : Nat} {schema place field : Json} {given datum : Datum}
  {kind : Kind}

section

variable
  (valid : Validation.checkKind registry false (Validation.check registry false below) schema place
    datum kind = .ok true)
include valid

theorem accepted_part {part : Encode.Site} (passedOn : kind.isBuiltIn = false → datum = given)
    (isPart : part ∈ partsOfKind registry depth ⟨schema, given⟩ datum kind) :
    Accepted registry part := by
  have branchAccepted (valid : Validation.checkUnion false (Validation.check registry false below)
    schema place datum = .ok true)
      (isPart : part ∈ partsOfKind registry depth ⟨schema, given⟩ datum .union) :
      Accepted registry part := by
    simp only [partsOfKind] at isPart
    split at isPart
    · rename_i index value chosen
      split at isPart
      · rename_i branch branchIs
        rw [List.mem_singleton.mp isPart]
        exact choose_accepts valid chosen branchIs
      · cases isPart
    · cases isPart
  have fieldAccepted (valid : Validation.checkRecord (Validation.check registry false below) schema
    place datum = .ok true)
      (isPart : part ∈ partsOfKind registry depth ⟨schema, given⟩ datum .record) :
      Accepted registry part := by
    obtain ⟨name, -, valid⟩ := outcome_bind_ok.mp valid
    cases datum with
    | dict entries =>
      obtain ⟨fields, fieldsAre, valid⟩ := outcome_bind_ok.mp valid
      obtain ⟨nodes, nodesAre, valid⟩ := outcome_bind_ok.mp valid
      have found : Decode.fieldsOf schema = .ok nodes :=
        outcome_bind_ok.mpr ⟨fields, fieldsAre, nodesAre⟩
      simp only [partsOfKind, found] at isPart
      obtain ⟨node, isNode, partIs⟩ := List.mem_filterMap.mp isPart
      obtain ⟨view, viewIs, accepted⟩ := outcome_bind_ok.mp (allPass_ok.mp valid node isNode)
      rw [viewIs] at partIs
      cases partIs
      exact ⟨below, _, accepted⟩
    | _ => cases valid
  cases kind with
  | array =>
    simp only [partsOfKind] at isPart
    split at isPart
    · rename_i node nodeIs
      obtain ⟨item, isItem, rfl⟩ := List.mem_map.mp isPart
      simp only [Validation.checkKind, Validation.checkArray] at valid
      split at valid
      · rename_i items itemsAre
        have iteratedAre : datum.iterated? = some items := by
          cases datum <;> simp_all [Validation.sequenceItems?]
        rw [iteratedAre] at isItem
        have accepted := allPass_ok.mp valid item isItem
        rw [nodeIs] at accepted
        exact ⟨below, place, accepted⟩
      · cases valid
    · cases isPart
  | map =>
    simp only [partsOfKind] at isPart
    split at isPart
    · rename_i node entries nodeIs
      obtain ⟨entry, isEntry, rfl⟩ := List.mem_map.mp isPart
      simp only [Validation.checkKind, Validation.checkMap] at valid
      split at valid
      · have accepted := allPass_ok.mp valid entry isEntry
        rw [nodeIs] at accepted
        exact ⟨below, place, accepted⟩
      · cases valid
    · cases isPart
  | union | errorUnion => exact branchAccepted valid isPart
  | record | error => exact fieldAccepted valid isPart
  | named name =>
    obtain rfl := passedOn rfl
    simp only [partsOfKind, Schema.resolve] at isPart
    simp only [Validation.checkKind] at valid
    cases known : get? registry name with
    | none => simp [known] at isPart
    | some definition =>
      simp only [known, List.mem_singleton] at isPart
      simp only [known] at valid
      rw [isPart]
      exact ⟨below, place, valid⟩
  | _ => cases isPart

end

section Kinds

variable {more : Nat} (enough : depth ≤ more)
  (complete : ∀ part ∈ partsOfKind registry depth ⟨schema, given⟩ datum kind, ∀ spot,
    Completes (Encode.write registry more part.value part.node spot))

include enough complete in
private theorem completes_union (isUnion : kind = .union ∨ kind = .errorUnion)
    (valid : Validation.checkUnion false (Validation.check registry false below) schema place
      datum = .ok true)
    (ready : Encode.readyKind registry depth schema datum .union = true) :
    Completes (Encode.writeUnion registry more (Encode.write registry more) schema
      field datum) := by
  have notObject : ∀ members, schema ≠ .obj members := by
    rintro members rfl
    cases ready
  obtain ⟨branches, branchesAre⟩ : ∃ branches, iterate schema = .ok branches := by
    unfold Validation.checkUnion at valid
    split at valid
    · obtain ⟨branches, branchesAre, -⟩ := outcome_bind_ok.mp valid
      exact ⟨branches, branchesAre⟩
    · cases valid
    · obtain ⟨branches, branchesAre, -⟩ := outcome_bind_ok.mp valid
      exact ⟨branches, branchesAre⟩
  obtain ⟨fit, answer⟩ : Encode.fits branches.length = true ∧ (Encode.choosesByName datum = true ∨
      Encode.branchesAnswer (fun branch => Validation.check registry false depth datum branch .null)
        branches = true) := by
    rw [← Bool.or_eq_true, ← Bool.and_eq_true]
    cases schema with
    | obj members => exact absurd rfl (notObject members)
    | _ => simpa only [Encode.readyKind, branchesAre] using ready
  obtain ⟨index, value, branch, chosen, branchIs⟩ :=
    exists_choice valid branchesAre notObject (of_decide_eq_true fit) fun notTuple =>
      answer.resolve_left fun isTuple => by
      cases datum with
      | tuple items => exact notTuple items rfl
      | _ => cases isTuple
  have isPart : ⟨branch, value⟩ ∈ partsOfKind registry depth ⟨schema, given⟩ datum kind :=
    Encode.mem_partsOfKind_branch chosen le_rfl branchIs isUnion
  refine Completes.lift (choose_ok_field (choose_of_le chosen enough) field)
    (Completes.lift branchIs ?_)
  exact (Completes.put _).bind (complete _ isPart field)

include complete in
private theorem completes_record (fielded : kind = .record ∨ kind = .error)
    (valid : Validation.checkRecord (Validation.check registry false below) schema place
      datum = .ok true)
    (ready : Encode.readyKind registry depth schema datum .record = true) :
    Completes (Encode.writeRecord (Encode.write registry more) schema datum) := by
  obtain ⟨name, -, valid⟩ := outcome_bind_ok.mp valid
  cases datum with
  | dict entries =>
    obtain ⟨fields, fieldsAre, valid⟩ := outcome_bind_ok.mp valid
    obtain ⟨nodes, nodesAre, valid⟩ := outcome_bind_ok.mp valid
    have found : Decode.fieldsOf schema = .ok nodes :=
      outcome_bind_ok.mpr ⟨fields, fieldsAre, nodesAre⟩
    simp only [Encode.readyKind, found] at ready
    refine Completes.lift fieldsAre
      (Completes.lift nodesAre (completes_fields (List.all_eq_true.mp ready) ?_))
    intro node isNode
    obtain ⟨view, viewIs, -⟩ := outcome_bind_ok.mp (allPass_ok.mp valid node isNode)
    exact ⟨view, viewIs, complete _
      (Encode.mem_partsOfKind_field found isNode viewIs fielded) view.name⟩
  | _ => cases valid

include complete in
private theorem completes_sequence (isArray : kind = .array)
    (valid : Validation.checkArray (Validation.check registry false below) schema place
      datum = .ok true)
    (ready : datum.size?.all Encode.fits = true) :
    Completes (Encode.writeArray (Encode.write registry more) schema field datum) := by
  subst isArray
  unfold Validation.checkArray at valid
  split at valid
  · rename_i items itemsAre
    have iteratedAre : datum.iterated? = some items := by
      cases datum <;> simp_all [Validation.sequenceItems?]
    have sizeIs : datum.size? = some items.length := by
      cases datum <;> simp_all [Validation.sequenceItems?, Datum.iterated?, Datum.size?]
      all_goals (subst itemsAre; simp)
    rw [sizeIs, Option.all_some] at ready
    refine completes_array iteratedAre sizeIs (of_decide_eq_true ready) ?_
    intro item isItem
    obtain ⟨node, nodeIs, -⟩ := outcome_bind_ok.mp (allPass_ok.mp valid item isItem)
    exact ⟨node, nodeIs, complete _ (Encode.mem_partsOfKind_item nodeIs iteratedAre isItem) field⟩
  · cases valid

include complete in
private theorem completes_mapping (isMap : kind = .map)
    (valid : Validation.checkMap (Validation.check registry false below) schema place
      datum = .ok true)
    (ready : Encode.readyKind registry depth schema datum .map = true) :
    Completes (Encode.writeMap (Encode.write registry more) schema field datum) := by
  subst isMap
  cases datum with
  | dict entries =>
    simp only [Validation.checkMap] at valid
    split at valid
    · rename_i texts
      obtain ⟨small, fit⟩ := Bool.and_eq_true_iff.mp ready
      refine completes_map (List.all_eq_true.mp texts) (List.all_eq_true.mp fit)
        (of_decide_eq_true small) ?_
      intro entry isEntry
      obtain ⟨node, nodeIs, -⟩ := outcome_bind_ok.mp (allPass_ok.mp valid entry isEntry)
      exact ⟨node, nodeIs, complete _ (Encode.mem_partsOfKind_entry nodeIs isEntry) field⟩
    · cases valid
  | _ => cases valid

/-- An accepted value of a built-in kind that is ready is written if its parts are. -/
theorem completes_kind
    (valid : Validation.checkKind registry false (Validation.check registry false below) schema
      place datum kind = .ok true)
    (ready : Encode.readyKind registry depth schema datum kind = true) (enough : depth ≤ more)
    (builtIn : kind.isBuiltIn = true)
    (complete : ∀ part ∈ partsOfKind registry depth ⟨schema, given⟩ datum kind, ∀ spot,
      Completes (Encode.write registry more part.value part.node spot)) :
    Completes (Encode.writeKind registry more (Encode.write registry more) schema field
      datum kind) := by
  cases kind with
  | null => exact Completes.pure
  | boolean => exact Completes.put _
  | string => exact completes_text (Except.ok.inj valid) ready
  | int | long =>
    cases datum with
    | int value => exact Completes.put _
    | _ => cases valid
  | float =>
    simp only [Encode.readyKind, Encode.fitsSingle] at ready
    split at ready
    · rename_i number numberIs
      obtain ⟨pattern, patternIs⟩ := Option.isSome_iff_exists.mp ready
      refine Completes.lift numberIs ?_
      rw [patternIs]
      exact Completes.put _
    · cases ready
  | double =>
    simp only [Encode.readyKind, Encode.fitsDouble] at ready
    split at ready
    · rename_i number numberIs
      exact Completes.lift numberIs (Completes.put _)
    · cases ready
  | bytes =>
    obtain ⟨content, contentIs⟩ := Option.isSome_iff_exists.mp (Except.ok.inj valid)
    simp only [Encode.readyKind, contentIs, Option.all_some] at ready
    exact Completes.sized contentIs (of_decide_eq_true ready)
  | fixed =>
    cases datum with
    | bytes content =>
      have contentIs : (Datum.bytes content).byteContent? = some content := rfl
      exact Completes.raw contentIs (of_decide_eq_true ready)
    | _ => cases valid
  | enum =>
    obtain ⟨symbols, symbolsAre, accepted⟩ := outcome_bind_ok.mp valid
    obtain ⟨index, indexIs⟩ := symbolIndex_of_isSymbol symbolsAre accepted ready
    exact Completes.lift symbolsAre (Completes.lift indexIs (Completes.put _))
  | array => exact completes_sequence complete rfl valid ready
  | map => exact completes_mapping complete rfl valid ready
  | union => exact completes_union enough complete (Or.inl rfl) valid ready
  | errorUnion => exact completes_union enough complete (Or.inr rfl) valid ready
  | record => exact completes_record complete (Or.inl rfl) valid ready
  | error => exact completes_record complete (Or.inr rfl) valid ready
  | request => cases ready
  | named name => exact absurd builtIn Bool.false_ne_true
  | foreign value => exact absurd builtIn Bool.false_ne_true

end Kinds

end Values

theorem Completes.onField {step : WriteM BinaryOutput Unit} (completes : Completes step)
    (field : Json) : Completes (Encode.onField field step) := by
  intro output
  obtain ⟨after, done⟩ := completes output
  exact ⟨after, onField_ok.mpr done⟩

private theorem readyKind_of_ready {kind : Kind} (kindIs : kindOf schema = .ok kind)
    (prepared : Logical.prepareFor schema given = .ok datum) (builtIn : kind.isBuiltIn = true)
    (ready : Encode.Site.ready registry depth ⟨schema, given⟩ = true) :
    Encode.readyKind registry depth schema datum kind = true := by
  simp only [Encode.Site.ready, kindIs, prepared] at ready
  cases kind with
  | named name => exact absurd builtIn Bool.false_ne_true
  | _ => exact ready

/-- Accepted values whose sites are ready are written, by induction on how deep sites are nested. -/
theorem completes_of_accepted {levels deeper : Nat} {field : Json}
    (accepted : Accepted registry ⟨schema, given⟩)
    (ready : ∀ site, Encode.Occurs registry depth ⟨schema, given⟩ site →
      site.ready registry depth = true)
    (nested : Encode.nestsWithin registry depth levels ⟨schema, given⟩ = true)
    (enough : depth + levels ≤ deeper) :
    Completes (Encode.write registry deeper given schema field) := by
  induction levels generalizing deeper schema field given with
  | zero => cases nested
  | succ levels ih =>
    obtain ⟨more, rfl⟩ : ∃ more, deeper = more + 1 := ⟨deeper - 1, by omega⟩
    obtain ⟨level, place, valid⟩ := accepted
    obtain ⟨below, kind, datum, kindIs, prepared, valid⟩ := check_prepared_ok valid
    have here := ready _ (.whole _)
    have partCompletes (passedOn : kind.isBuiltIn = false → datum = given) :
        ∀ part ∈ partsOfKind registry depth ⟨schema, given⟩ datum kind, ∀ spot,
          Completes (Encode.write registry more part.value part.node spot) := by
      intro part isPart spot
      have partAccepted := accepted_part valid passedOn isPart
      rw [← Encode.parts_eq kindIs prepared] at isPart
      have partNested := List.all_eq_true.mp nested part isPart
      exact ih partAccepted (fun site occurs => ready site (.within isPart occurs))
        partNested (by omega)
    have builtInCompletes (builtIn : kind.isBuiltIn = true) (notRequest : kind ≠ .request) :
        Completes (Encode.write registry (more + 1) given schema field) := by
      rw [write_succ prepared kindIs builtIn notRequest]
      have kindReady := readyKind_of_ready kindIs prepared builtIn here
      exact (completes_kind valid kindReady (by omega) builtIn
        (partCompletes fun isReference => absurd (isReference ▸ builtIn : false = true)
          Bool.false_ne_true)).onField field
    cases kind with
    | named name =>
      have plain : Logical.ofSchema schema = .ok none := by
        simp only [Encode.Site.ready, kindIs, prepared] at here
        exact Encode.Site.plain_of_isPlain here
      rw [prepareFor_of_plain plain] at prepared
      cases prepared
      obtain ⟨definition, known⟩ : ∃ definition, Schema.resolve registry name = .ok definition := by
        simp only [Validation.checkKind] at valid
        cases found : get? registry name with
        | none => simp [found] at valid
        | some definition => exact ⟨definition, by simp [Schema.resolve, found]⟩
      rw [write_named kindIs]
      exact Completes.lift known
        (partCompletes (fun _ => rfl) _ (Encode.mem_partsOfKind_named known) (.str ""))
    | foreign value => cases valid
    | request => cases readyKind_of_ready kindIs prepared rfl here
    | _ => exact builtInCompletes rfl (by simp)

/-- Acceptance is enough for writing. Let a schema accept a value, and let every site that is met on
the way be ready: sizes and numbers can be written, a field that is missing has a default or a type
that mentions null, and the branches of a union answer up to the one that is chosen. Let no site be
more than a number of levels below. Then the value is written, after any output, with that many
levels besides the depth at which branches are chosen. -/
theorem write_of_accepted {registry : Registry} {schema place field : Json} {datum : Datum}
    {level depth levels deeper : Nat}
    (valid : Validation.check registry false level datum schema place = .ok true)
    (ready : ∀ site, Encode.Occurs registry depth ⟨schema, datum⟩ site →
      site.ready registry depth = true)
    (nested : Encode.nestsWithin registry depth levels ⟨schema, datum⟩ = true)
    (enough : depth + levels ≤ deeper) (output : BinaryOutput) :
    ∃ after, Encode.write registry deeper datum schema field output = .ok () after :=
  completes_of_accepted ⟨level, place, valid⟩ ready nested enough output

/-- A letter, as parsed. -/
def letterNode : Json :=
  .obj [("type", .str "record"), ("name", .str "Letter"),
    ("fields", .arr [.obj [("name", .str "sender"), ("type", .str "string")]])]

/-- A box has a weight besides. -/
def boxNode : Json :=
  .obj [("type", .str "record"), ("name", .str "Box"),
    ("fields", .arr [.obj [("name", .str "sender"), ("type", .str "string")],
      .obj [("name", .str "weight"), ("type", .str "double")]])]

def dayNode : Json := .obj [("logicalType", .str "date"), ("type", .str "int")]

/-- A delivery on a day, with a note that may be missing, of a letter or a box. -/
def deliveryNode : Json :=
  .obj [("type", .str "record"), ("name", .str "Delivery"),
    ("fields", .arr [.obj [("name", .str "day"), ("type", dayNode)],
      .obj [("name", .str "note"), ("type", .arr [.str "null", .str "string"])],
      .obj [("name", .str "content"), ("type", .arr [letterNode, boxNode])]])]

def deliveryRegistry : Registry :=
  [("Delivery", deliveryNode), ("Letter", letterNode), ("Box", boxNode)]

/-- A box, which a letter accepts as well. -/
def boxDatum : Datum := .dict [(.str "sender", .str "A"), (.str "weight", .int 3)]

def dayDatum : Datum := .date ⟨2020, 1, 2⟩

/-- A delivery without a note. -/
def deliveryDatum : Datum := .dict [(.str "content", boxDatum), (.str "day", dayDatum)]

def deliverySites : List Encode.Site :=
  [⟨deliveryNode, deliveryDatum⟩, ⟨dayNode, dayDatum⟩, ⟨.arr [.str "null", .str "string"], .null⟩,
    ⟨.arr [letterNode, boxNode], boxDatum⟩, ⟨.str "null", .null⟩, ⟨boxNode, boxDatum⟩,
    ⟨.str "string", .str "A"⟩,
    ⟨.str "double", .int 3⟩]

theorem write_of_accepted_delivery :
    ∃ after, Encode.write deliveryRegistry Schema.depthLimit deliveryDatum deliveryNode (.str "")
      BinaryOutput.empty =
      .ok () after := by
  have valid : Validation.check deliveryRegistry false 4 deliveryDatum deliveryNode .null =
    .ok true := rfl
  have ready : ∀ site, Encode.Occurs deliveryRegistry 4 ⟨deliveryNode, deliveryDatum⟩ site →
      site.ready deliveryRegistry 4 = true := by
    intro site occurs
    have levels : deliverySites.flatMap (Encode.parts deliveryRegistry 4) =
      deliverySites.tail := rfl
    have isSite : site ∈ deliverySites :=
      occurs.mem_of_closed (levels ▸ List.tail_subset _) (List.mem_cons_self ..)
    have allReady : deliverySites.all (Encode.Site.ready deliveryRegistry 4) = true := rfl
    exact List.all_eq_true.mp allReady site isSite
  have nested : Encode.nestsWithin deliveryRegistry 4 4 ⟨deliveryNode, deliveryDatum⟩ = true := rfl
  exact write_of_accepted valid ready nested (by decide) BinaryOutput.empty

/-- A field of the null type, given as an object. -/
def gapSchema : Json :=
  .obj [("type", .str "record"), ("name", .str "Gap"),
    ("fields", .arr [.obj [("name", .str "a"), ("type", .obj [("type", .str "null")])]])]

/-- A missing field is null where a value is checked. It is not written as null if the null type is
no item and no text of the type, but the type of an object. -/
theorem gap_accepted_not_written :
    Validation.validate gapSchema (.dict []) .null false = .ok true ∧
      Encode.single gapSchema (.dict []) = .error (.noValue (.str "a")) :=
  ⟨rfl, rfl⟩

end Avro
