import Avro.JsonEncoding.Output
import Avro.Proofs.NormalForm
import Avro.Proofs.Walking

/-!
Contract: the JSON encoding of a value by recursion over its schema.

Owns: `jsonForm`, the document of a value as a function of the schema and the value alone, and the
simulation: an output that walks along the grammar of a schema adds exactly that document to what is
being written.

The output carries out actions late, so after a value has been written some of its ends are still
pending. The simulation therefore speaks of the draft after the pending actions have run, which they
need not do: a later step or the end of the output may fail on them.
-/

namespace Avro.JsonEncoding

variable {draft after : Draft} {value : Datum}

/-! ### The encoding as a recursion -/

namespace Form

/-- The mapping of entries that are set one after the other. -/
def gather (entries : List (Datum × Datum)) : Datum :=
  .dict (entries.foldl (fun filled entry => Draft.setEntry filled entry.1 entry.2) [])

/-- Bytes become a text of which every character is a byte. -/
def octets (datum : Datum) : Outcome Datum :=
  match datum.byteContent? with
  | some content => .ok (.str (Text.decodeLatin1 content))
  | none => .error .unsupported

/-- A value of an enumeration becomes the symbol that equals it. -/
def symbol (schema : Json) (datum : Datum) : Outcome Datum := do
  let symbols ← Schema.attributeOf schema "symbols"
  let index ← Schema.symbolIndex symbols datum
  return Datum.ofJson (← Schema.documentItemAt symbols index)

def array (form : Former) (schema : Json) (datum : Datum) : Outcome Datum :=
  match datum.iterated? with
  | some items => do
    return .list (← items.mapM fun item => do form (← Schema.attributeOf schema "items") item)
  | none => .error (.wrongType [])

/-- A mapping keeps its keys. Whatever has no items is an empty mapping. -/
def map (form : Former) (schema : Json) (datum : Datum) : Outcome Datum :=
  match datum with
  | .dict entries => do
    return gather (← entries.mapM fun entry => do
      return (entry.1, ← form (← Schema.attributeOf schema "values") entry.2))
  | _ => if datum.size? = some 0 then .ok (gather []) else .error .unsupported

/-- The name of a field with the form of its value, which is the default if the mapping has none. -/
def field (form : Former) (datum : Datum) (node : Json) : Outcome (Datum × Datum) :=
  match datum with
  | .dict entries => Former.field form entries node
  | _ => .error .unsupported

def record (form : Former) (schema : Json) (datum : Datum) : Outcome Datum := do
  return gather (← (← Decode.fieldsOf schema).mapM (field form datum))

/-- Whether a schema is the null type, possibly by a name. -/
def isNull (registry : Registry) : Nat → Json → Bool
  | 0, _ => false
  | depth + 1, schema =>
    match Schema.kindOf schema with
    | .ok .null => true
    | .ok (.named name) => ((Members.get? registry name).map (isNull registry depth)).getD false
    | .ok .request => ((Members.get? registry "request").map (isNull registry depth)).getD false
    | _ => false

/-- A value of a union is null in the null branch, and in any other branch it stands under the label
of the branch. -/
def union (registry : Registry) (depth : Nat) (form : Former) (schema : Json) (datum : Datum) :
    Outcome Datum := do
  let (index, value) ← Branch.choose registry depth schema .null datum
  let branch ← Schema.documentItemAt schema index
  if isNull registry depth branch then return .null
  else return .dict [(Datum.ofJson (branchLabel branch), ← form branch value)]

/-- The form of a value by a node of a built-in kind. -/
def kind (registry : Registry) (depth : Nat) (form : Former) (schema : Json) (datum : Datum) :
    Kind → Outcome Datum
  | .null => .ok .null
  | .boolean | .string | .int | .long | .float | .double => .ok datum
  | .bytes | .fixed => octets datum
  | .enum => symbol schema datum
  | .array => array form schema datum
  | .map => map form schema datum
  | .union | .errorUnion => union registry depth form schema datum
  | .record | .error => record form schema datum
  | .request | .named _ | .foreign _ => .error .missingKey

end Form

/-- The value that the JSON encoding of a value shows. -/
def jsonForm (registry : Registry) : Nat → Former
  | 0, _, _ => .error .tooDeep
  | depth + 1, schema, given => do
    match ← Schema.kindOf schema with
    | .named name => jsonForm registry depth (← Schema.resolve registry name) given
    | .request => jsonForm registry depth (← Schema.resolve registry "request") given
    | kind =>
      let datum ← Logical.prepareFor schema given
      Form.kind registry depth (jsonForm registry depth) schema datum kind

/-! ### Drafts -/

/-- A draft holds one more value than another one, at the place where that one was. The key may have
changed. -/
inductive Adds (value : Datum) : Draft → Draft → Prop
  | record {enclosing : List (Datum × Datum)} {key later : Datum} {records : List Datum}
      {text : String} :
      Adds value ⟨enclosing, .null, key, records, text⟩
        ⟨enclosing, .null, later, records ++ [value], text⟩
  | part {enclosing : List (Datum × Datum)} {current key later extended : Datum}
      {records : List Datum} {text : String}
      (isExtended : Draft.extend current key value = .ok extended) :
      Adds value ⟨enclosing, current, key, records, text⟩
        ⟨enclosing, extended, later, records, text⟩

def Draft.within (draft : Draft) (collection key : Datum) : Draft :=
  ⟨(draft.current, draft.key) :: draft.enclosing, collection, key, draft.records, draft.text⟩

theorem adds_of_writeValue (written : Draft.writeValue value draft = .ok () after) :
    Adds value draft after := by
  obtain ⟨enclosing, current, key, records, text⟩ := draft
  unfold Draft.writeValue at written
  obtain ⟨draft, between, got, written⟩ := step_bind_ok.mp written
  cases got
  cases current with
  | null =>
    cases written
    exact Adds.record
  | dict entries =>
    by_cases keyed : key.truthy = true
    · simp only [keyed] at written
      cases extended : Draft.extend (.dict entries) key value with
      | error error => simp [extended] at written
      | ok collection =>
        simp only [extended] at written
        cases written
        exact Adds.part extended
    · simp only [keyed] at written
      cases written
  | list items =>
    cases written
    exact Adds.part rfl
  | _ => cases written

theorem adds_of_pop {collection key : Datum}
    (popped : Draft.pop (draft.within collection key) = .ok () after) :
    Adds collection draft after := by
  obtain ⟨enclosing, current, own, records, text⟩ := draft
  unfold Draft.pop at popped
  obtain ⟨inner, between, got, popped⟩ := step_bind_ok.mp popped
  cases got
  obtain ⟨outer, outerIs⟩ : ∃ outer, outer = current := ⟨current, rfl⟩
  cases current with
  | null =>
    cases own with
    | null =>
      cases popped
      exact Adds.record
    | _ => cases popped
  | _ =>
    obtain ⟨_, _, _, popped⟩ := step_bind_ok.mp popped
    cases isExtended : Draft.extend outer own collection with
    | error error =>
      rw [outerIs] at isExtended
      simp [Draft.within, isExtended] at popped
    | ok extended =>
      rw [outerIs] at isExtended
      simp only [Draft.within, isExtended] at popped
      cases popped
      exact Adds.part isExtended

theorem Adds.toList {items : List Datum} (adds : Adds value draft after)
    (isList : draft.current = .list items) :
    ∃ key, after = { draft with current := .list (items ++ [value]), key := key } := by
  cases adds with
  | record => cases isList
  | part isExtended =>
    cases isList
    cases isExtended
    exact ⟨_, rfl⟩

theorem Adds.toMapping {entries : List (Datum × Datum)} (adds : Adds value draft after)
    (isMapping : draft.current = .dict entries) :
    ∃ key, after =
      { draft with current := .dict (Draft.setEntry entries draft.key value), key := key } := by
  cases adds with
  | record => cases isMapping
  | part isExtended =>
    cases isMapping
    rw [Draft.extend] at isExtended
    split at isExtended
    · cases isExtended
      exact ⟨_, rfl⟩
    · cases isExtended

/-! ### Actions along a grammar -/

def marksKey : List Symbol → Bool
  | symbol :: _ => symbol.isTerminal .mapKeyMarker
  | [] => false

private theorem marksKey_append {first second : List Symbol} (firstNot : marksKey first = false)
    (secondNot : marksKey second = false) : marksKey (first ++ second) = false := by
  cases first with
  | nil => exact secondNot
  | cons symbol rest => exact firstNot

/-- What an action has done that started before some symbols, behind deferred ones, and ended after
the symbols. -/
inductive Passed (deferred symbols rest : List Symbol) (walk after : Output)
    (post : Draft → Draft → Prop) : Prop
  /-- The symbols are silent, and have all been deferred. -/
  | nothing (silent : Symbol.areSilent symbols = true) (unchanged : after = walk)
      (runs : ∀ base final, runAll Draft.perform deferred walk.content = some base →
        runAll Draft.perform symbols base = some final → post base final)
  /-- The deferred symbols have run, and others have been left behind. -/
  | something (loud : Symbol.areSilent symbols = false) (sameStart : after.start = walk.start)
      (base : Draft)
      (ran : runAll Draft.perform deferred walk.content = some base) (left : List Symbol)
      (leftSilent : Symbol.areSilent left = true) (pending : after.pending = left ++ rest)
      (runs : ∀ final, runAll Draft.perform left after.content = some final → post base final)

/-- An action writes along symbols: from any walk that leads to them it gets past them. The drafts
before and after are related when the actions that are deferred then have run. -/
def Follows {α : Type} (action : WriteM Output α) (symbols : List Symbol)
    (post : α → Draft → Draft → Prop) : Prop :=
  ∀ ⦃walk after : Output⦄ ⦃value : α⦄ ⦃deferred rest : List Symbol⦄,
    LeadsTo Draft.perform walk.start walk.pending (deferred ++ (symbols ++ rest)) →
    Symbol.areSilent deferred = true → marksKey rest = false → action walk = .ok value after →
      Passed deferred symbols rest walk after (post value)

namespace Follows

variable {α β : Type} {action : WriteM Output α} {symbols : List Symbol}
  {post : α → Draft → Draft → Prop}
variable {passed : List Symbol}

theorem mono {weaker : α → Draft → Draft → Prop} (follows : Follows action symbols post)
    (weakens : ∀ value base final, post value base final → weaker value base final) :
    Follows action symbols weaker := by
  intro walk after value deferred rest leads silent unmarked done
  cases follows leads silent unmarked done with
  | nothing silent unchanged runs =>
    exact .nothing silent unchanged fun base final ran ranSymbols =>
      weakens value base final (runs base final ran ranSymbols)
  | something loud sameStart base ran left leftSilent pending runs =>
    exact .something loud sameStart base ran left leftSilent pending fun final ranLeft =>
      weakens value base final (runs final ranLeft)

theorem pure (value : α) (silent : Symbol.areSilent symbols = true) :
    Follows (Pure.pure value) symbols
      (fun own base final => own = value ∧ runAll Draft.perform symbols base = some final) := by
  intro walk after own deferred rest leads deferredSilent unmarked done
  obtain ⟨rfl, rfl⟩ := step_pure_ok.mp done
  exact .nothing silent rfl fun base final ran ranSymbols => ⟨rfl, ranSymbols⟩

/-- Two actions after each other follow the symbols of both. -/
theorem bind {next : α → WriteM Output β} {others : List Symbol}
    {nextPost : α → β → Draft → Draft → Prop} (first : Follows action symbols post)
    (second : ∀ value, Follows (next value) others (nextPost value))
    (unmarked : marksKey others = false) :
    Follows (action >>= next) (symbols ++ others)
      (fun result base final => ∃ value between, post value base between ∧
        nextPost value result between final) := by
  intro walk after result deferred rest leads silent restUnmarked done
  obtain ⟨value, middle, firstDone, secondDone⟩ := step_bind_ok.mp done
  rw [List.append_assoc] at leads
  -- Whether anything has been advanced yet decides from where the second action starts.
  cases first leads silent (marksKey_append unmarked restUnmarked) firstDone with
  | nothing symbolsSilent unchanged runs =>
    subst unchanged
    rw [← List.append_assoc] at leads
    cases second value leads (by simp [silent, symbolsSilent]) restUnmarked secondDone with
    | nothing othersSilent unchanged nextRuns =>
      refine .nothing (by simp [symbolsSilent, othersSilent]) unchanged
        fun base final ran ranBoth => ?_
      obtain ⟨between, ranSymbols, ranOthers⟩ := (runAll_append_some _).mp ranBoth
      have ranTo := (runAll_append_some _).mpr ⟨base, ran, ranSymbols⟩
      exact ⟨value, between, runs base between ran ranSymbols,
        nextRuns between final ranTo ranOthers⟩
    | something loud sameStart middleBase ran left leftSilent pending nextRuns =>
      obtain ⟨base, ranDeferred, ranSymbols⟩ := (runAll_append_some _).mp ran
      exact .something (by simp [loud]) sameStart base ranDeferred left leftSilent pending
        fun final ranLeft =>
        ⟨value, middleBase, runs base middleBase ranDeferred ranSymbols, nextRuns final ranLeft⟩
  | something loud sameStart base ran left leftSilent pending runs =>
    have leadsOn : LeadsTo Draft.perform middle.start middle.pending
        (left ++ (others ++ rest)) := by
      rw [pending]
      exact LeadsTo.refl _
    cases second value leadsOn leftSilent restUnmarked secondDone with
    | nothing othersSilent unchanged nextRuns =>
      subst unchanged
      refine .something (by simp [loud]) sameStart base ran (left ++ others)
        (by simp [leftSilent, othersSilent])
        (by rw [pending, List.append_assoc]) fun final ranBoth => ?_
      obtain ⟨between, ranLeft, ranOthers⟩ := (runAll_append_some _).mp ranBoth
      exact ⟨value, between, runs between ranLeft, nextRuns between final ranLeft ranOthers⟩
    | something _ nextStart middleBase ranLeft nextLeft nextSilent nextPending nextRuns =>
      exact .something (by simp [loud]) (nextStart.trans sameStart) base ran nextLeft
        nextSilent nextPending
        fun final ranNext => ⟨value, middleBase, runs middleBase ranLeft, nextRuns final ranNext⟩

theorem before (silent : Symbol.areSilent passed = true) (unmarked : marksKey symbols = false)
    (follows : Follows action symbols post) :
    Follows action (passed ++ symbols)
      (fun value base final => ∃ between, runAll Draft.perform passed base = some between ∧
        post value between final) := by
  have both := (Follows.pure () silent).bind (fun _ => follows) unmarked
  exact both.mono fun value base final ⟨_, between, ⟨_, ran⟩, holds⟩ => ⟨between, ran, holds⟩

theorem behind (silent : Symbol.areSilent passed = true) (unmarked : marksKey passed = false)
    (follows : Follows action symbols post) :
    Follows action (symbols ++ passed)
      (fun value base final => ∃ between, post value base between ∧
        runAll Draft.perform passed between = some final) := by
  have both := follows.bind (fun value => Follows.pure value silent) unmarked
  rw [bind_pure] at both
  refine both.mono ?_
  rintro result base final ⟨_, between, holds, rfl, ran⟩
  exact ⟨between, holds, ran⟩

theorem sequence (follows : Follows action symbols post) :
    Follows action [.sequence symbols] post := by
  intro walk after value deferred rest leads silent unmarked done
  have leadsInside := leads.trans (LeadsTo.behind silent (LeadsTo.sequence symbols rest))
  cases follows leadsInside silent unmarked done with
  | nothing symbolsSilent unchanged runs =>
    refine .nothing (by simpa using symbolsSilent) unchanged fun base final ran ranSymbols => ?_
    rw [runAll_sequence] at ranSymbols
    exact runs base final ran ranSymbols
  | something loud sameStart base ran left leftSilent pending runs =>
    exact .something (by simpa using loud) sameStart base ran left leftSilent pending runs

theorem lift {next : α → WriteM Output β} {outcome : Outcome α}
    {nextPost : β → Draft → Draft → Prop}
    (follows : ∀ value, outcome = .ok value → Follows (next value) symbols nextPost) :
    Follows (WriteM.lift outcome >>= next) symbols nextPost := by
  intro walk after result deferred rest leads silent unmarked done
  obtain ⟨value, between, lifted, goesOn⟩ := step_bind_ok.mp done
  obtain ⟨isValue, rfl⟩ := writeLift_ok.mp lifted
  exact follows value isValue leads silent unmarked goesOn

theorem onField {step : WriteM Output Unit} {stepPost : Unit → Draft → Draft → Prop}
    (follows : Follows step symbols stepPost) (field : Json) :
    Follows (Encode.onField field step) symbols stepPost := by
  intro walk after value deferred rest leads silent unmarked done
  apply follows leads silent unmarked
  unfold Encode.onField at done
  split at done
  · cases done
  · exact done

/-- From symbols that are pending themselves, an action that follows them leaves silent ones
behind. -/
theorem atPending (follows : Follows action symbols post) {start : Symbol} {rest : List Symbol}
    {base : Draft} {value : α} {after : Output} (unmarked : marksKey rest = false)
    (done : action ⟨start, symbols ++ rest, base⟩ = .ok value after) :
    after.start = start ∧ ∃ left, Symbol.areSilent left = true ∧ after.pending = left ++ rest ∧
      ∀ final, runAll Draft.perform left after.content = some final → post value base final := by
  cases @follows ⟨start, symbols ++ rest, base⟩ after value [] rest (LeadsTo.refl _) rfl
    unmarked done with
  | nothing silent unchanged runs =>
    subst unchanged
    exact ⟨rfl, symbols, silent, rfl, fun final ran => runs base final rfl ran⟩
  | something loud sameStart other ran left leftSilent pending runs =>
    cases ran
    exact ⟨sameStart, left, leftSilent, pending, runs⟩

end Follows

end Avro.JsonEncoding
