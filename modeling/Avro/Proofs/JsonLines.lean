import Avro.JsonEncoding.Lines
import Avro.Proofs.JsonSimulation

/-!
Contract: the lines that records are written as.

Owns: `write_eq_lines`, by which the text of records is the lines of their JSON forms, one for each
record and independent of the others.

Between two records some actions of the first are still pending. The loop invariant is that all of
them are silent, and that the draft holds the forms of all records so far once they have run; the
end of the output makes them run.
-/

namespace Avro.JsonEncoding

variable {draft after : Draft}

/-- The line of a record: its form in the layout of lines. -/
def lineOf (registry : Registry) (schema : Json) (record : Datum) : Outcome String := do
  let form ← jsonForm registry Schema.depthLimit schema record
  return (← form.plainDocument).print Json.Layout.line

/-- A value that is added outside of collections is one more record. -/
theorem Adds.toRecords {value : Datum} (adds : Adds value draft after)
    (outside : draft.current = .null) :
    ∃ key, after = { draft with records := draft.records ++ [value], key := key } := by
  cases adds with
  | record => exact ⟨_, rfl⟩
  | part isExtended =>
    cases outside
    cases isExtended

/-- The draft after records have been added. -/
def AddsRecords (result : Outcome (List Datum)) (base final : Draft) : Prop :=
  ∃ forms, result = .ok forms ∧ (base.current = .null →
    ∃ key, final = { base with records := base.records ++ forms, key := key })

theorem AddsRecords.cons {value : Datum} {others : Outcome (List Datum)}
    {base between final : Draft} (adds : Adds value base between)
    (addsOthers : AddsRecords others between final) :
    AddsRecords (do return value :: (← others)) base final := by
  obtain ⟨forms, rfl, addsForms⟩ := addsOthers
  refine ⟨value :: forms, rfl, fun outside => ?_⟩
  obtain ⟨key, rfl⟩ := adds.toRecords outside
  obtain ⟨later, rfl⟩ := addsForms outside
  exact ⟨later, by simp⟩

section Records

variable {action : Datum → WriteM Output Unit} {form : Datum → Outcome Datum} {start : Symbol}

/-- Records are added one after the other. What one of them defers is carried out before the next is
added, and what the last one defers stays pending. -/
theorem writeRecords_adds
    (follows : ∀ record, Follows (action record) [start] fun _ => AddsResult (form record))
    (loud : start.isSilent = false) (record : Datum) (records : List Datum) {deferred : List Symbol}
    {walk after : Output} {holds : Draft → Prop} (isStart : walk.start = start)
    (leads : LeadsTo Draft.perform walk.start walk.pending (deferred ++ ([start] ++ [.root])))
    (silent : Symbol.areSilent deferred = true)
    (runs : ∀ base, runAll Draft.perform deferred walk.content = some base → holds base)
    (written : writeRecords action (record :: records) walk = .ok () after) :
    ∃ left, Symbol.areSilent left = true ∧ after.pending = left ++ [.root] ∧
      ∀ final, runAll Draft.perform left after.content = some final →
        ∃ base, holds base ∧ AddsRecords ((record :: records).mapM form) base final := by
  induction records generalizing record deferred walk holds with
  | nil =>
    obtain ⟨_, middle, isWritten, ends⟩ := step_bind_ok.mp written
    cases ends
    cases follows record leads silent rfl isWritten with
    | nothing isSilent => simp [loud] at isSilent
    | something _ _ base ran left leftSilent pending adds =>
      refine ⟨left, leftSilent, pending, fun final ranLeft => ⟨base, runs base ran, ?_⟩⟩
      obtain ⟨value, isValue, addsValue⟩ := adds final ranLeft
      have nothingElse : AddsRecords (.ok []) final final :=
        ⟨[], rfl, fun _ => ⟨final.key, by simp⟩⟩
      simpa [List.mapM_cons, isValue] using AddsRecords.cons addsValue nothingElse
  | cons next records ih =>
    obtain ⟨_, middle, isWritten, others⟩ := step_bind_ok.mp written
    cases follows record leads silent rfl isWritten with
    | nothing isSilent => simp [loud] at isSilent
    | something _ sameStart base ran left leftSilent pending adds =>
      have leadsOn : LeadsTo Draft.perform middle.start middle.pending
          (left ++ ([start] ++ [.root])) := by
        rw [pending, sameStart, isStart]
        exact LeadsTo.behind leftSilent (LeadsTo.root [])
      obtain ⟨later, laterSilent, laterPending, addsOthers⟩ :=
        ih next (sameStart.trans isStart) leadsOn leftSilent adds others
      refine ⟨later, laterSilent, laterPending, fun final ranLater => ⟨base, runs base ran, ?_⟩⟩
      obtain ⟨between, ⟨value, isValue, addsValue⟩, addsRest⟩ := addsOthers final ranLater
      rw [List.mapM_cons, isValue]
      exact AddsRecords.cons addsValue addsRest

private theorem writeRecords_silent
    (follows : ∀ record, Follows (action record) [start] fun _ => AddsResult (form record))
    (silent : start.isSilent = true) (records : List Datum) {after : Output}
    (written : writeRecords action records (Output.ofGrammar start) = .ok () after) :
    after = Output.ofGrammar start := by
  induction records with
  | nil =>
    cases written
    rfl
  | cons record records ih =>
    obtain ⟨_, middle, isWritten, others⟩ := step_bind_ok.mp written
    cases @follows record _ _ _ [] [.root] (LeadsTo.refl _) rfl rfl isWritten with
    | nothing _ unchanged =>
      subst unchanged
      exact ih others
    | something loud => simp [silent] at loud

end Records

/-- The end of an output carries out what is pending, and writes the records as lines. -/
theorem finish_ok {left : List Symbol} {walk after : Output} (silent : Symbol.areSilent left = true)
    (finished : WalkM.finish Draft.perform (left ++ [.root]) walk = .ok () after) :
    ∃ final, runAll Draft.perform left walk.content = some final ∧
      Draft.writeLines final = .ok () after.content := by
  induction left generalizing walk with
  | nil =>
    obtain ⟨_, _, taken, finished⟩ := step_bind_ok.mp finished
    cases taken
    obtain ⟨_, _, performed, ends⟩ := step_bind_ok.mp finished
    cases ends
    obtain ⟨final, isFinal, rfl⟩ := onContent_ok.mp performed
    exact ⟨walk.content, rfl, isFinal⟩
  | cons symbol left ih =>
    obtain ⟨_, _, taken, finished⟩ := step_bind_ok.mp finished
    cases taken
    rw [Symbol.areSilent_cons, Bool.and_eq_true] at silent
    have step (isAction : WalkM.isAction symbol = true)
        (finished : (do
            WalkM.onContent (Draft.perform symbol)
            WalkM.finish Draft.perform (left ++ [Symbol.root]))
          (⟨walk.start, left ++ [Symbol.root], walk.content⟩ : Output) = .ok () after) :
        ∃ final, runAll Draft.perform (symbol :: left) walk.content = some final ∧
          Draft.writeLines final = .ok () after.content := by
      obtain ⟨_, _, performed, others⟩ := step_bind_ok.mp finished
      obtain ⟨between, isBetween, rfl⟩ := onContent_ok.mp performed
      obtain ⟨final, ran, lines⟩ := ih silent.2 others
      refine ⟨final, ?_, lines⟩
      rw [← List.singleton_append, runAll_append, runAll_action _ isAction,
        (carriedOut_some _).mpr isBetween]
      exact ran
    cases symbol with
    | sequence symbols => cases finished
    | unionEnd => exact step rfl finished
    | recordStart default => exact step rfl finished
    | recordEnd => exact step rfl finished
    | fieldStart name => exact step rfl finished
    | fieldEnd => exact step rfl finished
    | _ => cases silent.1

private theorem writeLines_ok (written : Draft.writeLines draft = .ok () after) :
    ∃ lines, (draft.records.mapM fun record => do
        return (← record.plainDocument).print Json.Layout.line) = .ok lines ∧
      after.text = draft.text ++ String.intercalate "\n" lines := by
  obtain ⟨_, _, got, written⟩ := step_bind_ok.mp written
  cases got
  cases isLines : draft.records.mapM fun record =>
    (do return (← record.plainDocument).print Json.Layout.line : Outcome _) with
  | error error =>
    rw [isLines] at written
    cases written
  | ok lines =>
    rw [isLines] at written
    cases written
    exact ⟨lines, rfl, rfl⟩

private theorem mapM_mapM {α β γ : Type} {first : α → Outcome β} {second : β → Outcome γ}
    {items : List α} {middle : List β} {results : List γ} (isMiddle : items.mapM first = .ok middle)
    (areResults : middle.mapM second = .ok results) :
    (items.mapM fun item => do second (← first item)) = .ok results := by
  rw [mapM_ok] at isMiddle areResults ⊢
  induction isMiddle generalizing results with
  | nil =>
    cases areResults
    exact .nil
  | cons isValue _ ih =>
    obtain _ | ⟨isResult, areOthers⟩ := areResults
    exact .cons (outcome_bind_ok.mpr ⟨_, isValue, isResult⟩) (ih areOthers)

private theorem follows_writeRecord {registry : Registry} {schema : Json} {start : Symbol}
    (lacksErrors : LacksErrors registry schema)
    (isStart : grammar registry Schema.depthLimit none schema = .ok start) (validates : Bool)
    (record : Datum) :
    Follows (writeRecord validates schema registry record) [start] fun _ =>
      AddsResult (jsonForm registry Schema.depthLimit schema record) := by
  have follows := follows_write Schema.depthLimit none schema start lacksErrors isStart
    record (.str "")
  cases validates with
  | false => exact follows
  | true => exact Follows.lift fun _ _ => follows

/-- The text of records is made of their lines, each of which depends on its own record alone. -/
theorem write_eq_lines {validates : Bool} {schema parsed : Json} {registry : Registry}
    {records : Datum} {items : List Datum} {text : String}
    (isParsed : Schema.parse {} [] schema = .ok (parsed, registry))
    (lacksErrors : LacksErrors registry parsed) (areItems : records.iterated? = some items)
    (hasItems : items ≠ []) (written : write validates schema records = .ok text) :
    ∃ lines, items.mapM (lineOf registry parsed) = .ok lines ∧
      text = String.intercalate "\n" lines := by
  unfold write at written
  split at written
  · cases written
  obtain ⟨_, isPair, written⟩ := outcome_bind_ok.mp written
  cases isParsed.symm.trans isPair
  obtain ⟨start, isStart, written⟩ := outcome_bind_ok.mp written
  rw [areItems] at written
  dsimp only at written
  split at written
  · rename_i _ output done
    cases written
    obtain ⟨_, _, isWritten, flushed⟩ := step_bind_ok.mp done
    obtain ⟨_, _, got, finished⟩ := step_bind_ok.mp flushed
    cases got
    have follows := follows_writeRecord lacksErrors isStart validates
    cases silent : start.isSilent with
    | true =>
      obtain rfl := writeRecords_silent follows silent items isWritten
      -- A silent grammar is a sequence that nothing has unfolded, and the output's end refuses it.
      obtain ⟨notAction, _⟩ := terminal_of_grammar lacksErrors isStart
      cases start with
      | sequence symbols => cases finished
      | terminal kind default => cases silent
      | repeater stop symbols => cases silent
      | alternative branches labels default => cases silent
      | enumLabels labels => cases silent
      | root => cases silent
      | _ => cases notAction
    | false =>
      obtain ⟨record, others, rfl⟩ := List.exists_cons_of_ne_nil hasItems
      obtain ⟨left, leftSilent, isPending, adds⟩ :=
        @writeRecords_adds _ _ _ follows silent record others []
        (Output.ofGrammar start) _ (· = Draft.empty) rfl (LeadsTo.refl _) rfl
          (fun base same => (Option.some.inj same).symm)
        isWritten
      rw [isPending] at finished
      obtain ⟨final, ranLeft, isLines⟩ := finish_ok leftSilent finished
      obtain ⟨_, rfl, forms, areForms, addsForms⟩ := adds final ranLeft
      obtain ⟨key, rfl⟩ := addsForms rfl
      obtain ⟨lines, areLines, isText⟩ := writeLines_ok isLines
      exact ⟨lines, mapM_mapM areForms areLines, by rw [isText]; exact String.empty_append⟩
  · cases written

/-- A parcel has marks that say nothing, an owner that may be unknown, and a kind. -/
def parcelSchema : Json :=
  .obj [("type", .str "record"), ("name", .str "Parcel"),
    ("fields", .arr [
      .obj [("name", .str "marks"), ("type", .obj [("type", .str "map"),
        ("values", .obj [("type", .str "record"), ("name", .str "Mark"), ("fields", .arr [])])])],
      .obj [("name", .str "owner"), ("type", .arr [.str "null", .str "string"])],
      .obj [("name", .str "kind"),
        ("type", .obj [("type", .str "enum"), ("name", .str "Kind"),
          ("symbols", .arr [.str "A", .str "B"])])]])]

/-- Two parcels, the second of which has no owner. -/
def parcels : List Datum :=
  [.dict [(.str "marks", .dict [(.str "x", .dict []), (.str "y", .dict [])]),
    (.str "owner", .str "me"),
      (.str "kind", .str "B")],
    .dict [(.str "kind", .str "A"), (.str "marks", .dict [])]]

/-- The lines of the two parcels. -/
def parcelText : String :=
  "\x7b\"marks\": \x7b\"x\": \x7b\x7d, \"y\": \x7b\x7d\x7d, " ++
    "\"owner\": \x7b\"string\": \"me\"\x7d, \"kind\": \"B\"\x7d\n" ++
    "\x7b\"marks\": \x7b\x7d, \"owner\": null, \"kind\": \"A\"\x7d"

theorem write_eq_lines_parcels :
    ∃ parsed registry lines, Schema.parse {} [] parcelSchema = .ok (parsed, registry) ∧
      parcels.mapM (lineOf registry parsed) = .ok lines ∧
      parcelText = String.intercalate "\n" lines := by
  obtain ⟨parsed, registry, isParsed, lacksErrors⟩ : ∃ parsed registry,
      Schema.parse {} [] parcelSchema = .ok (parsed, registry) ∧ LacksErrors registry parsed :=
    ⟨_, _, rfl, fun _ _ => ⟨fun _ => rfl, fun _ => rfl⟩⟩
  have written : write true parcelSchema (.list parcels) = .ok parcelText := by cbv
  obtain ⟨lines, areLines, isText⟩ :=
    write_eq_lines isParsed lacksErrors rfl (by simp [parcels]) written
  exact ⟨parsed, registry, lines, isParsed, areLines, isText⟩

/-- A report has an enumeration that is named as error types are called, and an error type. -/
def reportSchema : Json :=
  .obj [("type", .str "record"), ("name", .str "Report"),
    ("fields", .arr [
      .obj [("name", .str "a"),
        ("type", .obj [("type", .str "enum"), ("name", .str "error"),
          ("symbols", .arr [.str "A", .str "B"])])],
      .obj [("name", .str "b"),
        ("type", .obj [("type", .str "error"), ("name", .str "Fault"), ("fields", .arr [
        .obj [("name", .str "f"), ("type", .obj [("type", .str "enum"), ("name", .str "Cause"),
          ("symbols", .arr [.str "A", .str "B"])])]])])]])]

def report : Datum := .dict [(.str "a", .str "A"), (.str "b", .dict [(.str "f", .str "B")])]

/-- An error type is written along the type that is registered under the word for errors, and loses
its own form. -/
theorem line_lost_of_errorName :
    ∃ parsed registry, Schema.parse {} [] reportSchema = .ok (parsed, registry) ∧
      lineOf registry parsed report = .ok "\x7b\"a\": \"A\", \"b\": \x7b\"f\": \"B\"\x7d\x7d" ∧
      write false reportSchema (.list [report]) = .ok "\x7b\"a\": \"A\", \"b\": \"B\"\x7d" :=
  ⟨_, _, rfl, by cbv, by cbv⟩

end Avro.JsonEncoding
