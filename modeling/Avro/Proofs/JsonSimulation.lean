import Avro.Proofs.Acceptance
import Avro.Proofs.JsonForm
import Avro.Proofs.Lookups

/-!
Contract: an output follows the recursive JSON encoding.

Owns: the simulation, kind by kind and then for a whole value: writing a value along the grammar of
its schema adds the form of the value to the draft.

The grammar looks up error types and unions of errors under the words for them, as if they were
names of types. The simulation is for schemas within which there are no such types, or no types of
such names: without these, error types have no grammar.
-/

namespace Avro.JsonEncoding

open Datum (ofJson)
open Encode (Writer writeMap)
open Members (get?)
open Schema (attributeOf itemAt kindOf required)

variable {kind : Terminal} {own default : Option Default} {walk after : Output}
  {symbols rest deferred : List Symbol} {datum : Datum} {schema field : Json}
  {write : Writer Output} {form : Former} {values symbol : Symbol} {symbolFor : SymbolRule}
  {depth : Nat} {registry : Registry} {α : Type} {value key : Datum} {content : Draft}
  {left : List Symbol}

/-- A draft holds one more value than another one, and the value is the result of an operation. -/
def AddsResult (result : Outcome Datum) (base final : Draft) : Prop :=
  ∃ value, result = .ok value ∧ Adds value base final

/-! ### Elementary steps -/

theorem advanced {walk after : Output} {deferred symbols rest : List Symbol} {kind : Terminal}
    {own : Option Default}
    (leads : LeadsTo Draft.perform walk.start walk.pending
      (deferred ++ (.terminal kind own :: symbols ++ rest)))
    (silent : Symbol.areSilent deferred = true) (notEnd : kind.isEnd = false)
    (done : Output.advance kind walk = .ok () after) :
    ∃ base, runAll Draft.perform deferred walk.content = some base ∧
      after = ⟨walk.start, symbols ++ rest, base⟩ := by
  obtain ⟨default, between, reached, ends⟩ := step_bind_ok.mp done
  cases ends
  exact advance_leading leads silent notEnd reached

private theorem follows_scalar (notEnd : kind.isEnd = false) (own : Option Default)
    (value : Datum) :
    Follows (Output.writeScalar kind value) [.terminal kind own] fun _ => Adds value := by
  intro walk after _ deferred rest leads silent unmarked done
  obtain ⟨_, between, reached, written⟩ := step_bind_ok.mp done
  obtain ⟨base, ran, rfl⟩ := advanced leads silent notEnd reached
  obtain ⟨final, added, rfl⟩ := onContent_ok.mp written
  refine .something rfl rfl base ran [] rfl rfl fun other same => ?_
  cases same
  exact adds_of_writeValue added

private theorem follows_text (own : Option Default) (value : Datum) :
    Follows (Output.writeText value) [.terminal .string own] fun _ => Adds value := by
  intro walk after _ deferred rest leads silent unmarked done
  obtain ⟨_, between, reached, written⟩ := step_bind_ok.mp done
  obtain ⟨base, ran, rfl⟩ := advanced leads silent rfl reached
  obtain ⟨isKey, afterLook, looked, written⟩ := step_bind_ok.mp written
  cases rest with
  | nil => cases looked
  | cons symbol rest =>
    rw [List.nil_append, isNext_cons] at looked
    cases looked
    change symbol.isTerminal .mapKeyMarker = false at unmarked
    rw [unmarked] at written
    obtain ⟨final, added, rfl⟩ := onContent_ok.mp written
    refine .something rfl rfl base ran [] rfl rfl fun other same => ?_
    cases same
    exact adds_of_writeValue added

private theorem follows_octets (notEnd : kind.isEnd = false) (own : Option Default)
    (value : Datum) :
    Follows (Output.writeOctets kind value) [.terminal kind own] fun _ =>
      AddsResult (Form.octets value) := by
  intro walk after _ deferred rest leads silent unmarked done
  obtain ⟨_, between, reached, written⟩ := step_bind_ok.mp done
  obtain ⟨base, ran, rfl⟩ := advanced leads silent notEnd reached
  cases content : value.byteContent? with
  | none => simp [content] at written
  | some bytes =>
    simp only [content] at written
    obtain ⟨final, added, rfl⟩ := onContent_ok.mp written
    refine .something rfl rfl base ran [] rfl rfl fun other same => ?_
    cases same
    exact ⟨_, by simp [Form.octets, content], adds_of_writeValue added⟩

private theorem follows_enum (own : Option Default) (labels : Json) (index : Nat) :
    Follows (Output.writeEnum (.int index)) [.terminal .enum own, .enumLabels labels] fun _ =>
      AddsResult (do return ofJson (← Schema.documentItemAt labels index)) := by
  intro walk after _ deferred rest leads silent unmarked done
  obtain ⟨_, between, reached, written⟩ := step_bind_ok.mp done
  obtain ⟨base, ran, rfl⟩ := advanced leads silent rfl reached
  obtain ⟨symbol, _, isNext, written⟩ := step_bind_ok.mp written
  rw [List.singleton_append, next_cons] at isNext
  cases isNext
  obtain ⟨_, _, isLabels, written⟩ := step_bind_ok.mp written
  cases isLabels
  obtain ⟨place, _, isPlace, written⟩ := step_bind_ok.mp written
  cases isPlace
  obtain ⟨label, isLabel, written⟩ := writeLift_bind_ok.mp written
  obtain ⟨final, added, rfl⟩ := onContent_ok.mp written
  refine .something rfl rfl base ran [] rfl rfl fun other same => ?_
  cases same
  exact ⟨_, by rw [isLabel]; rfl, adds_of_writeValue added⟩

/-! ### Arrays -/

/-- When the terminal behind an action's symbols is reached, all that the action deferred has
run. -/
theorem Follows.upTo {action : WriteM Output α} {post : α → Draft → Draft → Prop} {value : α}
    {middle : Output} (follows : Follows action symbols post)
    (leads : LeadsTo Draft.perform walk.start walk.pending (symbols ++ .terminal kind own :: rest))
    (notEnd : kind.isEnd = false) (notMark : marksKey (.terminal kind own :: rest) = false)
    (done : action walk = .ok value middle) (reached : Output.advance kind middle = .ok () after) :
    ∃ final, post value walk.content final ∧ after = ⟨walk.start, rest, final⟩ := by
  cases @follows walk middle value [] _ leads rfl notMark done with
  | nothing silent unchanged runs =>
    subst unchanged
    obtain ⟨final, ran, rfl⟩ := @advanced _ _ symbols [] rest kind own leads silent notEnd reached
    exact ⟨final, runs _ final rfl ran, rfl⟩
  | something loud sameStart base ranNothing left leftSilent pending runs =>
    cases ranNothing
    have leadsOn : LeadsTo Draft.perform middle.start middle.pending
        (left ++ .terminal kind own :: rest) := by
      rw [pending]
      exact LeadsTo.refl _
    obtain ⟨final, ran, rfl⟩ :=
      @advanced _ _ left [] rest kind own leadsOn leftSilent notEnd reached
    exact ⟨final, runs final ran, by rw [sameStart]; rfl⟩

section Array

variable {write : Writer Output} {form : Datum → Outcome Datum} {schema field : Json}
  {item start : Symbol} {rest : List Symbol}

/-- The items of an array are added to the list that is being filled, and the repeater is pending
again. -/
theorem writeItems_adds
    (follows : ∀ datum, Follows (write datum schema field) [item] fun _ => AddsResult (form datum))
    (data : List Datum) {filled : List Datum} {after : Output}
    (isList : content.current = .list filled)
    (done : Encode.writeItems write schema field data
      ⟨start, .repeater .arrayEnd [item, .terminal .itemEnd none] :: rest, content⟩ =
        .ok () after) :
    ∃ forms key, data.mapM form = .ok forms ∧
      after = ⟨start, .repeater .arrayEnd [item, .terminal .itemEnd none] :: rest,
        { content with current := .list (filled ++ forms), key := key }⟩ := by
  induction data generalizing content filled with
  | nil =>
    cases done
    refine ⟨[], content.key, rfl, ?_⟩
    rw [List.append_nil, ← isList]
  | cons datum data ih =>
    obtain ⟨_, middle, written, done⟩ := step_bind_ok.mp done
    obtain ⟨_, ended, reached, done⟩ := step_bind_ok.mp done
    obtain ⟨added, ⟨value, isValue, adds⟩, rfl⟩ := (follows datum).upTo
      (LeadsTo.repeater rfl [item, .terminal .itemEnd none] rest) rfl rfl written reached
    obtain ⟨key, rfl⟩ := adds.toList isList
    obtain ⟨forms, later, areForms, rfl⟩ := ih rfl done
    exact ⟨value :: forms, later, by simp [isValue, areForms], by simp⟩

end Array

/-- The start of a collection is reached, and the draft is within it. -/
theorem collection_started {collection : Datum}
    (leads : LeadsTo Draft.perform walk.start walk.pending
      (deferred ++ (.terminal kind own :: symbols ++ rest)))
    (silent : Symbol.areSilent deferred = true) (notEnd : kind.isEnd = false)
    (done : (do Output.advance kind; WalkM.onContent (Draft.push collection) : WriteM Output Unit)
      walk = .ok () after) :
    ∃ base, runAll Draft.perform deferred walk.content = some base ∧
      after = ⟨walk.start, symbols ++ rest, base.within collection base.key⟩ := by
  obtain ⟨_, between, reached, pushed⟩ := step_bind_ok.mp done
  obtain ⟨base, ran, rfl⟩ := advanced leads silent notEnd reached
  obtain ⟨inner, isInner, rfl⟩ := onContent_ok.mp pushed
  cases isInner
  exact ⟨base, ran, rfl⟩

/-- The end of a collection is reached, what was deferred within it has run, and the collection has
been added. -/
theorem collection_ended {start : Symbol} {symbols rest : List Symbol} {after : Output}
    {stop : Terminal}
    (silent : Symbol.areSilent left = true)
    (done : (do Output.advance stop; WalkM.onContent Draft.pop : WriteM Output Unit)
      ⟨start, left ++ .repeater stop symbols :: rest, content⟩ = .ok () after) :
    ∃ inner final, runAll Draft.perform left content = some inner ∧ Draft.pop inner = .ok () final ∧
      after = ⟨start, rest, final⟩ := by
  obtain ⟨_, between, reached, popped⟩ := step_bind_ok.mp done
  obtain ⟨default, _, reached, ends⟩ := step_bind_ok.mp reached
  cases ends
  obtain ⟨inner, ran, ended⟩ := (advances_silent_append silent _ _).mp (advances_of_advance reached)
  obtain ⟨_, rfl⟩ := advances_repeater_end.mp ended
  obtain ⟨final, isFinal, rfl⟩ := onContent_ok.mp popped
  exact ⟨inner, final, ran, isFinal, rfl⟩

private theorem writeArray_ok
    (done : Encode.writeArray write schema field datum walk = .ok () after) :
    ∃ items started filled, datum.iterated? = some items ∧
      (do Output.advance .arrayStart; WalkM.onContent (Draft.push (.list [])) :
        WriteM Output Unit) walk =
        .ok () started ∧
      (items = [] ∧ filled = started ∨ ∃ node, attributeOf schema "items" = .ok node ∧
        Encode.writeItems write node field items started = .ok () filled) ∧
      (do Output.advance .arrayEnd; WalkM.onContent Draft.pop : WriteM Output Unit) filled =
        .ok () after := by
  obtain ⟨_, started, isStarted, body⟩ := step_bind_ok.mp done
  obtain ⟨count, _, sized, filling⟩ := step_bind_ok.mp body
  obtain ⟨isSize, -, rfl⟩ := size_ok.mp sized
  obtain ⟨items, areItems, isLength⟩ := iterated?_of_size? isSize
  by_cases hasItems : count > 0
  · rw [if_pos hasItems, areItems] at filling
    obtain ⟨_, _, counted, lookingUp⟩ := step_bind_ok.mp filling
    cases counted
    obtain ⟨node, isNode, writing⟩ := writeLift_bind_ok.mp lookingUp
    obtain ⟨_, filled, isFilled, ended⟩ := step_bind_ok.mp writing
    exact ⟨items, _, filled, areItems, isStarted, .inr ⟨node, isNode, isFilled⟩, ended⟩
  · rw [if_neg hasItems] at filling
    have isEmpty : items = [] := List.length_eq_zero_iff.mp (by omega)
    exact ⟨items, _, _, areItems, isStarted, .inl ⟨isEmpty, rfl⟩, filling⟩

private theorem follows_array {item : Symbol}
    (follows : ∀ items, attributeOf schema "items" = .ok items →
      ∀ datum, Follows (write datum items field) [item] fun _ => AddsResult (form items datum))
    (datum : Datum) :
    Follows (Encode.writeArray write schema field datum)
      [.terminal .arrayStart own, .repeater .arrayEnd [item, .terminal .itemEnd none]] fun _ =>
        AddsResult (Form.array form schema datum) := by
  intro walk after _ deferred rest leads silent unmarked done
  obtain ⟨items, started, filled, areItems, isStarted, isFilled, isEnded⟩ := writeArray_ok done
  obtain ⟨base, ran, rfl⟩ := collection_started leads silent rfl isStarted
  have hasForms : ∃ forms key,
    (items.mapM fun item => do form (← attributeOf schema "items") item) = .ok forms ∧
      filled = ⟨walk.start, .repeater .arrayEnd [item, .terminal .itemEnd none] :: rest,
        base.within (.list forms) key⟩ := by
    rcases isFilled with ⟨rfl, rfl⟩ | ⟨node, isNode, isFilled⟩
    · exact ⟨[], base.key, rfl, rfl⟩
    · obtain ⟨forms, key, areForms, rfl⟩ := writeItems_adds (follows node isNode) items rfl isFilled
      refine ⟨forms, key, ?_, rfl⟩
      simpa only [isNode, outcome_ok_bind] using areForms
  obtain ⟨forms, key, areForms, rfl⟩ := hasForms
  obtain ⟨inner, final, isInner, popped, rfl⟩ := @collection_ended _ [] _ _ _ _ _ rfl isEnded
  cases isInner
  refine .something rfl rfl base ran [] rfl rfl fun other same => ?_
  cases same
  exact ⟨.list forms, by simp only [Form.array, areItems, areForms]; rfl, adds_of_pop popped⟩

/-! ### Maps -/

/-- The draft after entries have been set in the mapping that is being filled. The last key stays
set. -/
def SetsEntries (result : Outcome (List (Datum × Datum))) (base final : Draft) : Prop :=
  ∃ entries, result = .ok entries ∧ ∀ filled, base.current = .dict filled →
    ∃ key, final = { base with
      current := .dict (entries.foldl (fun filled entry => Draft.setEntry filled entry.1 entry.2)
        filled), key := key }

theorem SetsEntries.nil (base : Draft) : SetsEntries (.ok []) base base := by
  refine ⟨[], rfl, fun filled isMapping => ⟨base.key, ?_⟩⟩
  rw [List.foldl_nil, ← isMapping]

/-- A value that is added under a key is one more entry, before those that follow. -/
theorem SetsEntries.cons {others : Outcome (List (Datum × Datum))} {base between final : Draft}
    (adds : Adds value { base with key := key } between) (sets : SetsEntries others between final) :
    SetsEntries (do return (key, value) :: (← others)) base final := by
  obtain ⟨entries, rfl, setsOthers⟩ := sets
  refine ⟨(key, value) :: entries, rfl, fun filled isMapping => ?_⟩
  obtain ⟨later, rfl⟩ := adds.toMapping isMapping
  exact setsOthers _ rfl

/-- The key of an entry is reached behind what the entry before it deferred, and is set. -/
theorem key_set {start : Symbol} (silent : Symbol.areSilent left = true)
    (done : Output.writeText key ⟨start, left ++ .repeater .mapEnd
      [.terminal .string none, .terminal .mapKeyMarker none, values] :: rest, content⟩ =
      .ok () after) :
    ∃ base, runAll Draft.perform left content = some base ∧
      after = ⟨start, values :: .repeater .mapEnd
        [.terminal .string none, .terminal .mapKeyMarker none, values] :: rest,
        { base with key := key }⟩ := by
  obtain ⟨_, between, reached, written⟩ := step_bind_ok.mp done
  have leads : LeadsTo Draft.perform start _
    (left ++ ([.terminal .string none, .terminal .mapKeyMarker none, values] ++
      .repeater .mapEnd [.terminal .string none, .terminal .mapKeyMarker none, values] :: rest)) :=
    LeadsTo.behind silent (LeadsTo.repeater rfl _ rest)
  obtain ⟨base, ran, rfl⟩ :=
    @advanced _ _ left [.terminal .mapKeyMarker none, values] _ _ _ leads silent rfl reached
  obtain ⟨isKey, _, looked, writing⟩ := step_bind_ok.mp written
  rw [List.cons_append, isNext_cons] at looked
  cases looked
  obtain ⟨_, between, marked, setting⟩ := step_bind_ok.mp writing
  obtain ⟨same, ranNothing, rfl⟩ :=
    @advanced ⟨start, _, base⟩ _ [] [values] _ .mapKeyMarker none (LeadsTo.refl _) rfl rfl marked
  cases ranNothing
  cases setting
  exact ⟨base, ran, rfl⟩

section Map

variable {write : Writer Output} {form : Datum → Outcome Datum} {schema field : Json}
  {values start : Symbol} {rest : List Symbol}

/-- The entries of a map are set in the mapping that is being filled, when what is deferred has
run. -/
theorem writeEntries_sets
    (follows : ∀ datum, Follows (write datum schema field) [values] fun _ =>
      AddsResult (form datum))
    (entries : List (Datum × Datum)) {after : Output} {holds : Draft → Prop}
    (silent : Symbol.areSilent left = true)
    (runs : ∀ base, runAll Draft.perform left content = some base → holds base)
    (done : Encode.writeEntries write schema field entries ⟨start, left ++ .repeater .mapEnd
      [.terminal .string none, .terminal .mapKeyMarker none, values] :: rest, content⟩ =
      .ok () after) :
    ∃ later finalContent, Symbol.areSilent later = true ∧
      after = ⟨start, later ++ .repeater .mapEnd
        [.terminal .string none, .terminal .mapKeyMarker none, values] :: rest, finalContent⟩ ∧
      ∀ final, runAll Draft.perform later finalContent = some final →
        ∃ base, holds base ∧ SetsEntries
          (entries.mapM fun entry => do return (entry.1, ← form entry.2)) base final := by
  induction entries generalizing left content holds with
  | nil =>
    cases done
    exact ⟨left, content, silent, rfl, fun final ran =>
      ⟨final, runs final ran, SetsEntries.nil final⟩⟩
  | cons entry entries ih =>
    obtain ⟨key, datum⟩ := entry
    obtain ⟨_, keyed, isKeyed, writing⟩ := step_bind_ok.mp done
    obtain ⟨base, ran, rfl⟩ := key_set silent isKeyed
    obtain ⟨_, ⟨ownStart, pending, written⟩, isWritten, others⟩ := step_bind_ok.mp writing
    obtain ⟨sameStart, valueLeft, valueSilent, isPending, adds⟩ :=
      @Follows.atPending _ _ [values] _ (follows datum) _ (.repeater .mapEnd _ :: rest) _ _ _
        rfl isWritten
    cases sameStart
    cases isPending
    obtain ⟨later, finalContent, laterSilent, rfl, sets⟩ := ih valueSilent adds others
    refine ⟨later, finalContent, laterSilent, rfl, fun final ranLater => ?_⟩
    obtain ⟨between, ⟨value, isValue, added⟩, setsOthers⟩ := sets final ranLater
    refine ⟨base, runs base ran, ?_⟩
    simpa [List.mapM_cons, isValue] using SetsEntries.cons added setsOthers

end Map

private theorem writeMap_ok (done : writeMap write schema field datum walk = .ok () after) :
    ∃ started filled,
      (do Output.advance .mapStart; WalkM.onContent (Draft.push (.dict [])) :
        WriteM Output Unit) walk =
        .ok () started ∧
      (datum.size? = some 0 ∧ filled = started ∨ ∃ entries node, datum = .dict entries ∧
        attributeOf schema "values" = .ok node ∧
        Encode.writeEntries write node field entries started = .ok () filled) ∧
      (do Output.advance .mapEnd; WalkM.onContent Draft.pop : WriteM Output Unit) filled =
        .ok () after := by
  obtain ⟨_, started, isStarted, body⟩ := step_bind_ok.mp done
  obtain ⟨count, _, sized, filling⟩ := step_bind_ok.mp body
  obtain ⟨isSize, -, rfl⟩ := size_ok.mp sized
  by_cases hasItems : count > 0
  · rw [if_pos hasItems] at filling
    obtain ⟨_, _, counted, lookingUp⟩ := step_bind_ok.mp filling
    cases counted
    obtain ⟨node, isNode, writing⟩ := writeLift_bind_ok.mp lookingUp
    cases datum with
    | dict entries =>
      obtain ⟨_, filled, isFilled, ended⟩ := step_bind_ok.mp writing
      exact ⟨_, filled, isStarted, .inr ⟨entries, node, rfl, isNode, isFilled⟩, ended⟩
    | _ => cases writing
  · rw [if_neg hasItems] at filling
    obtain rfl : count = 0 := by omega
    exact ⟨_, _, isStarted, .inl ⟨isSize, rfl⟩, filling⟩

private theorem follows_map (follows : ∀ node, attributeOf schema "values" = .ok node → ∀ datum,
      Follows (write datum node field) [values] fun _ => AddsResult (form node datum))
    (datum : Datum) :
    Follows (writeMap write schema field datum)
      [.terminal .mapStart own, .repeater .mapEnd
        [.terminal .string none, .terminal .mapKeyMarker none, values]]
        fun _ => AddsResult (Form.map form schema datum) := by
  intro walk after _ deferred rest leads silent unmarked done
  obtain ⟨started, filled, isStarted, isFilled, isEnded⟩ := writeMap_ok done
  obtain ⟨base, ran, rfl⟩ := collection_started leads silent rfl isStarted
  -- What is deferred when the end is reached has to run, and then the mapping is complete.
  have hasEntries : ∃ left content, Symbol.areSilent left = true ∧
    filled = ⟨walk.start, left ++ .repeater .mapEnd
      [.terminal .string none, .terminal .mapKeyMarker none, values] :: rest, content⟩ ∧
      ∀ final, runAll Draft.perform left content = some final →
        ∃ value key, Form.map form schema datum = .ok value ∧ final = base.within value key := by
    rcases isFilled with ⟨isEmpty, rfl⟩ | ⟨entries, node, rfl, isNode, isFilled⟩
    · refine ⟨[], _, rfl, rfl, fun final same => ?_⟩
      cases same
      refine ⟨.dict [], base.key, ?_, rfl⟩
      unfold Form.map
      split
      · obtain rfl := List.length_eq_zero_iff.mp (Option.some.inj isEmpty)
        rfl
      · rw [if_pos isEmpty]
        rfl
    · obtain ⟨left, content, leftSilent, rfl, sets⟩ :=
        @writeEntries_sets _ [] _ _ _ _ _ _ rest (follows node isNode) entries _
          (· = base.within (.dict []) base.key) rfl
          (fun final same => (Option.some.inj same).symm) isFilled
      refine ⟨left, content, leftSilent, rfl, fun final ranLeft => ?_⟩
      obtain ⟨_, rfl, forms, areForms, setsForms⟩ := sets final ranLeft
      obtain ⟨key, rfl⟩ := setsForms [] rfl
      refine ⟨Form.gather forms, key, ?_, rfl⟩
      simp only [Form.map, isNode, outcome_ok_bind, areForms]
      rfl
  obtain ⟨left, content, leftSilent, rfl, complete⟩ := hasEntries
  obtain ⟨inner, final, ranLeft, popped, rfl⟩ := collection_ended leftSilent isEnded
  obtain ⟨value, key, isValue, rfl⟩ := complete inner ranLeft
  refine .something rfl rfl base ran [] rfl rfl fun other same => ?_
  cases same
  exact ⟨value, isValue, adds_of_pop popped⟩

/-! ### Unions -/

private theorem mapM_getElem? {β : Type} {change : α → Outcome β} {items : List α}
    {results : List β} {place : Nat} {item : α} (done : items.mapM change = .ok results)
    (found : items[place]? = some item) :
    ∃ result, change item = .ok result ∧ results[place]? = some result := by
  rw [mapM_ok] at done
  induction done generalizing place with
  | nil => cases found
  | cons isResult _ ih =>
    cases place with
    | zero =>
      cases found
      exact ⟨_, isResult, rfl⟩
    | succ place => exact ih found

/-- The branch of a union is prepared: the null branch stands by itself, any other within a mapping
under its label. -/
theorem branch_chosen {branches : List Symbol} {labels : List Json} {index : Nat}
    (leads : LeadsTo Draft.perform walk.start walk.pending
      (deferred ++ ([.terminal .union own, .alternative branches labels default] ++ rest)))
    (silent : Symbol.areSilent deferred = true)
    (done : Output.writeIndex (.int index) walk = .ok () after) :
    ∃ base branch, runAll Draft.perform deferred walk.content = some base ∧
      itemAt branches index = .ok branch ∧
      (branch.isTerminal .null = true ∧ after = ⟨walk.start, branch :: rest, base⟩ ∨
        branch.isTerminal .null = false ∧ ∃ label, itemAt labels index = .ok label ∧
          after = ⟨walk.start, branch :: .unionEnd :: rest,
            base.within (.dict []) (ofJson label)⟩) := by
  obtain ⟨_, between, reached, written⟩ := step_bind_ok.mp done
  obtain ⟨base, ran, rfl⟩ := advanced leads silent rfl reached
  obtain ⟨symbol, _, isNext, choosing⟩ := step_bind_ok.mp written
  rw [List.singleton_append, next_cons] at isNext
  cases isNext
  obtain ⟨place, _, isPlace, choosing⟩ := step_bind_ok.mp choosing
  cases isPlace
  obtain ⟨branch, isBranch, preparing⟩ := writeLift_bind_ok.mp choosing
  refine ⟨base, branch, ran, isBranch, ?_⟩
  cases null : branch.isTerminal .null with
  | true =>
    rw [null] at preparing
    cases preparing
    exact .inl ⟨rfl, rfl⟩
  | false =>
    rw [null] at preparing
    obtain ⟨_, _, pushed, labelling⟩ := step_bind_ok.mp preparing
    cases pushed
    obtain ⟨label, isLabel, setting⟩ := writeLift_bind_ok.mp labelling
    cases setting
    exact .inr ⟨rfl, label, isLabel, rfl⟩

private theorem follows_union {branches : List Json}
    (areBranches : Schema.iterate schema = .ok branches)
    (areSymbols : branches.mapM (symbolFor none) = .ok symbols)
    (follows : ∀ branch ∈ branches, ∀ symbol, symbolFor none branch = .ok symbol →
      ∀ datum, Follows (write datum branch field) [symbol] fun _ => AddsResult (form branch datum))
    (nulls : ∀ branch ∈ branches, ∀ symbol, symbolFor none branch = .ok symbol →
      symbol.isTerminal .null = Form.isNull registry depth branch)
    (nullForms : ∀ branch datum value, Form.isNull registry depth branch = true →
      form branch datum = .ok value → value = .null)
    (datum : Datum) :
    Follows (Encode.writeUnion registry depth write schema field datum)
      [.terminal .union none, .alternative symbols (branches.map branchLabel) own] fun _ =>
        AddsResult (Form.union registry depth form schema datum) := by
  intro walk after _ deferred rest leads silent unmarked done
  obtain ⟨⟨index, value⟩, isChosen, looking⟩ := writeLift_bind_ok.mp done
  obtain ⟨branch, isBranch, choosing⟩ := writeLift_bind_ok.mp looking
  obtain ⟨_, chosen, isIndexed, writing⟩ := step_bind_ok.mp choosing
  obtain ⟨base, symbol, ran, isSymbol, prepared⟩ := branch_chosen leads silent isIndexed
  -- The symbol and the label at the place of the branch are those of the branch.
  obtain ⟨small, items, areItems, branchAt⟩ := documentItemAt_ok isBranch
  obtain rfl : items = branches := Except.ok.inj (areItems.symm.trans areBranches)
  have isMember := List.mem_of_getElem? branchAt
  obtain ⟨other, hasSymbol, symbolAt⟩ := mapM_getElem? areSymbols branchAt
  obtain rfl : symbol = other := Option.some.inj ((itemAt_ok.mp isSymbol).2.symm.trans symbolAt)
  have chosenForm : Form.union registry depth form schema datum =
      if Form.isNull registry depth branch then .ok .null
      else do return .dict [(ofJson (branchLabel branch), ← form branch value)] := by
    simp only [Form.union, choose_ok_field isChosen, isBranch, outcome_ok_bind]
    rfl
  rcases prepared with ⟨isNull, rfl⟩ | ⟨notNull, label, isLabel, rfl⟩
  · obtain ⟨sameStart, left, leftSilent, isPending, adds⟩ :=
      @Follows.atPending _ _ [symbol] _ (follows branch isMember symbol hasSymbol value) _ rest _ _
        _ unmarked writing
    refine .something rfl sameStart base ran left leftSilent isPending fun final ranLeft => ?_
    obtain ⟨added, isAdded, addsValue⟩ := adds final ranLeft
    rw [nulls branch isMember symbol hasSymbol] at isNull
    obtain rfl := nullForms branch value added isNull isAdded
    exact ⟨.null, by rw [chosenForm, if_pos isNull], addsValue⟩
  · obtain ⟨sameStart, left, leftSilent, isPending, adds⟩ :=
      @Follows.atPending _ _ [symbol] _ (follows branch isMember symbol hasSymbol value) _
        (.unionEnd :: rest) _ _ _ rfl writing
    refine .something rfl sameStart base ran (left ++ [.unionEnd])
      (by simp [leftSilent, Symbol.isSilent])
      (by rw [isPending, List.append_assoc]; rfl) fun final ranLeft => ?_
    obtain ⟨between, ranValue, ended⟩ := (runAll_append_some _).mp ranLeft
    obtain ⟨added, isAdded, addsValue⟩ := adds between ranValue
    obtain ⟨key, rfl⟩ := addsValue.toMapping rfl
    rw [runAll_action _ rfl, carriedOut_some] at ended
    rw [nulls branch isMember symbol hasSymbol] at notNull
    rw [itemAt_ok, List.getElem?_map, branchAt] at isLabel
    cases isLabel.2
    refine ⟨.dict [(ofJson (branchLabel branch), added)], ?_, adds_of_pop ended⟩
    rw [chosenForm, notNull, isAdded]
    rfl

/-! ### Records -/

section Record

variable {write : Writer Output} {form : Former} {symbolFor : SymbolRule}
variable {lists : List (List Symbol)} {nodes : List Json} {owner : Json} {symbol : Symbol}

theorem marksKey_fields (areSymbols : nodes.mapM (fieldSymbols symbolFor owner) = .ok lists) :
    marksKey lists.flatten = false := by
  cases mapM_ok.mp areSymbols with
  | nil => rfl
  | cons isFirst _ =>
    obtain ⟨name, _, isFirst⟩ := outcome_bind_ok.mp isFirst
    obtain ⟨type, _, isFirst⟩ := outcome_bind_ok.mp isFirst
    obtain ⟨symbol, _, ⟨⟩⟩ := outcome_bind_ok.mp isFirst
    rfl

private theorem follows_field {action : WriteM Output Unit} {result : Outcome Datum}
    (follows : Follows action [symbol] fun _ => AddsResult result)
    (unmarked : marksKey [symbol] = false) (name : Json) :
    Follows action [.fieldStart name, symbol, .fieldEnd] fun _ base final =>
      AddsResult result { base with key := ofJson name } final := by
  have started : Follows action ([.fieldStart name] ++ [symbol]) _ := follows.before rfl unmarked
  have ended : Follows action (([.fieldStart name] ++ [symbol]) ++ [.fieldEnd]) _ :=
    started.behind rfl rfl
  refine ended.mono ?_
  rintro _ base final ⟨written, ⟨named, isNamed, adds⟩, isEnded⟩
  rw [runAll_action _ rfl, carriedOut_some] at isNamed isEnded
  cases isNamed
  cases isEnded
  exact adds

private theorem follows_fields (areSymbols : nodes.mapM (fieldSymbols symbolFor owner) = .ok lists)
    (follows : ∀ node ∈ nodes, ∀ type, attributeOf node "type" = .ok type →
      ∀ default symbol, symbolFor default type = .ok symbol →
        marksKey [symbol] = false ∧ ∀ datum field,
        Follows (write datum type field) [symbol] fun _ => AddsResult (form type datum))
    (datum : Datum) :
    Follows (Encode.writeFields write datum nodes) lists.flatten fun _ =>
      SetsEntries (nodes.mapM (Form.field form datum)) := by
  induction nodes generalizing lists with
  | nil =>
    cases areSymbols
    refine (Follows.pure () rfl).mono ?_
    rintro _ base final ⟨_, same⟩
    cases same
    exact SetsEntries.nil base
  | cons node nodes ih =>
    obtain _ | ⟨isFirst, others⟩ := mapM_ok.mp areSymbols
    have areOthers := mapM_ok.mpr others
    obtain ⟨name, isName, isFirst⟩ := outcome_bind_ok.mp isFirst
    obtain ⟨type, isType, isFirst⟩ := outcome_bind_ok.mp isFirst
    obtain ⟨symbol, isSymbol, ⟨⟩⟩ := outcome_bind_ok.mp isFirst
    rw [List.forall_mem_cons] at follows
    obtain ⟨unmarked, followsType⟩ := follows.1 type isType _ symbol isSymbol
    cases node with
    | obj members =>
      refine Follows.lift fun own isOwn => Follows.lift fun _ present => ?_
      obtain rfl : name = own := Except.ok.inj (isName.symm.trans isOwn)
      cases datum with
      | dict entries =>
        refine Follows.lift fun own isOwn => ?_
        obtain rfl : type = own := Except.ok.inj (isType.symm.trans isOwn)
        have field := follows_field
          (followsType (Validation.fieldValue entries name ((get? members "default").getD .null))
            name) unmarked name
        refine (field.bind (fun _ => ih areOthers follows.2) (marksKey_fields areOthers)).mono ?_
        rintro _ base final ⟨_, between, ⟨value, isValue, adds⟩, sets⟩
        have isField : Form.field form (.dict entries) (.obj members) =
            .ok (ofJson name, value) := by
          change required members "name" = .ok name at isName
          change required members "type" = .ok type at isType
          simp [Form.field, Former.field, Validation.fieldView, isName,
            keyOf_of_checkPresence present, isType, isValue]
        rw [List.mapM_cons, isField]
        exact SetsEntries.cons adds sets
      | _ =>
        intro walk after _ deferred rest leads silent restUnmarked done
        cases done
    | _ => cases isName

private theorem follows_record {schema : Json} {default : Option Default}
    (isSymbol : recordSymbol symbolFor default schema = .ok symbol)
    (follows : ∀ nodes node type, Decode.fieldsOf schema = .ok nodes → node ∈ nodes →
      attributeOf node "type" = .ok type → ∀ default symbol, symbolFor default type = .ok symbol →
      marksKey [symbol] = false ∧ ∀ datum field, Follows (write datum type field) [symbol] fun _ =>
        AddsResult (form type datum))
    (datum : Datum) :
    Follows (Encode.writeRecord write schema datum) [symbol] fun _ =>
      AddsResult (Form.record form schema datum) := by
  obtain ⟨fields, isFields, isSymbol⟩ := outcome_bind_ok.mp isSymbol
  obtain ⟨nodes, areNodes, isSymbol⟩ := outcome_bind_ok.mp isSymbol
  obtain ⟨lists, areSymbols, isSymbol⟩ := outcome_bind_ok.mp isSymbol
  cases isSymbol
  refine Follows.lift fun own isOwn => Follows.lift fun ownNodes areOwn => ?_
  obtain rfl : fields = own := Except.ok.inj (isFields.symm.trans isOwn)
  obtain rfl : nodes = ownNodes := Except.ok.inj (areNodes.symm.trans areOwn)
  have inside := follows_fields areSymbols (fun node isNode type =>
    follows nodes node type (Schema.fieldsOf_ok isFields areNodes) isNode) datum
  have started : Follows _ ([.recordStart default] ++ lists.flatten) _ :=
    inside.before rfl (marksKey_fields areSymbols)
  have ended : Follows _ (([.recordStart default] ++ lists.flatten) ++ [.recordEnd]) _ :=
    started.behind rfl rfl
  refine ended.sequence.mono ?_
  rintro _ base final ⟨filled, ⟨opened, isOpened, entries, areEntries, sets⟩, isEnded⟩
  rw [runAll_action _ rfl, carriedOut_some] at isOpened isEnded
  cases isOpened
  obtain ⟨key, rfl⟩ := sets [] rfl
  refine ⟨Form.gather entries, ?_, adds_of_pop isEnded⟩
  simp only [Form.record, Decode.fieldsOf, isFields, areNodes, outcome_ok_bind, areEntries]
  rfl

end Record

/-! ### Values -/

theorem grammar_succ (isSymbol : grammar registry (depth + 1) default schema = .ok symbol) :
    ∃ kind, kindOf schema = .ok kind ∧
      kindSymbol (grammar registry depth) registry default schema kind = .ok symbol := by
  obtain ⟨type, isType, isSymbol⟩ := outcome_bind_ok.mp isSymbol
  obtain ⟨kind, isKind, isSymbol⟩ := outcome_bind_ok.mp isSymbol
  exact ⟨kind, by rw [kindOf, isType]; exact isKind, isSymbol⟩

/-- The kinds whose grammar is a sequence. -/
def isComposite : Kind → Bool
  | .record => true
  | .union => true
  | .map => true
  | .array => true
  | .enum => true
  | _ => false

private theorem sequence_of_isComposite {kind : Kind} (composite : isComposite kind = true)
    (isSymbol : kindSymbol symbolFor registry default schema kind = .ok symbol) :
    ∃ parts, symbol = .sequence parts := by
  cases kind with
  | record =>
    obtain ⟨_, _, isSymbol⟩ := outcome_bind_ok.mp isSymbol
    obtain ⟨_, _, isSymbol⟩ := outcome_bind_ok.mp isSymbol
    obtain ⟨_, _, isSymbol⟩ := outcome_bind_ok.mp isSymbol
    cases isSymbol
    exact ⟨_, rfl⟩
  | union | map | array =>
    obtain ⟨_, _, isSymbol⟩ := outcome_bind_ok.mp isSymbol
    obtain ⟨_, _, isSymbol⟩ := outcome_bind_ok.mp isSymbol
    cases isSymbol
    exact ⟨_, rfl⟩
  | enum =>
    obtain ⟨_, _, isSymbol⟩ := outcome_bind_ok.mp isSymbol
    cases isSymbol
    exact ⟨_, rfl⟩
  | _ => cases composite

theorem namedSymbol_ok {name : String}
    (isSymbol : namedSymbol symbolFor registry name = .ok symbol) :
    ∃ definition, get? registry name = some definition ∧
      symbolFor none definition = .ok symbol := by
  unfold namedSymbol at isSymbol
  cases found : get? registry name with
  | none => simp [found] at isSymbol
  | some definition =>
    rw [found] at isSymbol
    exact ⟨definition, rfl, isSymbol⟩

/-- Where there is an error type within a schema, no type is registered under the word for it: the
grammar looks for error types there. -/
def LacksErrors (registry : Registry) (schema : Json) : Prop :=
  ∀ ⦃part⦄, Schema.Within registry schema part →
    (kindOf part = .ok .error → get? registry "error" = none) ∧
      (kindOf part = .ok .errorUnion → get? registry "error_union" = none)

theorem LacksErrors.part {part : Json} (lacksErrors : LacksErrors registry schema)
    (isPart : part ∈ Schema.partsOf registry schema) : LacksErrors registry part :=
  fun _ within => lacksErrors (.head isPart within)

theorem LacksErrors.definition {name : String} {definition : Json}
    (lacksErrors : LacksErrors registry schema)
    (isName : kindOf schema = .ok (.named name) ∨ kindOf schema = .ok .request ∧ name = "request")
    (found : get? registry name = some definition) : LacksErrors registry definition := by
  refine lacksErrors.part ?_
  rcases isName with isKind | ⟨isKind, rfl⟩
  · rw [Schema.partsOf, isKind]
    exact Option.mem_toList.mpr found
  · rw [Schema.partsOf, isKind]
    exact List.mem_append_left _ (Option.mem_toList.mpr found)

private theorem jsonForm_of_isNull (isNull : Form.isNull registry depth schema = true)
    (isValue : jsonForm registry depth schema datum = .ok value) : value = .null := by
  induction depth generalizing schema with
  | zero => cases isNull
  | succ depth ih =>
    obtain ⟨kind, isKind, isValue⟩ := outcome_bind_ok.mp isValue
    rw [Form.isNull, isKind] at isNull
    have ofName (name : String)
        (isNull : ((get? registry name).map (Form.isNull registry depth)).getD false = true)
        (isValue : (do jsonForm registry depth (← Schema.resolve registry name) datum) =
          .ok value) :
        value = .null := by
      obtain ⟨definition, isDefinition, isValue⟩ := outcome_bind_ok.mp isValue
      rw [Schema.resolve_ok.mp isDefinition] at isNull
      exact ih isNull isValue
    cases kind with
    | null =>
      obtain ⟨_, _, isValue⟩ := outcome_bind_ok.mp isValue
      cases isValue
      rfl
    | named name => exact ofName name isNull isValue
    | request => exact ofName "request" isNull isValue
    | _ => cases isNull

section Value

variable {registry : Registry} {symbol : Symbol} {schema : Json} {default : Option Default}
  {depth : Nat}
variable (lacksErrors : LacksErrors registry schema)
include lacksErrors

/-- The grammar of a schema is not an action. If it is a terminal, it is not the mark of a key, and
it is null for the null type only. -/
theorem terminal_of_grammar (isSymbol : grammar registry depth default schema = .ok symbol) :
    WalkM.isAction symbol = false ∧ marksKey [symbol] = false ∧
      symbol.isTerminal .null = Form.isNull registry depth schema := by
  induction depth generalizing default schema with
  | zero => cases isSymbol
  | succ depth ih =>
    obtain ⟨kind, isKind, isSymbol⟩ := grammar_succ isSymbol
    cases composite : isComposite kind with
    | true =>
      obtain ⟨parts, rfl⟩ := sequence_of_isComposite composite isSymbol
      rw [Form.isNull, isKind]
      cases kind with
      | record | union | map | array | enum => exact ⟨rfl, rfl, rfl⟩
      | _ => cases composite
    | false =>
      rw [Form.isNull, isKind]
      cases kind with
      | named name =>
        obtain ⟨definition, found, isSymbol⟩ := namedSymbol_ok isSymbol
        simpa [found] using ih (lacksErrors.definition (.inl isKind) found) isSymbol
      | request =>
        obtain ⟨definition, found, isSymbol⟩ := namedSymbol_ok isSymbol
        simpa [found] using ih (lacksErrors.definition (.inr ⟨isKind, rfl⟩) found) isSymbol
      | error =>
        obtain ⟨definition, found, _⟩ := namedSymbol_ok isSymbol
        cases ((lacksErrors .refl).1 isKind).symm.trans found
      | errorUnion =>
        obtain ⟨definition, found, _⟩ := namedSymbol_ok isSymbol
        cases ((lacksErrors .refl).2 isKind).symm.trans found
      | foreign value => cases isSymbol
      | record | union | map | array | enum => cases composite
      | _ =>
        cases isSymbol
        exact ⟨rfl, rfl, rfl⟩

/-- A value of a built-in kind adds its form, if this holds of the values within it. -/
theorem follows_kind {field : Json} {kind : Kind} (isKind : kindOf schema = .ok kind)
    (below : ∀ default part symbol, LacksErrors registry part →
      grammar registry depth default part = .ok symbol →
      ∀ datum field, Follows (Encode.write registry depth datum part field) [symbol] fun _ =>
        AddsResult (jsonForm registry depth part datum))
    (isSymbol : kindSymbol (grammar registry depth) registry default schema kind = .ok symbol)
    (datum : Datum) :
    Follows (Encode.writeKind registry depth (Encode.write registry depth) schema field datum kind)
      [symbol] fun _ =>
      AddsResult (Form.kind registry depth (jsonForm registry depth) schema datum kind) := by
  have self {kind : Terminal} {action : WriteM Output Unit} {own : Option Default} {value : Datum}
      (follows : Follows action [.terminal kind own] fun _ => Adds value) :
      Follows action [.terminal kind own] fun _ => AddsResult (.ok value) :=
    follows.mono fun _ _ _ adds => ⟨value, rfl, adds⟩
  cases kind with
  | null =>
    cases isSymbol
    exact self (follows_scalar rfl none .null)
  | boolean =>
    cases isSymbol
    exact self (follows_scalar rfl default datum)
  | string =>
    cases isSymbol
    exact self (follows_text default datum)
  | int | long | float | double =>
    cases isSymbol
    exact self (follows_scalar rfl default datum)
  | bytes | fixed =>
    cases isSymbol
    exact follows_octets rfl default datum
  | enum =>
    obtain ⟨labels, areLabels, isSymbol⟩ := outcome_bind_ok.mp isSymbol
    cases isSymbol
    refine Follows.lift fun own areOwn => Follows.lift fun index isIndex => ?_
    obtain rfl : labels = own := Except.ok.inj (areLabels.symm.trans areOwn)
    refine (follows_enum default labels index).sequence.mono fun _ base final adds => ?_
    simpa only [Form.kind, Form.symbol, areLabels, isIndex, outcome_ok_bind] using adds
  | array =>
    obtain ⟨node, isNode, isSymbol⟩ := outcome_bind_ok.mp isSymbol
    obtain ⟨item, isItem, isSymbol⟩ := outcome_bind_ok.mp isSymbol
    cases isSymbol
    refine (follows_array (fun own isOwn value => ?_) datum).sequence
    obtain rfl : node = own := Except.ok.inj (isNode.symm.trans isOwn)
    have partLacks := lacksErrors.part (Schema.mem_partsOf_collection isKind (.inl rfl) isNode)
    exact below none node item partLacks isItem value field
  | map =>
    obtain ⟨node, isNode, isSymbol⟩ := outcome_bind_ok.mp isSymbol
    obtain ⟨values, isValues, isSymbol⟩ := outcome_bind_ok.mp isSymbol
    cases isSymbol
    refine (follows_map (fun own isOwn value => ?_) datum).sequence
    obtain rfl : node = own := Except.ok.inj (isNode.symm.trans isOwn)
    have partLacks := lacksErrors.part (Schema.mem_partsOf_collection isKind (.inr rfl) isNode)
    exact below none node values partLacks isValues value field
  | union =>
    obtain ⟨branches, areBranches, isSymbol⟩ := outcome_bind_ok.mp isSymbol
    obtain ⟨symbols, areSymbols, isSymbol⟩ := outcome_bind_ok.mp isSymbol
    cases isSymbol
    have branchLacks (branch : Json) (isBranch : branch ∈ branches) : LacksErrors registry branch :=
      lacksErrors.part (Schema.mem_partsOf_branch isKind (.inl rfl) areBranches isBranch)
    refine (follows_union areBranches areSymbols ?_ ?_ ?_ datum).sequence
    · exact fun branch isBranch symbol isSymbol value =>
        below none branch symbol (branchLacks branch isBranch) isSymbol value field
    · exact fun branch isBranch symbol isSymbol =>
        (terminal_of_grammar (branchLacks branch isBranch) isSymbol).2.2
    · exact fun branch value form isNull isForm => jsonForm_of_isNull isNull isForm
  | record =>
    refine follows_record isSymbol
      (fun nodes node type nodesAre isNode typeIs default symbol isSymbol => ?_) datum
    have typeLacks := lacksErrors.part
      (Schema.mem_partsOf_field isKind (.inl rfl) nodesAre isNode typeIs)
    exact ⟨(terminal_of_grammar typeLacks isSymbol).2.1,
      below default type symbol typeLacks isSymbol⟩
  | error =>
    obtain ⟨definition, found, _⟩ := namedSymbol_ok isSymbol
    cases ((lacksErrors .refl).1 isKind).symm.trans found
  | errorUnion =>
    obtain ⟨definition, found, _⟩ := namedSymbol_ok isSymbol
    cases ((lacksErrors .refl).2 isKind).symm.trans found
  | _ =>
    intro walk after _ deferred rest leads silent restUnmarked done
    cases done

omit lacksErrors in
/-- Writing a value along the grammar of its schema adds the form of the value. -/
theorem follows_write (depth : Nat) (default : Option Default) (schema : Json) (symbol : Symbol)
    (lacksErrors : LacksErrors registry schema)
    (isSymbol : grammar registry depth default schema = .ok symbol) (datum : Datum) (field : Json) :
    Follows (Encode.write registry depth datum schema field) [symbol] fun _ =>
      AddsResult (jsonForm registry depth schema datum) := by
  induction depth generalizing default schema symbol datum field with
  | zero => cases isSymbol
  | succ depth ih =>
    obtain ⟨kind, isKind, isSymbol⟩ := grammar_succ isSymbol
    refine Follows.lift fun type isType => Follows.lift fun own isOwn => ?_
    obtain rfl : kind = own := by
      rw [kindOf, isType] at isKind
      exact Except.ok.inj (isKind.symm.trans isOwn)
    have byName (name : String)
        (isName : kindOf schema = .ok (.named name) ∨
          kindOf schema = .ok .request ∧ name = "request")
        (isSymbol : namedSymbol (grammar registry depth) registry name = .ok symbol)
        (isForm : jsonForm registry (depth + 1) schema datum =
          (do jsonForm registry depth (← Schema.resolve registry name) datum)) :
        Follows (do
            Encode.write registry depth datum
              (← WriteM.lift (Schema.resolve registry name)) (.str ""))
          [symbol] fun _ => AddsResult (jsonForm registry (depth + 1) schema datum) := by
      refine Follows.lift fun definition isDefinition => ?_
      obtain ⟨other, found, isSymbol⟩ := namedSymbol_ok isSymbol
      obtain rfl : other = definition := by
        rw [Schema.resolve, found] at isDefinition
        exact Except.ok.inj isDefinition
      rw [isForm, isDefinition, outcome_ok_bind]
      exact ih none other symbol (lacksErrors.definition isName found) isSymbol datum (.str "")
    have ofKind (builtIn : jsonForm registry (depth + 1) schema datum = (do
        Form.kind registry depth (jsonForm registry depth) schema
          (← Logical.prepareFor schema datum) kind)) :
        Follows (do
          let prepared ← WriteM.lift (Logical.prepareFor schema datum)
          Encode.onField field (Encode.writeKind registry depth (Encode.write registry depth) schema
            field prepared kind))
          [symbol] fun _ => AddsResult (jsonForm registry (depth + 1) schema datum) := by
      refine Follows.lift fun prepared isPrepared => ?_
      rw [builtIn, isPrepared, outcome_ok_bind]
      exact (follows_kind lacksErrors isKind ih isSymbol prepared).onField field
    cases kind with
    | named name => exact byName name (.inl isKind) isSymbol (by rw [jsonForm, isKind]; rfl)
    | request =>
      exact byName "request" (.inr ⟨isKind, rfl⟩) isSymbol (by rw [jsonForm, isKind]; rfl)
    | foreign value => cases isSymbol
    | _ => exact ofKind (by rw [jsonForm, isKind]; rfl)

end Value

end Avro.JsonEncoding
