import Avro.Proofs.FormReading

/-!
Contract: reading by schemas that are alike.

Owns: that schemas which are alike are of one form, and so read the same values from every source,
if no reader's schema is given.
-/

namespace Avro.Schema

variable {left right : Registry} {form : Form}

theorem eq_of_texts {texts : List String} {others : List Json}
    (items : AlikeItems (texts.map .str) others) : others = texts.map .str := by
  induction texts generalizing others with
  | nil =>
    cases items
    rfl
  | cons text rest ih =>
    cases items with
    | cons first following =>
      cases first
      rw [ih following, List.map_cons]

mutual

theorem HasForm.alike {node other : Json} {form : Form} :
    HasForm node form → Alike node other → HasForm other form
  | .word name, .str _ => .word name
  | .union inner, .arr items => .union (inner.alike items)
  | .primitive typeIs plain isPrimitive, .obj members =>
    .primitive (members.get?_text (by decide) typeIs)
      (members.get?_none (by decide) plain) isPrimitive
  | .array typeIs plain itemsAre inner, .obj members =>
    have ⟨_, otherItems, alike⟩ := members.get?_some (by decide) itemsAre
    .array (members.get?_text (by decide) typeIs) (members.get?_none (by decide) plain) otherItems
      (inner.alike alike)
  | .map typeIs plain valuesAre inner, .obj members =>
    have ⟨_, otherValues, alike⟩ := members.get?_some (by decide) valuesAre
    .map (members.get?_text (by decide) typeIs) (members.get?_none (by decide) plain) otherValues
      (inner.alike alike)
  | .enum typeIs plain nameIs symbolsAre, .obj members =>
    have ⟨_, otherSymbols, .arr items⟩ := members.get?_some (by decide) symbolsAre
    .enum (members.get?_text (by decide) typeIs) (members.get?_none (by decide) plain)
      (members.get?_text (by decide) nameIs) (eq_of_texts items ▸ otherSymbols)
  | .fixed typeIs plain nameIs sizeIs, .obj members =>
    have ⟨_, otherSize, .int _⟩ := members.get?_some (by decide) sizeIs
    .fixed (members.get?_text (by decide) typeIs) (members.get?_none (by decide) plain)
      (members.get?_text (by decide) nameIs) otherSize
  | .record typeIs isRecord plain nameIs fieldsAre inner, .obj members =>
    have ⟨_, otherFields, .arr items⟩ := members.get?_some (by decide) fieldsAre
    .record (members.get?_text (by decide) typeIs) isRecord (members.get?_none (by decide) plain)
      (members.get?_text (by decide) nameIs) otherFields (inner.alike items)

theorem BranchesHaveForm.alike {nodes others : List Json} {forms : List Form} :
    BranchesHaveForm nodes forms → AlikeItems nodes others → BranchesHaveForm others forms
  | .nil, .nil => .nil
  | .cons inner rest, .cons first following => .cons (inner.alike first) (rest.alike following)

theorem FieldsHaveForm.alike {nodes others : List Json} {fields : List (String × Form)} :
    FieldsHaveForm nodes fields → AlikeItems nodes others → FieldsHaveForm others fields
  | .nil, .nil => .nil
  | .cons nameIs typeIs inner rest, .cons (.obj members) following =>
    have ⟨_, otherType, alike⟩ := members.get?_some (by decide) typeIs
    .cons (members.get?_text (by decide) nameIs) otherType (inner.alike alike)
      (rest.alike following)

end

theorem Grounded.alike (grounded : Grounded left form) (registries : AlikeRegistries left right) :
    Grounded right form := by
  intro name isReference
  have defined := grounded name isReference
  have related := registries name
  generalize Members.get? left name = known at defined related
  generalize Members.get? right name = otherKnown at related ⊢
  generalize form.definition? name = definition at defined ⊢
  cases defined with
  | none =>
    cases related
    exact .none
  | some hasForm =>
    cases related with
    | some alike => exact .some (hasForm.alike alike)

/-- A schema that is parsed by force reads as all schemas do that are alike to what it is parsed
to. -/
theorem read_alike {σ : Type} [Source σ] {schema plain other : Json}
    (typed : wellTyped schema = true) (forced : parse .forced [] schema = .ok (plain, left))
    (plainAlike : Alike plain other) (registries : AlikeRegistries left right) (depth : Nat) :
    (Decode.read left depth plain .null false : ReadM σ Datum) =
      Decode.read right depth other .null false := by
  have plainTyped := (wellTyped_parse forced typed (List.forall_mem_nil _)).1
  obtain ⟨defined, derivation⟩ := parse_forced_ok.mp forced
  obtain ⟨form, hasForm, defines⟩ := derivation.exists_form plainTyped
  have grounded : Grounded left form := defines.grounded
  exact readsByForm_read grounded (grounded.alike registries) depth hasForm
    (hasForm.alike plainAlike) (List.Subset.refl _)

end Avro.Schema
