import Avro.Proofs.FormReading
import Avro.Proofs.JsonText

/-!
Contract: canonical forms are schemas, and the canonical forms of themselves.

Owns: `Form.toJson`, the document that the text of a form denotes, and that the text is read as this
document; that this document is parsed like the schema the form was taken from; `Reannotated`, the
schemas that differ in attributes that have no part in decoding; and that these have one canonical
form.
-/

namespace Avro.Schema

open Members (get?)

variable {form : Form}

namespace Form

open Json (ReadsAs ReadsMember following)

mutual

/-- The document that the text of a form denotes. -/
def toJson : Form → Json
  | word name => .str name
  | array items => .obj [("type", .str "array"), ("items", items.toJson)]
  | map values => .obj [("type", .str "map"), ("values", values.toJson)]
  | enum name symbols =>
    .obj [("name", .str name), ("type", .str "enum"), ("symbols", .arr (symbols.map .str))]
  | fixed name size => .obj [("name", .str name), ("type", .str "fixed"), ("size", .int size)]
  | record name fields =>
    .obj [("name", .str name), ("type", .str "record"), ("fields", .arr (fieldsToJson fields))]
  | union branches => .arr (branchesToJson branches)
termination_by structural form => form

def branchesToJson : List Form → List Json
  | [] => []
  | branch :: rest => branch.toJson :: branchesToJson rest
termination_by structural branches => branches

def fieldsToJson : List (String × Form) → List Json
  | [] => []
  | field :: rest => fieldToJson field :: fieldsToJson rest
termination_by structural fields => fields

def fieldToJson : String × Form → Json
  | (name, form) => .obj [("name", .str name), ("type", form.toJson)]
termination_by structural field => field

end

/-! ### Texts of forms are read as documents -/

section Texts

variable {name key : String} {text : List Char} {value : Json} {texts : List (List Char)}
variable {values : List Json}

/-- A character that stands for itself in a text. -/
def isLegible (character : Char) : Bool := character != '\\' && decide (0x20 ≤ character.toNat)

/-- A text in which every character stands for itself. -/
def Legible (text : List Char) : Prop := ∀ character ∈ text, isLegible character = true

/-- Whether the names in a form hold no character that texts have to escape. -/
def legible (form : Form) : Bool := form.plain && form.chars.all isLegible

private theorem inMarks_eq_stringText (noMark : '"' ∉ name.toList)
    (areLegible : Legible name.toList) :
    inMarks name = (Json.stringText false name).toList := by
  have kept : name.toList.flatMap (Json.escapeCharacter false) = name.toList := by
    generalize name.toList = characters at noMark areLegible
    induction characters with
    | nil => rfl
    | cons character rest ih =>
      rw [List.mem_cons, not_or] at noMark
      rw [Legible, List.forall_mem_cons, isLegible, Bool.and_eq_true, bne_iff_ne,
        decide_eq_true_eq] at areLegible
      obtain ⟨⟨notEscape, visible⟩, restLegible⟩ := areLegible
      have others : character ≠ '\n' ∧ character ≠ '\r' ∧ character ≠ '\t' := by
        refine ⟨?_, ?_, ?_⟩ <;> rintro rfl <;> exact absurd visible (by decide)
      have itself : Json.escapeCharacter false character = [character] := by
        simp only [Json.escapeCharacter, beq_iff_eq, Ne.symm noMark.1, notEscape, others, if_false,
          Bool.false_and, Bool.false_eq_true]
        rw [if_neg (by omega), if_neg (by omega), if_neg (by omega)]
      rw [List.flatMap_cons, itself, ih noMark.2 restLegible]
      rfl
  rw [Json.toList_stringText, kept]
  rfl

theorem readsAs_inMarks (noMark : '"' ∉ name.toList)
    (areLegible : Legible (inMarks name)) :
    ReadsAs (inMarks name) (.str name) := by
  rw [inMarks_eq_stringText noMark fun character isIn =>
    areLegible character (by simp [inMarks, isIn])]
  exact Json.readsAs_stringText false name

private theorem readsAs_listed (read : List.Forall₂ ReadsAs texts values) :
    ReadsAs ('[' :: listed texts) (.arr values) := by
  cases read with
  | nil => exact Json.readsAs_nil
  | cons first others => exact Json.readsAs_compact_arr first others

def fixedWords : List String :=
  ["type", "name", "items", "values", "symbols", "size", "fields", "array", "map", "enum",
    "fixed", "record"]

theorem inMarks_fixed :
    ∀ word ∈ fixedWords, inMarks word = (Json.stringText false word).toList := by
  simp [fixedWords, inMarks, Json.toList_stringText, Json.escapeCharacter]

theorem readsAs_fixed {word : String} (isFixed : word ∈ fixedWords) :
    ReadsAs (inMarks word) (.str word) := by
  rw [inMarks_fixed word isFixed]
  exact Json.readsAs_stringText false word

/-- An attribute as its key and the text of its value. -/
theorem readsMember_of_key (isFixed : key ∈ fixedWords) (reads : ReadsAs text value) :
    ReadsMember (inMarks key ++ ':' :: text) (key, value) := by
  refine ⟨false, [], text, Json.isBlank_nil, ?_, reads⟩
  rw [inMarks_fixed key isFixed, List.nil_append]

/-- A collection: its kind and the attribute for its parts. -/
theorem readsAs_typed {word : String}
    (isCollection : (word, key) ∈ [("array", "items"), ("map", "values")])
    (reads : ReadsAs text value) :
    ReadsAs (typed word (under key text)) (.obj [("type", .str word), (key, value)]) := by
  have areFixed : ∀ pair ∈ [("array", "items"), ("map", "values")],
      pair.1 ∈ fixedWords ∧ pair.2 ∈ fixedWords ∧ ["type", pair.2].Nodup := by decide
  obtain ⟨wordFixed, keyFixed, distinct⟩ := areFixed _ isCollection
  have read : ReadsAs _ (.obj [("type", .str word), (key, value)]) :=
    Json.readsAs_compact_obj distinct
    (readsMember_of_key (by decide) (readsAs_fixed wordFixed))
      (.cons (readsMember_of_key keyFixed reads) .nil)
  simpa [typed, under, following] using read

/-- A named type: its name, its kind and one attribute of its own. -/
theorem readsAs_named {kind : String} (nameReads : ReadsAs (inMarks name) (.str name))
    (isNamed : (kind, key) ∈ [("enum", "symbols"), ("fixed", "size"), ("record", "fields")])
    (reads : ReadsAs text value) :
    ReadsAs (named name (under "type" (inMarks kind ++ under key text)))
      (.obj [("name", .str name), ("type", .str kind), (key, value)]) := by
  have areFixed : ∀ pair ∈ [("enum", "symbols"), ("fixed", "size"), ("record", "fields")],
      pair.1 ∈ fixedWords ∧ pair.2 ∈ fixedWords ∧ ["name", "type", pair.2].Nodup := by decide
  obtain ⟨kindFixed, keyFixed, distinct⟩ := areFixed _ isNamed
  have read : ReadsAs _ (.obj [("name", .str name), ("type", .str kind), (key, value)]) :=
    Json.readsAs_compact_obj distinct (readsMember_of_key (by decide) nameReads)
      (.cons (readsMember_of_key (by decide) (readsAs_fixed kindFixed))
        (.cons (readsMember_of_key keyFixed reads) .nil))
  simpa [named, under, following] using read

private theorem readsAs_field (nameReads : ReadsAs (inMarks name) (.str name))
    (reads : ReadsAs text value) :
    ReadsAs (named name (under "type" text)) (.obj [("name", .str name), ("type", value)]) := by
  have distinct : ["name", "type"].Nodup := by decide
  have read : ReadsAs _ (.obj [("name", .str name), ("type", value)]) :=
    Json.readsAs_compact_obj distinct
    (readsMember_of_key (by decide) nameReads) (.cons (readsMember_of_key (by decide) reads) .nil)
  simpa [named, under, following] using read

end Texts

section Legible

variable {name key word : String} {text rest : List Char} {texts : List (List Char)}

private theorem legible_typed (areLegible : Legible (typed word (under key text))) :
    Legible text := fun character isIn =>
  areLegible character (by simp [typed, under, isIn])

theorem legible_named (areLegible : Legible (named name rest)) :
    Legible (inMarks name) ∧ Legible rest := by
  constructor <;> intro character isIn <;> exact areLegible character (by simp [named, isIn])

private theorem legible_under (areLegible : Legible (under key text)) :
    Legible text := fun character isIn =>
  areLegible character (by simp [under, isIn])

private theorem legible_kind
    (areLegible : Legible (under "type" (inMarks word ++ under key text))) : Legible text :=
  fun character isIn => areLegible character (by simp [under, isIn])

private theorem legible_listed (areLegible : Legible ('[' :: listed texts))
    (isText : text ∈ texts) : Legible text := by
  intro character isIn
  refine areLegible character (List.mem_cons_of_mem _ ?_)
  cases texts with
  | nil => cases isText
  | cons first others =>
    rw [listed, more, List.mem_append, List.mem_append, List.mem_flatMap]
    rcases List.mem_cons.mp isText with rfl | isOther
    · exact .inl isIn
    · exact .inr (.inl ⟨text, isOther, List.mem_cons_of_mem _ isIn⟩)

end Legible

mutual

/-- The text of a form is read as the document of the form, if its names stand for themselves. -/
theorem readsAs_chars : ∀ form : Form, form.plain = true → Legible form.chars →
    ReadsAs form.chars form.toJson
  | word name, named, areLegible => by exact readsAs_inMarks (notMem_of_isPlain named) areLegible
  | array items, named, areLegible => by
    exact readsAs_typed (by decide) (readsAs_chars items named (legible_typed areLegible))
  | map values, named, areLegible => by
    exact readsAs_typed (by decide) (readsAs_chars values named (legible_typed areLegible))
  | enum name symbols, named, areLegible => by
    rw [plain, Bool.and_eq_true, List.all_eq_true] at named
    obtain ⟨nameLegible, restLegible⟩ := legible_named areLegible
    have symbolsRead : List.Forall₂ ReadsAs (symbols.map inMarks) (symbols.map .str) := by
      rw [List.forall₂_map_left_iff, List.forall₂_map_right_iff, List.forall₂_same]
      intro symbol isSymbol
      have symbolLegible := legible_listed (legible_kind restLegible) (List.mem_map_of_mem isSymbol)
      exact readsAs_inMarks (notMem_of_isPlain (named.2 symbol isSymbol)) symbolLegible
    exact readsAs_named (readsAs_inMarks (notMem_of_isPlain named.1) nameLegible) (by decide)
      (readsAs_listed symbolsRead)
  | fixed name size, named, areLegible => by
    have nameReads := readsAs_inMarks (notMem_of_isPlain named) (legible_named areLegible).1
    exact readsAs_named nameReads (by decide) (Json.readsAs_integerText size)
  | record name fields, named, areLegible => by
    rw [plain, Bool.and_eq_true] at named
    obtain ⟨nameLegible, restLegible⟩ := legible_named areLegible
    have fieldsRead := readsAs_charsOfFields fields named.2 fun _ =>
      legible_listed (legible_kind restLegible)
    exact readsAs_named (readsAs_inMarks (notMem_of_isPlain named.1) nameLegible) (by decide)
      (readsAs_listed fieldsRead)
  | union branches, named, areLegible => by
    exact readsAs_listed (readsAs_charsOfBranches branches named fun _ => legible_listed areLegible)
termination_by structural form => form

theorem readsAs_charsOfBranches : ∀ branches : List Form, branchesPlain branches = true →
    (∀ text ∈ charsOfBranches branches, Legible text) →
      List.Forall₂ ReadsAs (charsOfBranches branches) (branchesToJson branches)
  | [], _, _ => by exact .nil
  | branch :: rest, named, areLegible => by
    rw [branchesPlain, Bool.and_eq_true] at named
    rw [charsOfBranches, List.forall_mem_cons] at areLegible
    exact .cons (readsAs_chars branch named.1 areLegible.1)
      (readsAs_charsOfBranches rest named.2 areLegible.2)
termination_by structural branches => branches

theorem readsAs_charsOfFields : ∀ fields : List (String × Form), fieldsPlain fields = true →
    (∀ text ∈ charsOfFields fields, Legible text) →
      List.Forall₂ ReadsAs (charsOfFields fields) (fieldsToJson fields)
  | [], _, _ => by exact .nil
  | field :: rest, named, areLegible => by
    rw [fieldsPlain, Bool.and_eq_true] at named
    rw [charsOfFields, List.forall_mem_cons] at areLegible
    exact .cons (readsAs_charsOfField field named.1 areLegible.1)
      (readsAs_charsOfFields rest named.2 areLegible.2)
termination_by structural fields => fields

theorem readsAs_charsOfField : ∀ field : String × Form, fieldPlain field = true →
    Legible (charsOfField field) → ReadsAs (charsOfField field) (fieldToJson field)
  | (name, form), named, areLegible => by
    rw [fieldPlain, Bool.and_eq_true] at named
    obtain ⟨nameLegible, restLegible⟩ := legible_named areLegible
    exact readsAs_field (readsAs_inMarks (notMem_of_isPlain named.1) nameLegible)
      (readsAs_chars form named.2 (legible_under restLegible))
termination_by structural field => field

end

theorem parse?_chars (isLegible : form.legible = true) :
    Json.parse? (String.ofList form.chars) = some form.toJson := by
  rw [legible, Bool.and_eq_true, List.all_eq_true] at isLegible
  exact (readsAs_chars form isLegible.1 isLegible.2).parse?

end Form

/-! ### The document of a form is parsed like the schema it comes from -/

/-- A state in which the same names are taken as in another, and no fewer are known. -/
structure ParseState.KnownIn (left right : ParseState) : Prop where
  names : right.defined = left.defined
  known : ∀ name, Understands left.registry name → Understands right.registry name

section States

variable {left right : ParseState} (states : left.KnownIn right) (entry : String)
  (members others : Members)
include states

theorem ParseState.KnownIn.enter : (left.enter entry members).KnownIn (right.enter entry others) :=
  ⟨congrArg (entry :: ·) states.names, understands_set states.known entry members others⟩

theorem ParseState.KnownIn.replace :
    (left.replace entry members).KnownIn (right.replace entry others) :=
  ⟨states.names, understands_set states.known entry members others⟩

theorem ParseState.KnownIn.fresh {entry : String} (fresh : entry ∉ left.defined) :
    entry ∉ right.defined := by
  rwa [states.names]

end States

section Shapes

variable {members own : Members} {word key : String} {name value : Json} {fields : List Json}

theorem HasForm.heading_parsed
    (hasForm : HasForm (.obj (commonAttributes members (.str word) ++ own)) form) :
    headingOf word = form.heading := by
  obtain ⟨other, typeIs, headingIs⟩ := hasForm.heading
  rw [get?_type_commonAttributes] at typeIs
  cases typeIs
  exact headingIs

theorem HasForm.primitive_parsed (isPrimitive : word ∈ primitiveNames)
    (hasForm : HasForm (.obj (commonAttributes members (.str word) ++ own)) form) :
    form = .word word := by
  have headingIs := hasForm.heading_parsed
  have noHeading : ∀ word ∈ primitiveNames, headingOf word = "" := by decide
  rw [noHeading word isPrimitive] at headingIs
  cases hasForm with
  | primitive typeIs _ _ =>
    rw [get?_type_commonAttributes] at typeIs
    cases typeIs
    rfl
  | _ => simp [Form.heading] at headingIs

theorem HasForm.collection_parsed {part : Json}
    (isCollection : (word, key) ∈ [("array", "items"), ("map", "values")])
    (hasForm : HasForm (.obj (commonAttributes members (.str word) ++ [(key, part)])) form) :
    ∃ inner, HasForm part inner ∧ form.toJson = .obj [("type", .str word), (key, inner.toJson)] ∧
      ∀ others again, HasForm again inner → get? others "type" = some (.str word) →
        get? others "logicalType" = none →
        get? others key = some again → HasForm (.obj others) form := by
  have headingIs := hasForm.heading_parsed
  rcases Members.mem_pairs.mp isCollection with ⟨rfl, rfl⟩ | ⟨rfl, rfl⟩
  · cases hasForm with
    | array _ _ itemsAre inner =>
      rw [get?_own (by decide)] at itemsAre
      cases itemsAre
      exact ⟨_, inner, rfl, fun _ _ again typeIs plain found => .array typeIs plain found again⟩
    | _ => simp [Form.heading, headingOf, primitiveNames] at headingIs
  · cases hasForm with
    | map _ _ valuesAre inner =>
      rw [get?_own (by decide)] at valuesAre
      cases valuesAre
      exact ⟨_, inner, rfl, fun _ _ again typeIs plain found => .map typeIs plain found again⟩
    | _ => simp [Form.heading, headingOf, primitiveNames] at headingIs

theorem HasForm.leaf_parsed (isLeaf : (word, key) ∈ [("enum", "symbols"), ("fixed", "size")])
    (hasForm : HasForm (.obj (leafMembers members word name key value)) form) :
    ∃ text, name = .str text ∧
      form.toJson = .obj [("name", .str text), ("type", .str word), (key, value)] ∧
      HasForm (.obj (leafMembers [("name", .str text), ("type", .str word), (key, value)] word
        (.str text) key value)) form := by
  have headingIs := hasForm.heading_parsed
  rcases Members.mem_pairs.mp isLeaf with ⟨rfl, rfl⟩ | ⟨rfl, rfl⟩
  · cases hasForm with
    | enum _ _ nameIs symbolsAre =>
      rw [leafMembers, get?_own (by decide)] at nameIs symbolsAre
      cases nameIs
      cases symbolsAre
      exact ⟨_, rfl, rfl, .enum rfl rfl rfl rfl⟩
    | _ => simp [Form.heading, headingOf, primitiveNames] at headingIs
  · cases hasForm with
    | fixed _ _ nameIs sizeIs =>
      rw [leafMembers, get?_own (by decide)] at nameIs sizeIs
      cases nameIs
      cases sizeIs
      exact ⟨_, rfl, rfl, .fixed rfl rfl rfl rfl⟩
    | _ => simp [Form.heading, headingOf, primitiveNames] at headingIs

theorem HasForm.record_parsed (isRecord : word ∈ ["record", "error"])
    (hasForm : HasForm (.obj (recordMembers members word name fields)) form) :
    ∃ text forms, name = .str text ∧ FieldsHaveForm fields forms ∧ form = .record text forms := by
  have headingIs := hasForm.heading_parsed
  have isHeading : headingOf word = "record" := by
    rcases List.mem_pair.mp isRecord with rfl | rfl <;> rfl
  rw [isHeading] at headingIs
  cases hasForm with
  | record _ _ _ nameIs fieldsAre inner =>
    rw [recordMembers, get?_own (by decide)] at nameIs fieldsAre
    cases nameIs
    cases fieldsAre
    exact ⟨_, _, rfl, inner, rfl⟩
  | _ => simp [Form.heading] at headingIs

end Shapes

mutual

/-- The document of a form is parsed from a state that knows the same names, and what it is parsed
to has that form. -/
theorem Parses.restated {space node parsed : Json} {start stop : ParseState} {form : Form} :
    Parses false space node start parsed stop → HasForm parsed form → ∀ other, start.KnownIn other →
      ∃ again after, Parses false (.str "") form.toJson other again after ∧ HasForm again form ∧
        stop.KnownIn after
  | .primitive isPrimitive, .word _ => by
    exact fun other states => ⟨_, other, .primitive isPrimitive, .word _, states⟩
  | @Parses.reference _ _ _ _ name _ notPrimitive qualified known _, .word _ => by
    intro other states
    obtain ⟨definition, otherKnown⟩ := states.known name ⟨_, known⟩
    exact ⟨_, other, .reference (notPrimitive_qualified notPrimitive qualified)
      (qualifyReference_nowhere name) otherKnown
      (by simp), .word _, states⟩
  | .expansion _ _ _ expanded _, _ => by simp at expanded
  | .union parts, .union haveForms => by
    intro other states
    obtain ⟨again, after, done, haveAgain, afterStates⟩ := parts.restated haveForms other states
    exact ⟨_, after, .union done, .union haveAgain, afterStates⟩
  | @Parses.primitiveNode _ _ members word _ typeIs checked isPrimitive, hasForm => by
    intro other states
    rw [← List.append_nil (commonAttributes _ _)] at hasForm
    obtain rfl := hasForm.primitive_parsed isPrimitive
    exact ⟨_, other, .primitive isPrimitive, .word _, states⟩
  | .collection typeIs checked isCollection under inner, hasForm => by
    intro other states
    obtain ⟨part, partHasForm, documentIs, build⟩ := hasForm.collection_parsed isCollection
    obtain ⟨again, after, done, againHasForm, afterStates⟩ :=
      inner.restated partHasForm other states
    rw [documentIs]
    refine ⟨_, after, .collection ?_ ?_ isCollection ?_ done,
      build _ _ againHasForm ?_ ?_ ?_, afterStates⟩
    all_goals rcases Members.mem_pairs.mp isCollection with ⟨rfl, rfl⟩ | ⟨rfl, rfl⟩ <;> rfl
  | .leaf typeIs checked isLeaf named entryIs fresh under, hasForm => by
    intro other states
    obtain ⟨text, rfl, documentIs, againHasForm⟩ := hasForm.leaf_parsed isLeaf
    cases entryIs
    rw [documentIs]
    rcases Members.mem_pairs.mp isLeaf with ⟨rfl, rfl⟩ | ⟨rfl, rfl⟩ <;>
      exact ⟨_, _, .leaf rfl rfl (by decide) rfl rfl (states.fresh fresh) rfl, againHasForm,
        states.enter _ _ _⟩
  | @Parses.record _ _ _ _ members word entry _ fields _ _ typeIs checked isRecord named entryIs
      fresh nodesAre inner, hasForm => by
    intro other states
    obtain ⟨text, forms, rfl, haveForms, rfl⟩ := hasForm.record_parsed isRecord
    obtain rfl : entry = text := (Except.ok.inj entryIs).symm
    obtain ⟨again, after, done, haveAgain, afterStates⟩ :=
      inner.restated haveForms _ (states.enter entry _ _)
    exact ⟨_, _, .record rfl rfl (by decide) rfl rfl (states.fresh fresh) rfl done,
      .record rfl (by decide) rfl rfl rfl haveAgain, afterStates.replace _ _ _⟩

theorem ParsesBranches.restated {space : Json} {branches parsed : List Json}
    {start stop : ParseState} {forms : List Form} :
    ParsesBranches false space branches start parsed stop → BranchesHaveForm parsed forms →
    ∀ other, start.KnownIn other →
      ∃ again after, ParsesBranches false (.str "") (Form.branchesToJson forms) other again after ∧
        BranchesHaveForm again forms ∧ stop.KnownIn after
  | .nil, .nil => by exact fun other states => ⟨[], other, .nil, .nil, states⟩
  | .cons first others, .cons hasForm haveForms => by
    intro other states
    obtain ⟨again, between, done, hasAgain, betweenStates⟩ := first.restated hasForm other states
    obtain ⟨rest, after, othersDone, haveAgain, afterStates⟩ :=
      others.restated haveForms between betweenStates
    exact ⟨_, after, .cons done othersDone, .cons hasAgain haveAgain, afterStates⟩

theorem ParsesFields.restated {space : Json} {nodes parsed : List Json} {start stop : ParseState}
    {fields : List (String × Form)} :
    ParsesFields false space nodes start parsed stop → FieldsHaveForm parsed fields →
    ∀ other, start.KnownIn other →
      ∃ again after, ParsesFields false (.str "") (Form.fieldsToJson fields) other again after ∧
        FieldsHaveForm again fields ∧ stop.KnownIn after
  | .nil, .nil => by exact fun other states => ⟨[], other, .nil, .nil, states⟩
  | @ParsesFields.cons _ _ name _ type members _ _ _ _ _ listed named under inner others,
      .cons nameIs typeIs hasForm haveForms => by
    intro other states
    rw [get?_fieldMembers members name type (by decide)] at nameIs typeIs
    cases nameIs
    cases typeIs
    obtain ⟨again, between, done, hasAgain, betweenStates⟩ := inner.restated hasForm other states
    obtain ⟨rest, after, othersDone, haveAgain, afterStates⟩ :=
      others.restated haveForms between betweenStates
    exact ⟨_, after, .cons rfl rfl rfl done othersDone,
      .cons rfl rfl hasAgain haveAgain, afterStates⟩

end

mutual

theorem ParsesApart.restated {schema plain : Json} {before after : Registry} {form : Form} :
    ParsesApart schema before plain after → HasForm plain form →
      ∀ other, (∀ name, Understands before name → Understands other name) →
        ∃ again final, ParsesApart form.toJson other again final ∧ HasForm again form ∧
          ∀ name, Understands after name → Understands final name
  | .node _ derivation, hasForm => by
    intro other known
    obtain ⟨again, final, done, againHasForm, states⟩ :=
      derivation.restated hasForm ⟨[], other⟩ ⟨rfl, known⟩
    exact ⟨again, final.registry, done.apart, againHasForm, states.known⟩
  | .union parts, .union haveForms => by
    intro other known
    obtain ⟨again, final, done, haveAgain, finalKnown⟩ := parts.restated haveForms other known
    exact ⟨_, final, .union done, .union haveAgain, finalKnown⟩

theorem BranchesApart.restated {branches parsed : List Json} {before after : Registry}
    {forms : List Form} :
    BranchesApart branches before parsed after → BranchesHaveForm parsed forms →
      ∀ other, (∀ name, Understands before name → Understands other name) →
        ∃ again final, BranchesApart (Form.branchesToJson forms) other again final ∧
          BranchesHaveForm again forms ∧
          ∀ name, Understands after name → Understands final name
  | .nil, .nil => by exact fun other known => ⟨[], other, .nil, .nil, known⟩
  | .cons first others, .cons hasForm haveForms => by
    intro other known
    obtain ⟨again, between, done, hasAgain, betweenKnown⟩ := first.restated hasForm other known
    obtain ⟨rest, final, othersDone, haveAgain, finalKnown⟩ :=
      others.restated haveForms between betweenKnown
    exact ⟨_, final, .cons done othersDone, .cons hasAgain haveAgain, finalKnown⟩

end

mutual

private theorem unmarked_toJson : ∀ form : Form, unmarked form.toJson = true
  | .word _ | .array _ | .map _ | .enum _ _ | .fixed _ _ | .record _ _ => by rfl
  | .union branches => by exact branchesUnmarked_toJson branches
termination_by structural form => form

theorem branchesUnmarked_toJson :
    ∀ branches : List Form, branchesUnmarked (Form.branchesToJson branches) = true
  | [] => rfl
  | branch :: rest => by
    rw [Form.branchesToJson, branchesUnmarked, unmarked_toJson branch, branchesUnmarked_toJson rest]
    rfl
termination_by structural branches => branches

end

theorem canonicalForm_of_hasForm {schema parsed : Json} {registry : Registry}
    (parses : parse {} [] schema = .ok (parsed, registry)) (hasForm : HasForm parsed form) :
    canonicalForm schema = .ok (String.ofList form.chars) := by
  rw [canonicalForm, parses, outcome_ok_bind]
  exact hasForm.canonicalNode

/-- The document of the form of a schema is accepted, and has the canonical form of that schema. -/
theorem canonicalForm_toJson {schema plain : Json} {registry : Registry}
    (apart : ParsesApart schema [] plain registry) (hasForm : HasForm plain form) :
    canonicalForm form.toJson = .ok (String.ofList form.chars) := by
  obtain ⟨again, final, done, againHasForm, -⟩ := apart.restated hasForm [] fun _ => id
  exact canonicalForm_of_hasForm
    ((parse_unmarked_iff (unmarked_toJson form)).mpr ⟨again, done, rfl⟩)
    (againHasForm.marked final again)

/-! ### Attributes that canonical forms leave out -/

section Congruence

variable {left right members own : Members} {word key : String}

/-- The canonical form of a node depends on its reserved attributes only, and not on its
documentation. -/
theorem canonicalNode_congr
    (same : ∀ key ∈ reservedAttributes.erase "doc", get? left key = get? right key) :
    canonicalNode (.obj left) = canonicalNode (.obj right) := by
  have sameRequired (key : String) (isKey : key ∈ reservedAttributes.erase "doc") :
      required left key = required right key := by
    rw [required, required, same key isKey]
  have sameUnder (key : String) (isKey : key ∈ reservedAttributes.erase "doc") :
      canonicalUnder key left = canonicalUnder key right := by
    rw [canonicalUnder_eq, canonicalUnder_eq, same key isKey]
  have sameFields : canonicalFieldsIn left = canonicalFieldsIn right := by
    rw [canonicalFieldsIn_eq, canonicalFieldsIn_eq right, same "fields" (by decide)]
  simp only [canonicalNode, canonicalEnum, canonicalFixed, canonicalRecord,
    sameRequired "type" (by decide), sameRequired "name" (by decide),
    sameRequired "symbols" (by decide), sameRequired "size" (by decide),
    sameUnder "items" (by decide), sameUnder "values" (by decide), sameFields]

theorem canonicalNode_parsed (members : Members) (type : Json) (own : Members) :
    canonicalNode (.obj (commonAttributes members type ++ own)) =
      canonicalNode (.obj (("type", type) :: own)) :=
  canonicalNode_congr fun _ isOwn => get?_own isOwn

end Congruence

/-! ### The parts of a parsed node, by its type -/

section Inversion

variable {members : Members} {space parsed : Json} {start stop : ParseState} {word key : String}

/-- The four ways in which an object is parsed exclude each other by its type. -/
theorem Parses.collection_parts (derivation : Parses false space (.obj members) start parsed stop)
    (typeIs : get? members "type" = some (.str word))
    (isCollection : (word, key) ∈ [("array", "items"), ("map", "values")]) :
    ∃ node part, get? members key = some node ∧ Parses false space node start part stop ∧
      parsed = .obj (commonAttributes members (.str word) ++ [(key, part)]) := by
  have notPrimitive : ∀ pair ∈ [("array", "items"), ("map", "values")],
    pair.1 ∉ primitiveNames := by decide
  replace notPrimitive := notPrimitive _ isCollection
  cases derivation with
  | @collection _ _ _ _ other otherKey _ _ otherType _ isOther under inner =>
    obtain ⟨rfl, rfl⟩ : word = other ∧ key = otherKey := by grind
    exact ⟨_, _, under, inner, rfl⟩
  | _ => grind

theorem Parses.leaf_parts (derivation : Parses false space (.obj members) start parsed stop)
    (typeIs : get? members "type" = some (.str word))
    (isLeaf : (word, key) ∈ [("enum", "symbols"), ("fixed", "size")]) :
    ∃ innerSpace name value, qualifiedName (.obj members) space = .ok (innerSpace, name) ∧
      get? members key = some value ∧
      parsed = .obj (leafMembers members word name key value) := by
  have notPrimitive : ∀ pair ∈ [("enum", "symbols"), ("fixed", "size")],
    pair.1 ∉ primitiveNames := by decide
  replace notPrimitive := notPrimitive _ isLeaf
  cases derivation with
  | @leaf _ _ _ _ _ other otherKey _ _ otherType _ isOther named _ _ under =>
    obtain ⟨rfl, rfl⟩ : word = other ∧ key = otherKey := by grind
    exact ⟨_, _, _, named, under, rfl⟩
  | _ => grind

theorem Parses.record_parts (derivation : Parses false space (.obj members) start parsed stop)
    (typeIs : get? members "type" = some (.str word)) (isRecord : word ∈ ["record", "error"]) :
    ∃ innerSpace name nodes fields inside outside, qualifiedName (.obj members) space =
      .ok (innerSpace, name) ∧
      fieldNodes? members = some nodes ∧ ParsesFields false innerSpace nodes inside fields outside ∧
      parsed = .obj (recordMembers members word name fields) := by
  cases derivation with
  | record otherType _ _ named _ _ nodesAre inner =>
    obtain rfl : word = _ := Json.str.inj (Option.some.inj (typeIs.symm.trans otherType))
    exact ⟨_, _, _, _, _, _, named, nodesAre, inner, rfl⟩
  | _ => grind [primitiveNames]

theorem Parses.primitive_parts (derivation : Parses false space (.obj members) start parsed stop)
    (typeIs : get? members "type" = some (.str word)) (isPrimitive : word ∈ primitiveNames) :
    parsed = .obj (commonAttributes members (.str word)) := by
  have notComposite : ∀ word ∈ primitiveNames,
    word ∉ ["array", "map", "enum", "fixed", "record", "error"] := by decide
  replace notComposite := notComposite word isPrimitive
  cases derivation with
  | primitiveNode otherType =>
    obtain rfl : word = _ := Json.str.inj (Option.some.inj (typeIs.symm.trans otherType))
    rfl
  | _ => grind

end Inversion

/-! ### Schemas that differ in annotations -/

mutual

/-- Two schemas that differ at any depth in documentation, aliases, defaults, logical types and
other attributes that have no part in canonical forms. -/
inductive Reannotated : Json → Json → Prop where
  | text (text : String) : Reannotated (.str text) (.str text)
  | union {left right : List Json} (branches : ReannotatedItems left right) :
      Reannotated (.arr left) (.arr right)
  | node {left right : List (String × Json)}
      (kept : ∀ key ∈ ["type", "name", "namespace", "symbols", "size"],
        get? left key = get? right key)
      (parts : ∀ word key, (word, key) ∈ [("array", "items"), ("map", "values")] →
        get? left "type" = some (.str word) →
        ReannotatedItems (get? left key).toList (get? right key).toList)
      (fields : ∀ word ∈ ["record", "error"], get? left "type" = some (.str word) →
        ReannotatedFields ((fieldNodes? left).getD []) ((fieldNodes? right).getD [])) :
      Reannotated (.obj left) (.obj right)

inductive ReannotatedItems : List Json → List Json → Prop where
  | nil : ReannotatedItems [] []
  | cons {left right : Json} {lefts rights : List Json} (first : Reannotated left right)
      (others : ReannotatedItems lefts rights) : ReannotatedItems (left :: lefts) (right :: rights)

/-- Fields keep their names; beside these only their types count. -/
inductive ReannotatedFields : List Json → List Json → Prop where
  | nil : ReannotatedFields [] []
  | cons {left right : List (String × Json)} {lefts rights : List Json}
      (name : get? left "name" = get? right "name")
      (type : ReannotatedItems (get? left "type").toList (get? right "type").toList)
      (others : ReannotatedFields lefts rights) :
      ReannotatedFields (.obj left :: lefts) (.obj right :: rights)

end

theorem ReannotatedItems.under {left right : Option Json} {node other : Json}
    (items : ReannotatedItems left.toList right.toList) (leftIs : left = some node)
    (rightIs : right = some other) : Reannotated node other := by
  subst leftIs rightIs
  cases items with
  | cons first _ => exact first

section Parsed

variable {members others own : Members} {word key : String} {name part otherPart : Json}

theorem canonicalNode_collection
    (isCollection : (word, key) ∈ [("array", "items"), ("map", "values")])
    (same : canonicalNode otherPart = canonicalNode part) :
    canonicalNode (.obj (commonAttributes others (.str word) ++ [(key, otherPart)])) =
      canonicalNode (.obj (commonAttributes members (.str word) ++ [(key, part)])) := by
  rw [canonicalNode_parsed, canonicalNode_parsed]
  rcases Members.mem_pairs.mp isCollection with ⟨rfl, rfl⟩ | ⟨rfl, rfl⟩
  · simp [canonicalNode, canonicalUnder, same, required, get?]
  · simp [canonicalNode, canonicalUnder, same, required, get?]

theorem canonicalNode_record {fields otherFields : List Json}
    (isRecord : word ∈ ["record", "error"])
    (same : canonicalFields otherFields = canonicalFields fields) :
    canonicalNode (.obj (recordMembers others word name otherFields)) =
      canonicalNode (.obj (recordMembers members word name fields)) := by
  rw [recordMembers, recordMembers, canonicalNode_parsed, canonicalNode_parsed]
  rcases List.mem_pair.mp isRecord with rfl | rfl
  · simp [canonicalNode, canonicalRecord, canonicalFieldsIn, same, required, get?]
  · simp [canonicalNode, canonicalRecord, canonicalFieldsIn, same, required, get?]

theorem canonicalField_parsed (same : canonicalNode otherPart = canonicalNode part) :
    canonicalField (.obj (fieldMembers others name otherPart)) =
      canonicalField (.obj (fieldMembers members name part)) := by
  have nameIs (members : Members) (type : Json) :
      get? (fieldMembers members name type) "name" = some name :=
    get?_fieldMembers members name type (by decide)
  have typeIs (members : Members) (type : Json) :
      get? (fieldMembers members name type) "type" = some type :=
    get?_fieldMembers members name type (by decide)
  rw [canonicalField, canonicalField, required_ok.mpr (nameIs _ _), required_ok.mpr (nameIs _ _),
    canonicalUnder_of_get? (typeIs _ _), canonicalUnder_of_get? (typeIs _ _), same]

end Parsed

mutual

/-- Schemas that differ in annotations are parsed to schemas of one canonical form, if both are
accepted. -/
theorem Parses.reannotated {space node parsed : Json} {start stop : ParseState} :
    Parses false space node start parsed stop →
    ∀ {other otherParsed : Json} {before after : ParseState}, Reannotated node other →
      Parses false space other before otherParsed after →
      canonicalNode otherParsed = canonicalNode parsed
  | .primitive isPrimitive => by
    intro relation second
    cases relation
    cases second with
    | primitive => rfl
    | reference notPrimitive => exact absurd isPrimitive notPrimitive
    | expansion _ _ _ expanded => simp at expanded
  | .reference notPrimitive qualified _ _ => by
    intro relation second
    cases relation
    cases second with
    | primitive isPrimitive => exact absurd isPrimitive notPrimitive
    | reference _ otherQualified =>
      cases qualified.symm.trans otherQualified
      rfl
    | expansion _ _ _ expanded => simp at expanded
  | .expansion _ _ _ expanded _ => by simp at expanded
  | .union parts => by
    intro relation second
    cases relation with
    | union branches =>
      cases second with
      | union otherParts => rw [canonicalNode, canonicalNode, parts.reannotated branches otherParts]
  | .primitiveNode typeIs checked isPrimitive => by
    intro relation second
    cases relation with
    | node kept _ _ =>
      obtain rfl := second.primitive_parts ((kept "type" (by decide)).symm.trans typeIs) isPrimitive
      rw [← List.append_nil (commonAttributes _ _), canonicalNode_parsed,
        ← List.append_nil (commonAttributes _ _), canonicalNode_parsed]
  | .collection typeIs checked isCollection under inner => by
    intro relation second
    cases relation with
    | node kept parts _ =>
      obtain ⟨otherNode, otherPart, otherUnder, otherInner, rfl⟩ :=
        second.collection_parts ((kept "type" (by decide)).symm.trans typeIs) isCollection
      have related := (parts _ _ isCollection typeIs).under under otherUnder
      exact canonicalNode_collection isCollection (inner.reannotated related otherInner)
  | .leaf typeIs checked isLeaf named entryIs fresh under => by
    intro relation second
    cases relation with
    | node kept _ _ =>
      obtain ⟨innerSpace, name, value, otherNamed, otherUnder, rfl⟩ :=
        second.leaf_parts ((kept "type" (by decide)).symm.trans typeIs) isLeaf
      have areKept : ∀ pair ∈ [("enum", "symbols"), ("fixed", "size")],
          pair.2 ∈ ["type", "name", "namespace", "symbols", "size"] := by decide
      cases (qualifiedName_congr (kept "name" (by decide)) (kept "namespace" (by decide))
        named).symm.trans otherNamed
      cases (kept _ (areKept _ isLeaf)).symm.trans under |>.symm.trans otherUnder
      rw [leafMembers, leafMembers, canonicalNode_parsed, canonicalNode_parsed]
  | .record typeIs checked isRecord named entryIs fresh nodesAre inner => by
    intro relation second
    cases relation with
    | node kept _ fields =>
      obtain ⟨innerSpace, name, nodes, otherFields, inside, outside, otherNamed, otherNodes,
        otherInner, rfl⟩ :=
        second.record_parts ((kept "type" (by decide)).symm.trans typeIs) isRecord
      cases (qualifiedName_congr (kept "name" (by decide)) (kept "namespace" (by decide))
        named).symm.trans otherNamed
      have related := fields _ isRecord typeIs
      rw [nodesAre, otherNodes] at related
      exact canonicalNode_record isRecord (inner.reannotated related otherInner)

theorem ParsesBranches.reannotated {space : Json} {branches parsed : List Json}
    {start stop : ParseState} :
    ParsesBranches false space branches start parsed stop →
    ∀ {others otherParsed : List Json} {before after : ParseState},
      ReannotatedItems branches others →
      ParsesBranches false space others before otherParsed after →
      canonicalBranches otherParsed = canonicalBranches parsed
  | .nil => by
    intro .nil .nil
    rfl
  | .cons first rest => by
    intro (.cons related relatedRest) (.cons second secondRest)
    rw [canonicalBranches, canonicalBranches, first.reannotated related second,
      rest.reannotated relatedRest secondRest]

theorem ParsesFields.reannotated {space : Json} {nodes parsed : List Json}
    {start stop : ParseState} :
    ParsesFields false space nodes start parsed stop →
    ∀ {others otherParsed : List Json} {before after : ParseState}, ReannotatedFields nodes others →
      ParsesFields false space others before otherParsed after →
      canonicalFields otherParsed = canonicalFields parsed
  | .nil => by
    intro .nil .nil
    rfl
  | .cons listed named under inner rest => by
    intro (.cons sameName type relatedRest) (.cons _ otherNamed otherUnder otherInner otherRest)
    cases (sameName.symm.trans named).symm.trans otherNamed
    have sameType := inner.reannotated (type.under under otherUnder) otherInner
    rw [canonicalFields, canonicalFields, canonicalField_parsed sameType,
      rest.reannotated relatedRest otherRest]

end

mutual

theorem ParsesApart.reannotated {schema plain : Json} {before after : Registry} :
    ParsesApart schema before plain after →
    ∀ {other otherPlain : Json} {start stop : Registry}, Reannotated schema other →
      ParsesApart other start otherPlain stop →
      canonicalNode otherPlain = canonicalNode plain
  | .node notUnion derivation => by
    intro relation second
    cases second with
    | node _ otherDerivation => exact derivation.reannotated relation otherDerivation
    | union _ =>
      cases relation with
      | union _ => exact absurd rfl (notUnion _)
  | .union parts => by
    intro relation second
    cases relation with
    | union branches =>
      cases second with
      | node notUnion _ => exact absurd rfl (notUnion _)
      | union otherParts => rw [canonicalNode, canonicalNode, parts.reannotated branches otherParts]

theorem BranchesApart.reannotated {branches parsed : List Json} {before after : Registry} :
    BranchesApart branches before parsed after →
    ∀ {others otherParsed : List Json} {start stop : Registry},
      ReannotatedItems branches others → BranchesApart others start otherParsed stop →
        canonicalBranches otherParsed = canonicalBranches parsed
  | .nil => by
    intro .nil .nil
    rfl
  | .cons first rest => by
    intro (.cons related relatedRest) (.cons second secondRest)
    rw [canonicalBranches, canonicalBranches, first.reannotated related second,
      rest.reannotated relatedRest secondRest]

end

mutual

/-- The marks of a parsed schema have no part in its canonical form. -/
theorem canonicalNode_marked (registry : Registry) :
    ∀ node : Json, canonicalNode (marked registry node) = canonicalNode node
  | .arr branches => by
    rw [marked, canonicalNode, canonicalNode, canonicalBranches_marked registry branches]
  | .obj members => by
    rcases marked_obj_cases members with isSealed | isKept
    · have notMarks : ∀ key ∈ reservedAttributes.erase "doc", key ∉ marks := by decide
      rw [isSealed registry]
      exact canonicalNode_congr fun key isKey => get?_sealed members registry (notMarks key isKey)
    · rw [isKept registry]
  | .str _ | .null | .bool _ | .int _ | .float _ => by rfl
termination_by structural node => node

theorem canonicalBranches_marked (registry : Registry) : ∀ branches : List Json,
    canonicalBranches (markedBranches registry branches) = canonicalBranches branches
  | [] => by rfl
  | branch :: rest => by
    rw [markedBranches, canonicalBranches, canonicalBranches, canonicalNode_marked registry branch,
      canonicalBranches_marked registry rest]
termination_by structural branches => branches

end

/-! ### Canonical forms of canonical forms -/

/-- No type name, field name or symbol of a schema holds a character that texts have to escape. -/
def LegiblyNamed (schema : Json) : Prop :=
  ∀ ⦃parsed : Json⦄ ⦃registry : Registry⦄ ⦃form : Form⦄,
    parse {} [] schema = .ok (parsed, registry) → HasForm parsed form →
    form.legible = true

private theorem legiblyNamed_of_hasForm {schema parsed : Json} {registry : Registry} {form : Form}
    (parses : parse {} [] schema = .ok (parsed, registry)) (hasForm : HasForm parsed form)
    (legible : form.legible = true) : LegiblyNamed schema := by
  intro again known other parsesAgain hasOther
  cases parses.symm.trans parsesAgain
  rwa [← hasForm.unique other hasOther]

/-- The canonical form of an accepted schema is the text of a document, which is accepted again and
has this canonical form. So has what the schema is parsed to, and every accepted schema that differs
from it in annotations, with what that is parsed to. -/
theorem canonicalForm_canonical {schema parsed : Json} {registry : Registry}
    (plainly : unmarked schema = true) (typed : wellTyped schema = true)
    (named : LegiblyNamed schema) (accepted : parse {} [] schema = .ok (parsed, registry)) :
    ∃ text document, canonicalForm schema = .ok text ∧ Json.parse? text = some document ∧
      canonicalForm document = .ok text ∧ canonicalForm parsed = .ok text ∧
      ∀ ⦃other otherParsed : Json⦄ ⦃otherRegistry : Registry⦄, Reannotated schema other →
        unmarked other = true →
        parse {} [] other = .ok (otherParsed, otherRegistry) →
          canonicalForm other = .ok text ∧ canonicalForm otherParsed = .ok text := by
  obtain ⟨plain, apart, rfl⟩ := (parse_unmarked_iff plainly).mp accepted
  obtain ⟨⟨form, hasForm, -⟩, -⟩ := apart.exists_form typed (by simp [RegistryTyped])
  have markedForm := hasForm.marked registry plain
  refine ⟨_, form.toJson, canonicalForm_of_hasForm accepted markedForm,
    Form.parse?_chars (named accepted markedForm),
    canonicalForm_toJson apart hasForm,
    canonicalForm_of_hasForm (parse_parse accepted) markedForm, ?_⟩
  intro other otherParsed otherRegistry relation otherPlainly otherAccepted
  obtain ⟨otherPlain, otherApart, rfl⟩ := (parse_unmarked_iff otherPlainly).mp otherAccepted
  have sameText : canonicalNode (marked otherRegistry otherPlain) =
      .ok (String.ofList form.chars) := by
    rw [canonicalNode_marked, apart.reannotated relation otherApart, hasForm.canonicalNode]
  constructor
  · rw [canonicalForm, otherAccepted, outcome_ok_bind]
    exact sameText
  · rw [canonicalForm, parse_parse otherAccepted, outcome_ok_bind]
    exact sameText

/-- The reading of a gauge with other remarks, and with logical types. -/
def gaugeNotes : Json :=
  .obj [("doc", .str "in metres"), ("name", .str "Reading"), ("type", .str "record"),
    ("namespace", .str "lab"),
    ("fields", .arr [
      .obj [("name", .str "gauge"), ("aliases", .arr [.str "id"]),
        ("type", .obj [("type", .str "string"), ("logicalType", .str "uuid")])],
      .obj [("name", .str "level"), ("doc", .str "mean"), ("type", .arr [.str "null",
        .obj [("type", .str "fixed"), ("name", .str "Level"), ("size", .int 2),
          ("logicalType", .str "decimal"),
          ("precision", .int 4), ("scale", .int 2)]])],
      .obj [("name", .str "last"), ("type", .arr [.str "null", .str "Reading"]),
        ("default", .null)]])]

set_option maxRecDepth 10000 in
/-- The text of a reading is the canonical form of its own document, and of the reading with other
notes. -/
theorem canonicalForm_canonical_gauge : ∃ document, Json.parse? gaugeText = some document ∧
    canonicalForm document = .ok gaugeText ∧ canonicalForm gaugeReading = .ok gaugeText ∧
    canonicalForm gaugeNotes = .ok gaugeText := by
  obtain ⟨parsed, registry, form, parses, hasForm, legible⟩ : ∃ parsed registry form,
      parse {} [] gaugeReading = .ok (parsed, registry) ∧ HasForm parsed form ∧
      form.legible = true :=
    ⟨_, _, _, rfl, .record rfl (by decide) rfl rfl rfl
      (.cons rfl rfl (.primitive rfl rfl (by decide))
      (.cons rfl rfl (.union (.cons (.word _) (.cons (.fixed rfl rfl rfl rfl) .nil)))
        (.cons rfl rfl (.union (.cons (.word _) (.cons (.word _) .nil))) .nil))), by decide⟩
  obtain ⟨text, document, isForm, denotes, again, -, invariant⟩ :=
    canonicalForm_canonical (by decide) (by decide)
      (legiblyNamed_of_hasForm parses hasForm legible) parses
  obtain rfl : gaugeText = text := Except.ok.inj isForm
  have notCollection {type word key : String} (isType : type ∈ ["record", "string", "fixed"])
      (isCollection : (word, key) ∈ [("array", "items"), ("map", "values")])
      (typeIs : some (Json.str type) = some (.str word)) :
      False := by
    grind
  have notes : Reannotated gaugeReading gaugeNotes := by
    refine .node (by simp [get?])
      (fun _ _ isCollection typeIs => (notCollection (by simp) isCollection typeIs).elim)
      fun _ _ _ => .cons rfl (.cons (.node (by simp [get?]) ?_ (by simp [get?])) .nil)
        (.cons rfl (.cons (.union
          (.cons (.text _) (.cons (.node (by simp [get?]) ?_ (by simp [get?])) .nil))) .nil)
          (.cons rfl (.cons (.union (.cons (.text _) (.cons (.text _) .nil))) .nil) .nil))
    · exact fun _ _ isCollection typeIs => (notCollection (by simp) isCollection typeIs).elim
    · exact fun _ _ isCollection typeIs => (notCollection (by simp) isCollection typeIs).elim
  exact ⟨document, denotes, again, isForm, (invariant notes (by decide) rfl).1⟩

set_option maxRecDepth 10000 in
/-- A schema that is parsed against definitions from elsewhere is accepted with its marks; the
document of its canonical form does not hold these definitions, and is refused. -/
theorem badge_form_refused :
    ∃ badge registry text document, parse {} (markOfSize 1) badgeSchema = .ok (badge, registry) ∧
    parse {} [] badge = .ok (badge, registry) ∧ canonicalForm badge = .ok text ∧
    Json.parse? text = some document ∧
    parse {} [] document = .error (.unknownType (.str "Mark")) := by
  have hasForm : ∃ badge registry, parse {} (markOfSize 1) badgeSchema = .ok (badge, registry) ∧
      parse {} [] badge = .ok (badge, registry) ∧
      HasForm badge (.record "Badge" [("mark", .word "Mark")]) :=
    ⟨_, _, rfl, rfl, .record rfl (by decide) rfl rfl rfl (.cons rfl rfl (.word _) .nil)⟩
  obtain ⟨badge, registry, parses, again, hasForm⟩ := hasForm
  exact ⟨badge, registry, _, _, parses, again, canonicalForm_of_hasForm again hasForm,
    Form.parse?_chars (by decide), rfl⟩

end Avro.Schema
