import Avro.Proofs.Parsing
import Avro.Schema.Canonical

/-!
Contract: what a canonical form says of a schema.

Owns: `Form`, a schema reduced to what its canonical form holds; the text of a form, from which the
form can be read off if its names hold no quotation mark; `HasForm`, the schemas in parsed form that
have a form; and that the canonical form of such a schema is the text of its form.
-/

namespace Avro.Schema

variable {members : Members}
variable {α : Type} {text : α → List Char} {lefts rights : List α} {key : String}

/-! ### Forms and their texts -/

/-- A schema without attributes that do not decide how data is read. -/
inductive Form where
  /-- A primitive type, or a reference to a named type. -/
  | word (name : String)
  | array (items : Form)
  | map (values : Form)
  | enum (name : String) (symbols : List String)
  | fixed (name : String) (size : Int)
  | record (name : String) (fields : List (String × Form))
  | union (branches : List Form)

namespace Form

variable {leftRest rightRest leftText rightText : List Char} {left right name : String}

def inMarks (name : String) : List Char := '"' :: name.toList ++ ['"']

/-- The rest of a list behind its first item, up to the bracket. -/
def more (texts : List (List Char)) : List Char := texts.flatMap (',' :: ·) ++ [']']

/-- A list behind its opening bracket. -/
def listed : List (List Char) → List Char
  | [] => [']']
  | text :: rest => text ++ more rest

/-- An object that starts with its type. -/
def typed (word : String) (rest : List Char) : List Char :=
  '\x7b' :: (inMarks "type" ++ ':' :: (inMarks word ++ (rest ++ ['\x7d'])))

/-- An attribute behind another one. -/
def under (key : String) (rest : List Char) : List Char := ',' :: (inMarks key ++ ':' :: rest)

/-- An object that starts with a name. -/
def named (name : String) (rest : List Char) : List Char :=
  '\x7b' :: (inMarks "name" ++ ':' :: (inMarks name ++ (rest ++ ['\x7d'])))

mutual

def chars : Form → List Char
  | word name => inMarks name
  | array items => typed "array" (under "items" items.chars)
  | map values => typed "map" (under "values" values.chars)
  | enum name symbols => named name
      (under "type" (inMarks "enum" ++ under "symbols" ('[' :: listed (symbols.map inMarks))))
  | fixed name size =>
    named name (under "type" (inMarks "fixed" ++ under "size" (integerText size).toList))
  | record name fields =>
    named name (under "type"
      (inMarks "record" ++ under "fields" ('[' :: listed (charsOfFields fields))))
  | union branches => '[' :: listed (charsOfBranches branches)
termination_by structural form => form

def charsOfBranches : List Form → List (List Char)
  | [] => []
  | branch :: rest => branch.chars :: charsOfBranches rest
termination_by structural branches => branches

def charsOfFields : List (String × Form) → List (List Char)
  | [] => []
  | field :: rest => charsOfField field :: charsOfFields rest
termination_by structural fields => fields

def charsOfField : String × Form → List Char
  | (name, form) => named name (under "type" form.chars)
termination_by structural field => field

end


/-! ### Texts that can be taken apart -/

/-- Two texts, each with what follows it, that are the same only if both parts are. -/
def Splits {α : Type} (text : α → List Char) (left right : α) : Prop :=
  ∀ leftRest rightRest, text left ++ leftRest = text right ++ rightRest →
    left = right ∧ leftRest = rightRest

/-- A text is what stands before the first character that it does not hold. -/
theorem append_cons_inj {mark : Char} {left right : List Char} (notLeft : mark ∉ left)
    (notRight : mark ∉ right) (same : left ++ mark :: leftRest = right ++ mark :: rightRest) :
    left = right ∧ leftRest = rightRest := by
  induction left generalizing right with
  | nil =>
    cases right with
    | nil => simpa using same
    | cons first others =>
      rw [List.nil_append, List.cons_append, List.cons.injEq] at same
      exact absurd (same.1 ▸ List.mem_cons_self) notRight
  | cons first others ih =>
    cases right with
    | nil =>
      rw [List.nil_append, List.cons_append, List.cons.injEq] at same
      exact absurd (same.1 ▸ List.mem_cons_self) notLeft
    | cons other rights =>
      rw [List.cons_append, List.cons_append, List.cons.injEq] at same
      rw [List.mem_cons, not_or] at notLeft notRight
      obtain ⟨rfl, sameRests⟩ := ih notLeft.2 notRight.2 same.2
      exact ⟨by rw [same.1], sameRests⟩

theorem splits_inMarks (leftPlain : '"' ∉ left.toList) (rightPlain : '"' ∉ right.toList) :
    Splits inMarks left right := by
  intro leftRest rightRest same
  simp only [inMarks, List.cons_append, List.append_assoc, List.nil_append, List.cons.injEq,
    true_and] at same
  obtain ⟨sameNames, sameRests⟩ := append_cons_inj leftPlain rightPlain same
  exact ⟨String.toList_inj.mp sameNames, sameRests⟩

private theorem splits_more (each : ∀ left ∈ lefts, ∀ right ∈ rights, Splits text left right) :
    Splits (fun items => more (items.map text)) lefts rights := by
  induction lefts generalizing rights with
  | nil =>
    intro leftRest rightRest same
    cases rights with
    | nil => simpa [more] using same
    | cons right others => simp [more] at same
  | cons left lefts ih =>
    intro leftRest rightRest same
    cases rights with
    | nil => simp [more] at same
    | cons right rights =>
      have first := each left List.mem_cons_self right List.mem_cons_self
      have others := ih fun left isLeft right isRight =>
        each left (List.mem_cons_of_mem _ isLeft) right (List.mem_cons_of_mem _ isRight)
      simp only [more, List.map_cons, List.flatMap_cons, List.cons_append, List.append_assoc,
        List.cons.injEq, true_and] at same
      obtain ⟨rfl, sameRest⟩ := first _ _ same
      obtain ⟨rfl, sameRests⟩ := others leftRest rightRest (by simpa [more] using sameRest)
      exact ⟨rfl, sameRests⟩

/-- Lists can be taken apart if their items can, and no item starts like the end of a list. -/
theorem splits_listed (each : ∀ left ∈ lefts, ∀ right ∈ rights, Splits text left right)
    (starts : ∀ item, ∃ first rest, text item = first :: rest ∧ first ≠ ']') :
    Splits (fun items => listed (items.map text)) lefts rights := by
  intro leftRest rightRest same
  cases lefts with
  | nil =>
    cases rights with
    | nil => simpa [listed] using same
    | cons right others =>
      obtain ⟨first, rest, startsSo, different⟩ := starts right
      simp [listed, startsSo, Ne.symm different] at same
  | cons left lefts =>
    cases rights with
    | nil =>
      obtain ⟨first, rest, startsSo, different⟩ := starts left
      simp [listed, startsSo, different] at same
    | cons right rights =>
      simp only [listed, List.map_cons, List.append_assoc] at same
      obtain ⟨rfl, sameRest⟩ := each left List.mem_cons_self right List.mem_cons_self _ _ same
      have others := splits_more fun left isLeft right isRight =>
        each left (List.mem_cons_of_mem _ isLeft) right (List.mem_cons_of_mem _ isRight)
      obtain ⟨rfl, sameRests⟩ := others leftRest rightRest sameRest
      exact ⟨rfl, sameRests⟩

/-- The part of an object behind its type or name can be taken apart from what follows the
object. -/
theorem typed_inj (leftPlain : '"' ∉ left.toList) (rightPlain : '"' ∉ right.toList)
    (same : typed left leftText ++ leftRest = typed right rightText ++ rightRest) :
    left = right ∧ leftText ++ '\x7d' :: leftRest = rightText ++ '\x7d' :: rightRest := by
  simp only [typed, List.append_assoc, List.cons_append, List.nil_append, List.cons.injEq, true_and,
    List.append_cancel_left_eq] at same
  exact splits_inMarks leftPlain rightPlain _ _ same

theorem named_inj (leftPlain : '"' ∉ left.toList) (rightPlain : '"' ∉ right.toList)
    (same : named left leftText ++ leftRest = named right rightText ++ rightRest) :
    left = right ∧ leftText ++ '\x7d' :: leftRest = rightText ++ '\x7d' :: rightRest := by
  simp only [named, List.append_assoc, List.cons_append, List.nil_append, List.cons.injEq, true_and,
    List.append_cancel_left_eq] at same
  exact splits_inMarks leftPlain rightPlain _ _ same

theorem under_inj (same : under key leftText ++ leftRest = under key rightText ++ rightRest) :
    leftText ++ leftRest = rightText ++ rightRest := by
  simpa only [under, List.append_assoc, List.cons_append, List.nil_append, List.cons.injEq,
    true_and, List.append_cancel_left_eq] using same

def isPlain (name : String) : Bool := !name.toList.contains '"'

theorem notMem_of_isPlain (plain : isPlain name = true) : '"' ∉ name.toList := by
  simpa [isPlain] using plain

mutual

/-- Whether the names of types and fields and the symbols in a form hold no quotation mark. -/
def plain : Form → Bool
  | word name => isPlain name
  | array items => items.plain
  | map values => values.plain
  | enum name symbols => isPlain name && symbols.all isPlain
  | fixed name _ => isPlain name
  | record name fields => isPlain name && fieldsPlain fields
  | union branches => branchesPlain branches
termination_by structural form => form

def branchesPlain : List Form → Bool
  | [] => true
  | branch :: rest => branch.plain && branchesPlain rest
termination_by structural branches => branches

def fieldsPlain : List (String × Form) → Bool
  | [] => true
  | field :: rest => fieldPlain field && fieldsPlain rest
termination_by structural fields => fields

def fieldPlain : String × Form → Bool
  | (name, form) => isPlain name && form.plain
termination_by structural field => field

end

private theorem charsOfBranches_eq (branches : List Form) :
    charsOfBranches branches = branches.map chars := by
  induction branches with
  | nil => rfl
  | cons branch rest ih => rw [charsOfBranches, List.map_cons, ih]

private theorem charsOfFields_eq (fields : List (String × Form)) :
    charsOfFields fields = fields.map charsOfField := by
  induction fields with
  | nil => rfl
  | cons field rest ih => rw [charsOfFields, List.map_cons, ih]

private theorem branchesPlain_eq (branches : List Form) :
    branchesPlain branches = branches.all plain := by
  induction branches with
  | nil => rfl
  | cons branch rest ih => rw [branchesPlain, List.all_cons, ih]

private theorem fieldsPlain_eq (fields : List (String × Form)) :
    fieldsPlain fields = fields.all fieldPlain := by
  induction fields with
  | nil => rfl
  | cons field rest ih => rw [fieldsPlain, List.all_cons, ih]

private theorem starts_chars (form : Form) :
    ∃ first rest, form.chars = first :: rest ∧ first ≠ ']' := by
  cases form with
  | word name => exact ⟨_, _, rfl, by decide⟩
  | union branches => exact ⟨_, _, rfl, by decide⟩
  | _ => exact ⟨'\x7b', _, rfl, by decide⟩

private theorem starts_charsOfField (field : String × Form) :
    ∃ first rest, charsOfField field = first :: rest ∧ first ≠ ']' := by
  obtain ⟨name, form⟩ := field
  exact ⟨'\x7b', _, rfl, by decide⟩

private theorem integerText_eq (value : Int) : integerText value = value.repr := by
  cases value with
  | ofNat value => rfl
  | negSucc value =>
    unfold integerText
    rw [if_pos (Int.negSucc_lt_zero value)]
    rfl

private theorem notMem_integerText (value : Int) : '\x7d' ∉ (integerText value).toList := by
  have notDigit (count : Nat) : '\x7d' ∉ Nat.toDigits 10 count := fun isIn =>
    absurd (Nat.isDigit_of_mem_toDigits (by decide) (by decide) isIn) (by decide)
  unfold integerText decimalDigits
  split
  · simp [notDigit]
  · simp [notDigit]

theorem typed_ne_named {word : String} {left right : List Char}
    (same : typed word left ++ leftRest = named name right ++ rightRest) : False := by
  have third : some 't' = some 'n' := congrArg (fun text : List Char => text[2]?) same
  exact absurd third (by decide)

private theorem kind_inj (leftPlain : '"' ∉ left.toList) (rightPlain : '"' ∉ right.toList)
    (same : under "type" (inMarks left ++ leftText) ++ leftRest =
      under "type" (inMarks right ++ rightText) ++ rightRest) :
    left = right ∧ leftText ++ leftRest = rightText ++ rightRest := by
  have sameKinds := under_inj same
  rw [List.append_assoc, List.append_assoc] at sameKinds
  exact splits_inMarks leftPlain rightPlain _ _ sameKinds

/-- A form whose text starts like that of a named type is such a type, of the same name and kind. -/
theorem eq_of_chars_named {kind : String} {text rest : List Char} {right : Form}
    (rightPlain : right.plain = true)
    (namePlain : '"' ∉ name.toList) (kindPlain : '"' ∉ kind.toList)
    (same : named name (under "type" (inMarks kind ++ text)) ++ rest = right.chars ++ rightRest) :
    (∃ symbols, right = enum name symbols ∧ kind = "enum" ∧
      text ++ '\x7d' :: rest = under "symbols" ('[' :: listed (symbols.map inMarks)) ++
      '\x7d' :: rightRest) ∨
    (∃ size, right = fixed name size ∧ kind = "fixed" ∧
      text ++ '\x7d' :: rest = under "size" (integerText size).toList ++ '\x7d' :: rightRest) ∨
    ∃ fields, right = record name fields ∧ kind = "record" ∧
      text ++ '\x7d' :: rest = under "fields" ('[' :: listed (charsOfFields fields)) ++ '\x7d' ::
      rightRest := by
  cases right with
  | word other => exact absurd (congrArg List.head? same) (show some '\x7b' ≠ some '"' by decide)
  | union branches =>
    exact absurd (congrArg List.head? same) (show some '\x7b' ≠ some '[' by decide)
  | array items => exact (typed_ne_named same.symm).elim
  | map values => exact (typed_ne_named same.symm).elim
  | enum other symbols =>
    rw [plain, Bool.and_eq_true] at rightPlain
    obtain ⟨rfl, sameKinds⟩ := named_inj namePlain (notMem_of_isPlain rightPlain.1) same
    obtain ⟨rfl, sameTexts⟩ := kind_inj kindPlain (show '"' ∉ "enum".toList by decide) sameKinds
    exact .inl ⟨symbols, rfl, rfl, sameTexts⟩
  | fixed other size =>
    obtain ⟨rfl, sameKinds⟩ := named_inj namePlain (notMem_of_isPlain rightPlain) same
    obtain ⟨rfl, sameTexts⟩ := kind_inj kindPlain (show '"' ∉ "fixed".toList by decide) sameKinds
    exact .inr (.inl ⟨size, rfl, rfl, sameTexts⟩)
  | record other fields =>
    rw [plain, Bool.and_eq_true] at rightPlain
    obtain ⟨rfl, sameKinds⟩ := named_inj namePlain (notMem_of_isPlain rightPlain.1) same
    obtain ⟨rfl, sameTexts⟩ := kind_inj kindPlain (show '"' ∉ "record".toList by decide) sameKinds
    exact .inr (.inr ⟨fields, rfl, rfl, sameTexts⟩)

mutual

/-- A form whose names hold no quotation mark can be read off its text. -/
theorem splits_chars :
    ∀ left : Form, left.plain = true → ∀ right : Form, right.plain = true → Splits chars left right
  | word name, leftPlain, right, rightPlain => by
    intro leftRest rightRest same
    cases right with
    | word other =>
      obtain ⟨rfl, sameRests⟩ :=
        splits_inMarks (notMem_of_isPlain leftPlain) (notMem_of_isPlain rightPlain) _ _ same
      exact ⟨rfl, sameRests⟩
    | union branches => exact absurd (congrArg List.head? same) (show some '"' ≠ some '[' by decide)
    | _ => exact absurd (congrArg List.head? same) (show some '"' ≠ some '\x7b' by decide)
  | array items, leftPlain, right, rightPlain => by
    intro leftRest rightRest same
    cases right with
    | array others =>
      obtain ⟨-, same⟩ := typed_inj (by decide) (by decide) same
      obtain ⟨rfl, sameRests⟩ := splits_chars items leftPlain others rightPlain _ _ (under_inj same)
      exact ⟨rfl, (List.cons.inj sameRests).2⟩
    | map values => exact absurd (typed_inj (by decide) (by decide) same).1 (by decide)
    | word other => exact absurd (congrArg List.head? same) (show some '\x7b' ≠ some '"' by decide)
    | union branches =>
      exact absurd (congrArg List.head? same) (show some '\x7b' ≠ some '[' by decide)
    | _ => exact (typed_ne_named same).elim
  | map values, leftPlain, right, rightPlain => by
    intro leftRest rightRest same
    cases right with
    | map others =>
      obtain ⟨-, same⟩ := typed_inj (by decide) (by decide) same
      obtain ⟨rfl, sameRests⟩ :=
        splits_chars values leftPlain others rightPlain _ _ (under_inj same)
      exact ⟨rfl, (List.cons.inj sameRests).2⟩
    | array items => exact absurd (typed_inj (by decide) (by decide) same).1 (by decide)
    | word other => exact absurd (congrArg List.head? same) (show some '\x7b' ≠ some '"' by decide)
    | union branches =>
      exact absurd (congrArg List.head? same) (show some '\x7b' ≠ some '[' by decide)
    | _ => exact (typed_ne_named same).elim
  | enum name symbols, leftPlain, right, rightPlain => by
    intro leftRest rightRest same
    rw [plain, Bool.and_eq_true, List.all_eq_true] at leftPlain
    rcases eq_of_chars_named rightPlain (notMem_of_isPlain leftPlain.1) (by decide) same with
      ⟨others, rfl, -, same⟩ | ⟨_, _, otherKind, _⟩ | ⟨_, _, otherKind, _⟩
    · rw [plain, Bool.and_eq_true, List.all_eq_true] at rightPlain
      have inBrackets := (List.cons.inj (under_inj same)).2
      have each (left) (isLeft : left ∈ symbols) (right) (isRight : right ∈ others) :
          Splits inMarks left right :=
        splits_inMarks (notMem_of_isPlain (leftPlain.2 left isLeft))
          (notMem_of_isPlain (rightPlain.2 right isRight))
      obtain ⟨rfl, sameRests⟩ := splits_listed each (fun _ => ⟨_, _, rfl, by decide⟩) _ _ inBrackets
      exact ⟨rfl, (List.cons.inj sameRests).2⟩
    · exact absurd otherKind (by decide)
    · exact absurd otherKind (by decide)
  | fixed name size, leftPlain, right, rightPlain => by
    intro leftRest rightRest same
    rcases eq_of_chars_named rightPlain (notMem_of_isPlain leftPlain) (by decide) same with
      ⟨_, _, otherKind, _⟩ | ⟨other, rfl, -, same⟩ | ⟨_, _, otherKind, _⟩
    · exact absurd otherKind (by decide)
    · obtain ⟨sameDigits, sameRests⟩ :=
        append_cons_inj (notMem_integerText size) (notMem_integerText other) (under_inj same)
      rw [String.toList_inj, integerText_eq, integerText_eq] at sameDigits
      exact ⟨by rw [Int.repr_injective sameDigits], sameRests⟩
    · exact absurd otherKind (by decide)
  | record name fields, leftPlain, right, rightPlain => by
    intro leftRest rightRest same
    rw [plain, Bool.and_eq_true] at leftPlain
    rcases eq_of_chars_named rightPlain (notMem_of_isPlain leftPlain.1) (by decide) same with
      ⟨_, _, otherKind, _⟩ | ⟨_, _, otherKind, _⟩ | ⟨others, rfl, -, same⟩
    · exact absurd otherKind (by decide)
    · exact absurd otherKind (by decide)
    · rw [plain, Bool.and_eq_true, fieldsPlain_eq, List.all_eq_true] at rightPlain
      have inBrackets := (List.cons.inj (under_inj same)).2
      rw [charsOfFields_eq, charsOfFields_eq] at inBrackets
      have each := splits_fields fields leftPlain.2
      obtain ⟨rfl, sameRests⟩ :=
        splits_listed (fun left isLeft right isRight =>
          each left isLeft right (rightPlain.2 right isRight))
        starts_charsOfField _ _ inBrackets
      exact ⟨rfl, (List.cons.inj sameRests).2⟩
  | union branches, leftPlain, right, rightPlain => by
    intro leftRest rightRest same
    cases right with
    | union others =>
      rw [plain, branchesPlain_eq, List.all_eq_true] at rightPlain
      rw [chars, chars, charsOfBranches_eq, charsOfBranches_eq, List.cons_append, List.cons_append,
        List.cons.injEq] at same
      have each := splits_branches branches leftPlain
      obtain ⟨rfl, sameRests⟩ :=
        splits_listed (fun left isLeft right isRight =>
          each left isLeft right (rightPlain right isRight))
        starts_chars _ _ same.2
      exact ⟨rfl, sameRests⟩
    | word other => exact absurd (congrArg List.head? same) (show some '[' ≠ some '"' by decide)
    | _ => exact absurd (congrArg List.head? same) (show some '[' ≠ some '\x7b' by decide)
termination_by structural left => left

theorem splits_branches :
    ∀ lefts : List Form, branchesPlain lefts = true →
      ∀ left ∈ lefts, ∀ right : Form, right.plain = true →
    Splits chars left right
  | [], _ => fun _ isLeft => absurd isLeft List.not_mem_nil
  | first :: rest, leftPlain => by
    rw [branchesPlain, Bool.and_eq_true] at leftPlain
    rw [List.forall_mem_cons]
    exact ⟨splits_chars first leftPlain.1, splits_branches rest leftPlain.2⟩
termination_by structural lefts => lefts

theorem splits_fields :
    ∀ lefts : List (String × Form), fieldsPlain lefts = true →
      ∀ left ∈ lefts, ∀ right : String × Form,
    fieldPlain right = true → Splits charsOfField left right
  | [], _ => fun _ isLeft => absurd isLeft List.not_mem_nil
  | first :: rest, leftPlain => by
    rw [fieldsPlain, Bool.and_eq_true] at leftPlain
    rw [List.forall_mem_cons]
    exact ⟨splits_field first leftPlain.1, splits_fields rest leftPlain.2⟩
termination_by structural lefts => lefts

theorem splits_field :
    ∀ left : String × Form, fieldPlain left = true →
      ∀ right : String × Form, fieldPlain right = true →
    Splits charsOfField left right
  | (name, form), leftPlain, (otherName, other), rightPlain => by
    intro leftRest rightRest same
    rw [fieldPlain, Bool.and_eq_true] at leftPlain rightPlain
    rw [charsOfField, charsOfField] at same
    obtain ⟨rfl, sameTypes⟩ :=
      named_inj (notMem_of_isPlain leftPlain.1) (notMem_of_isPlain rightPlain.1) same
    obtain ⟨rfl, sameRests⟩ :=
      splits_chars form leftPlain.2 other rightPlain.2 _ _ (under_inj sameTypes)
    exact ⟨rfl, (List.cons.inj sameRests).2⟩
termination_by structural left => left

end

/-- Forms whose names hold no quotation mark are the same if their texts are. -/
theorem eq_of_chars {left right : Form} (leftPlain : left.plain = true)
    (rightPlain : right.plain = true) (same : left.chars = right.chars) : left = right := by
  refine (splits_chars left leftPlain right rightPlain [] [] ?_).1
  rw [same]

end Form

/-! ### Schemas of a form -/

mutual

/-- A schema in parsed form has a canonical content: no logical type, and attributes of the
prescribed types. -/
inductive HasForm : Json → Form → Prop where
  | word (name : String) : HasForm (.str name) (.word name)
  | primitive {members : List (String × Json)} {word : String}
      (typeIs : Members.get? members "type" = some (.str word))
      (plain : Members.get? members "logicalType" = none) (isPrimitive : word ∈ primitiveNames) :
      HasForm (.obj members) (.word word)
  | array {members : List (String × Json)} {node : Json} {items : Form}
      (typeIs : Members.get? members "type" = some (.str "array"))
      (plain : Members.get? members "logicalType" = none)
      (itemsAre : Members.get? members "items" = some node)
      (inner : HasForm node items) : HasForm (.obj members) (.array items)
  | map {members : List (String × Json)} {node : Json} {values : Form}
      (typeIs : Members.get? members "type" = some (.str "map"))
      (plain : Members.get? members "logicalType" = none)
      (valuesAre : Members.get? members "values" = some node)
      (inner : HasForm node values) : HasForm (.obj members) (.map values)
  | enum {members : List (String × Json)} {name : String} {symbols : List String}
      (typeIs : Members.get? members "type" = some (.str "enum"))
      (plain : Members.get? members "logicalType" = none)
      (nameIs : Members.get? members "name" = some (.str name))
      (symbolsAre : Members.get? members "symbols" = some (.arr (symbols.map .str))) :
      HasForm (.obj members) (.enum name symbols)
  | fixed {members : List (String × Json)} {name : String} {size : Int}
      (typeIs : Members.get? members "type" = some (.str "fixed"))
      (plain : Members.get? members "logicalType" = none)
      (nameIs : Members.get? members "name" = some (.str name))
      (sizeIs : Members.get? members "size" = some (.int size)) :
      HasForm (.obj members) (.fixed name size)
  | record {members : List (String × Json)} {word name : String} {nodes : List Json}
      {fields : List (String × Form)}
      (typeIs : Members.get? members "type" = some (.str word))
      (isRecord : word ∈ ["record", "error"])
      (plain : Members.get? members "logicalType" = none)
      (nameIs : Members.get? members "name" = some (.str name))
      (fieldsAre : Members.get? members "fields" = some (.arr nodes))
      (inner : FieldsHaveForm nodes fields) :
      HasForm (.obj members) (.record name fields)
  | union {branches : List Json} {forms : List Form} (inner : BranchesHaveForm branches forms) :
      HasForm (.arr branches) (.union forms)

inductive BranchesHaveForm : List Json → List Form → Prop where
  | nil : BranchesHaveForm [] []
  | cons {branch : Json} {rest : List Json} {form : Form} {forms : List Form}
      (first : HasForm branch form)
      (others : BranchesHaveForm rest forms) : BranchesHaveForm (branch :: rest) (form :: forms)

inductive FieldsHaveForm : List Json → List (String × Form) → Prop where
  | nil : FieldsHaveForm [] []
  | cons {members : List (String × Json)} {node : Json} {rest : List Json} {name : String}
      {form : Form}
      {fields : List (String × Form)} (nameIs : Members.get? members "name" = some (.str name))
      (typeIs : Members.get? members "type" = some node) (inner : HasForm node form)
      (others : FieldsHaveForm rest fields) :
      FieldsHaveForm (.obj members :: rest) ((name, form) :: fields)

end

/-! ### The canonical form of a schema is the text of its form -/

open Form (inMarks listed more typed named under charsOfBranches charsOfFields charsOfField)

theorem canonicalUnder_eq (key : String) (members : Members) :
    canonicalUnder key members = ((Members.get? members key).map canonicalNode).getD
      (.error .missingKey) := by
  induction members with
  | nil => rfl
  | cons member rest ih =>
    obtain ⟨other, node⟩ := member
    rw [canonicalUnder, Members.get?_cons, ih]
    split <;> rfl

theorem canonicalUnder_of_get? {node : Json} (found : Members.get? members key = some node) :
    canonicalUnder key members = canonicalNode node := by
  rw [canonicalUnder_eq, found]
  rfl

/-- The fields of a record are looked up once; what is found is taken by itself. -/
theorem canonicalFieldsIn_eq (members : Members) : canonicalFieldsIn members =
    ((Members.get? members "fields").map fun value => canonicalFieldsIn [("fields", value)]).getD
      (.error .missingKey) := by
  induction members with
  | nil => rfl
  | cons member rest ih =>
    obtain ⟨other, value⟩ := member
    rw [Members.get?_cons]
    by_cases wanted : other = "fields"
    · rw [if_pos wanted, Option.map_some, Option.getD_some]
      cases value <;> simp [canonicalFieldsIn, wanted]
    · rw [if_neg wanted, ← ih]
      cases value <;> simp [canonicalFieldsIn, wanted]

theorem canonicalFieldsIn_of_get? {nodes : List Json}
    (found : Members.get? members "fields" = some (.arr nodes)) :
    canonicalFieldsIn members = canonicalFields nodes := by
  rw [canonicalFieldsIn_eq, found]
  rfl

theorem intercalate_listed (texts : List (List Char)) (rest : List Char) :
    List.intercalate [','] texts ++ ']' :: rest = listed texts ++ rest := by
  cases texts with
  | nil => rfl
  | cons text others =>
    rw [listed]
    induction others generalizing text with
    | nil => simp [more]
    | cons next others ih =>
      rw [List.intercalate_cons_cons, List.append_assoc, ih]
      simp [more]

theorem toList_inQuotes (text : String) : (inQuotes text).toList = inMarks text := by
  simp [inQuotes, inMarks]

theorem displayed_str (text : String) : Json.displayed (.str text) = text := rfl

theorem displayed_int (value : Int) : Json.displayed (.int value) = integerText value := rfl

mutual

theorem HasForm.canonicalNode {node : Json} {form : Form} : HasForm node form →
    Schema.canonicalNode node = .ok (String.ofList form.chars)
  | .word name => by
    refine congrArg Except.ok (String.toList_inj.mp ?_)
    rw [displayed_str, toList_inQuotes, String.toList_ofList, Form.chars]
  | @HasForm.primitive members word typeIs _ isPrimitive => by
    have isWord : Schema.canonicalNode (.obj members) = .ok (inQuotes word) := by
      rw [Schema.canonicalNode, required_ok.mpr typeIs]
      simp only [primitiveNames, List.mem_cons, List.not_mem_nil, or_false] at isPrimitive
      rcases isPrimitive with rfl | rfl | rfl | rfl | rfl | rfl | rfl | rfl <;> rfl
    rw [isWord]
    refine congrArg Except.ok (String.toList_inj.mp ?_)
    rw [toList_inQuotes, String.toList_ofList, Form.chars]
  | .array typeIs _ itemsAre inner => by
    rw [Schema.canonicalNode, required_ok.mpr typeIs]
    change (canonicalUnder "items" _ >>= _) = _
    rw [canonicalUnder_of_get? itemsAre, inner.canonicalNode]
    refine congrArg Except.ok (String.toList_inj.mp ?_)
    simp [Form.chars, typed, under, inMarks]
  | .map typeIs _ valuesAre inner => by
    rw [Schema.canonicalNode, required_ok.mpr typeIs]
    change (canonicalUnder "values" _ >>= _) = _
    rw [canonicalUnder_of_get? valuesAre, inner.canonicalNode]
    refine congrArg Except.ok (String.toList_inj.mp ?_)
    simp [Form.chars, typed, under, inMarks]
  | @HasForm.enum members name symbols typeIs _ nameIs symbolsAre => by
    rw [Schema.canonicalNode, required_ok.mpr typeIs]
    change canonicalEnum members = _
    rw [canonicalEnum, required_ok.mpr nameIs, required_ok.mpr symbolsAre]
    refine congrArg Except.ok (String.toList_inj.mp ?_)
    have symbolTexts : ((symbols.map Json.str).map fun symbol => inQuotes symbol.displayed).map
      String.toList =
        symbols.map inMarks := by
      simp [Function.comp_def, displayed_str, toList_inQuotes]
    simp only [String.toList_append, String.toList_intercalate, symbolTexts, toList_inQuotes,
      displayed_str]
    simp [Form.chars, named, under, inMarks, intercalate_listed]
  | .fixed typeIs _ nameIs sizeIs => by
    rw [Schema.canonicalNode, required_ok.mpr typeIs]
    change canonicalFixed _ = _
    rw [canonicalFixed, required_ok.mpr nameIs, required_ok.mpr sizeIs]
    refine congrArg Except.ok (String.toList_inj.mp ?_)
    simp [Form.chars, named, under, inMarks, inQuotes, displayed_str, displayed_int]
  | @HasForm.record members word name nodes fields typeIs isRecord _ nameIs fieldsAre inner => by
    have isNamed : Schema.canonicalNode (.obj members) =
        canonicalRecord members (canonicalFieldsIn members) := by
      rw [Schema.canonicalNode, required_ok.mpr typeIs]
      rcases List.mem_pair.mp isRecord with rfl | rfl <;> rfl
    rw [isNamed, canonicalFieldsIn_of_get? fieldsAre, inner.canonicalFields, canonicalRecord,
      required_ok.mpr nameIs]
    refine congrArg Except.ok (String.toList_inj.mp ?_)
    simp [Form.chars, named, under, inMarks, inQuotes, displayed_str, intercalate_listed]
  | .union inner => by
    rw [Schema.canonicalNode, inner.canonicalBranches]
    refine congrArg Except.ok (String.toList_inj.mp ?_)
    simp [Form.chars, intercalate_listed]

theorem BranchesHaveForm.canonicalBranches {branches : List Json} {forms : List Form} :
    BranchesHaveForm branches forms →
    Schema.canonicalBranches branches = .ok ((charsOfBranches forms).map String.ofList)
  | .nil => by rfl
  | .cons first others => by
    rw [Schema.canonicalBranches, first.canonicalNode, others.canonicalBranches]
    rfl

theorem FieldsHaveForm.canonicalFields {nodes : List Json} {fields : List (String × Form)} :
    FieldsHaveForm nodes fields →
    Schema.canonicalFields nodes = .ok ((charsOfFields fields).map String.ofList)
  | .nil => by rfl
  | @FieldsHaveForm.cons members _ _ name form _ nameIs typeIs inner others => by
    have fieldText : canonicalField (.obj members) =
        .ok (String.ofList (charsOfField (name, form))) := by
      rw [canonicalField, required_ok.mpr nameIs, canonicalUnder_of_get? typeIs,
        inner.canonicalNode]
      refine congrArg Except.ok (String.toList_inj.mp ?_)
      simp [charsOfField, named, under, inMarks, inQuotes, displayed_str]
    rw [Schema.canonicalFields, fieldText, others.canonicalFields]
    rfl

end

end Avro.Schema
