import Avro.Proofs.Members
import Avro.Proofs.NumberText

/-!
Contract: reading undoes printing of documents, in every layout.

Owns: the reading of escaped strings, `ReadsAs`, which says what a text is read as whatever follows
it, for every form of a document, and `parse?_print`.

A document is read back as it was, except that each floating-point number becomes what its text is
read as. Of objects with a key twice only the last value would come back, so they are left out.
-/

namespace Avro.Json

variable {code fuel level : Nat} {character digit : Char} {rest text part gap after : List Char}
  {document : Json} {values : List Json} {parts : List (List Char)} {layout : Layout}
  {members : Members}

/-! ### Strings -/

theorem hexValue?_hexDigit (value : Nat) :
    Text.hexValue? (Text.hexDigit value) = some (value % 16) := by
  have below : value % 16 < 16 := Nat.mod_lt _ (by decide)
  unfold Text.hexDigit
  generalize value % 16 = digit at below ⊢
  revert digit
  decide

theorem codeUnit?_hexDigits (code : Nat) (short : code < 0x10000) :
    ∃ a b c d, Text.hexDigits 4 code = [a, b, c, d] ∧ codeUnit? a b c d = some code := by
  refine ⟨_, _, _, _, rfl, ?_⟩
  simp only [codeUnit?, hexValue?_hexDigit, Option.bind_eq_bind, Option.bind_some, Option.pure_def,
    Option.some.injEq]
  omega

private theorem unitCharacter_eq (plain : code < 0xd800 ∨ 0xe000 ≤ code) :
    unitCharacter code = Char.ofNat code := by
  unfold unitCharacter
  rw [if_neg]
  simp only [Bool.and_eq_true, decide_eq_true_eq, not_and, not_lt]
  omega

/-- A code unit that is no surrogate is read on its own, also in front of another escape. -/
theorem parseString_unit (done rest : List Char) (short : code < 0x10000)
    (plain : code < 0xd800 ∨ 0xe000 ≤ code) :
    parseString done ('\\' :: 'u' :: Text.hexDigits 4 code ++ rest) =
      parseString (Char.ofNat code :: done) rest := by
  obtain ⟨a, b, c, d, digits, unit⟩ := codeUnit?_hexDigits code short
  have notHigh : isHighSurrogate code = false := by
    simp only [isHighSurrogate, Bool.and_eq_false_iff, decide_eq_false_iff_not]
    omega
  rw [digits]
  change parseString done ('\\' :: 'u' :: a :: b :: c :: d :: rest) = _
  by_cases another : ∃ e f g h tail, rest = '\\' :: 'u' :: e :: f :: g :: h :: tail
  · obtain ⟨e, f, g, h, tail, rfl⟩ := another
    simp only [parseString.eq_3, unit, notHigh, unitCharacter_eq plain,
      Bool.false_eq_true, if_false]
  · have alone (e f g h : Char) (tail : List Char)
        (same : rest = '\\' :: 'u' :: e :: f :: g :: h :: tail) : False :=
      another ⟨e, f, g, h, tail, same⟩
    simp only [parseString.eq_4 done a b c d rest alone, unit, unitCharacter_eq plain]

private theorem parseString_pair (done rest : List Char) (long : 0x10000 ≤ code)
    (bounded : code < 0x110000) :
    parseString done ('\\' :: 'u' :: Text.hexDigits 4 (0xd800 + (code - 0x10000) / 0x400)
      ++ '\\' :: 'u' :: Text.hexDigits 4 (0xdc00 + (code - 0x10000) % 0x400) ++ rest)
      = parseString (Char.ofNat code :: done) rest := by
  obtain ⟨a, b, c, d, highDigits, high⟩ :=
    codeUnit?_hexDigits (0xd800 + (code - 0x10000) / 0x400) (by omega)
  obtain ⟨e, f, g, h, lowDigits, low⟩ :=
    codeUnit?_hexDigits (0xdc00 + (code - 0x10000) % 0x400) (by omega)
  have isHigh : isHighSurrogate (0xd800 + (code - 0x10000) / 0x400) = true := by
    simp only [isHighSurrogate, Bool.and_eq_true, decide_eq_true_eq]
    omega
  have isLow : isLowSurrogate (0xdc00 + (code - 0x10000) % 0x400) = true := by
    simp only [isLowSurrogate, Bool.and_eq_true, decide_eq_true_eq]
    omega
  have joined : 0x10000 + (0xd800 + (code - 0x10000) / 0x400 - 0xd800) * 0x400
      + (0xdc00 + (code - 0x10000) % 0x400 - 0xdc00) = code := by
    omega
  rw [highDigits, lowDigits]
  change parseString done ('\\' :: 'u' :: a :: b :: c :: d :: '\\' :: 'u' :: e :: f :: g ::
    h :: rest) = _
  simp only [parseString.eq_3, high, low, isHigh, isLow, if_true, joined]

private theorem toNat_not_surrogate (character : Char) :
    character.toNat < 0xd800 ∨ 0xe000 ≤ character.toNat ∧ character.toNat < 0x110000 := by
  rcases character.valid with low | ⟨high, bounded⟩
  · exact Or.inl low
  · exact Or.inr ⟨by simpa [Nat.succ_le_iff] using high, bounded⟩

private theorem parseString_unicodeEscape (character : Char) (done rest : List Char) :
    parseString done (unicodeEscape character ++ rest) = parseString (character :: done) rest := by
  have valid := toNat_not_surrogate character
  unfold unicodeEscape
  by_cases short : character.toNat < 0x10000
  · simp only [short, if_true]
    rw [parseString_unit done rest short (by omega), Char.ofNat_toNat]
  · simp only [short, if_false]
    rw [parseString_pair done rest (by omega) (by omega), Char.ofNat_toNat]

private theorem parseString_simpleEscape {escape : Char} (done rest : List Char)
    (known : simpleEscape? escape = some character) :
    parseString done ('\\' :: escape :: rest) = parseString (character :: done) rest := by
  have notUnit : escape ≠ 'u' := by
    rintro rfl
    simp [simpleEscape?] at known
  rw [parseString.eq_5 done escape rest (fun _ _ _ _ _ _ _ _ _ isUnit _ => notUnit isUnit)
    (fun _ _ _ _ _ isUnit _ => notUnit isUnit), known]

private theorem parseString_plain (done rest : List Char) (notMark : character ≠ '"')
    (notEscape : character ≠ '\\')
    (visible : 0x20 ≤ character.toNat) :
    parseString done (character :: rest) = parseString (character :: done) rest := by
  rw [parseString.eq_6 done character rest notMark
    (fun _ _ _ _ _ _ _ _ _ isMark _ => notEscape isMark)
      (fun _ _ _ _ _ isMark _ => notEscape isMark) (fun _ _ isMark _ => notEscape isMark)]
  rw [if_neg]
  simp only [Bool.or_eq_true, decide_eq_true_eq, beq_iff_eq, notEscape, or_false, not_lt]
  exact visible

private theorem parseString_escapeCharacter (asciiOnly : Bool) (character : Char)
    (done rest : List Char) :
    parseString done (escapeCharacter asciiOnly character ++ rest) =
      parseString (character :: done) rest := by
  have eq_of_code {code : Nat} (same : character.toNat = code) : character = Char.ofNat code := by
    rw [← same, Char.ofNat_toNat]
  unfold escapeCharacter
  simp only [beq_iff_eq, Bool.and_eq_true, decide_eq_true_eq]
  split_ifs with isMark isEscape isNewline isReturn isTab isBack isFeed isControl isBeyond
  · subst isMark
    exact parseString_simpleEscape done rest rfl
  · subst isEscape
    exact parseString_simpleEscape done rest rfl
  · subst isNewline
    exact parseString_simpleEscape done rest rfl
  · subst isReturn
    exact parseString_simpleEscape done rest rfl
  · subst isTab
    exact parseString_simpleEscape done rest rfl
  · rw [eq_of_code isBack]
    exact parseString_simpleEscape done rest rfl
  · rw [eq_of_code isFeed]
    exact parseString_simpleEscape done rest rfl
  · exact parseString_unicodeEscape character done rest
  · exact parseString_unicodeEscape character done rest
  · exact parseString_plain done rest isMark isEscape (by omega)

theorem parseString_escaped (asciiOnly : Bool) (text done rest : List Char) :
    parseString done (text.flatMap (escapeCharacter asciiOnly) ++ '"' :: rest)
      = some (String.ofList (done.reverse ++ text), rest) := by
  induction text generalizing done with
  | nil => simp [parseString_quote]
  | cons character others ih =>
    rw [List.flatMap_cons, List.append_assoc, parseString_escapeCharacter, ih]
    simp

theorem toList_stringText (asciiOnly : Bool) (text : String) :
    (stringText asciiOnly text).toList = '"' ::
    text.toList.flatMap (escapeCharacter asciiOnly) ++ ['"'] := by
  simp [stringText]

/-! ### Texts that are read as a document -/

/-- What a text is read as, whatever follows that does not continue it, with fuel beyond its
length. -/
def ReadsAs (text : List Char) (document : Json) : Prop :=
  ∀ fuel rest, text.length ≤ fuel → EndsNumber rest →
    parseValue (fuel + 1) (text ++ rest) = some (document, rest)

theorem readsAs_stringText (asciiOnly : Bool) (text : String) :
    ReadsAs (stringText asciiOnly text).toList (.str text) := by
  intro fuel rest enough ends
  rw [toList_stringText]
  simp [parseValue_quote, parseString_escaped]

theorem parseValue_digit (isDigit : isDigit digit = true) :
    parseValue (fuel + 1) (digit :: rest) = parseNumber false (digit :: rest) := by
  have different {other : Char} (otherIs : Json.isDigit other = false) : digit ≠ other := by
    rintro rfl
    simp [otherIs] at isDigit
  unfold parseValue
  -- Each of the other forms starts with a character of its own, which is no digit.
  split
  · simp_all
  all_goals
    first
    | rfl
    | rename_i same
      exact absurd (List.cons.inj same).1 (different (by decide))

theorem parseValue_negative (isDigit : isDigit digit = true) :
    parseValue (fuel + 1) ('-' :: digit :: rest) = parseNumber true (digit :: rest) := by
  have different : digit ≠ 'I' := by
    rintro rfl
    exact absurd isDigit (by decide)
  have noWord : expectWord "Infinity".toList (digit :: rest) = none := by
    simp [expectWord, different.symm]
  simp only [parseValue, noWord]

theorem readsAs_integerText (value : Int) : ReadsAs (integerText value).toList (.int value) := by
  intro fuel rest enough ends
  have whole := isWhole_toDigits value.natAbs
  have parsed (negative : Bool) := parseNumber_integer negative whole ends
  rw [digitsValue_toDigits] at parsed
  unfold integerText decimalDigits
  cases digits : Nat.toDigits 10 value.natAbs with
  | nil => exact absurd digits Nat.toDigits_ne_nil
  | cons digit others =>
    have digitIs : isDigit digit = true := whole.1.2 digit (by simp [digits])
    rw [digits, List.cons_append] at parsed
    by_cases below : value < 0
    · have magnitude : -(value.natAbs : Int) = value := by omega
      have read := parsed true
      rw [if_pos rfl, magnitude] at read
      rw [if_pos below]
      simp only [String.toList_append, String.toList_ofList, List.append_assoc]
      change parseValue (fuel + 1) ('-' :: digit :: (others ++ rest)) = _
      rw [parseValue_negative digitIs, read]
    · have magnitude : (value.natAbs : Int) = value := by omega
      have read := parsed false
      rw [if_neg (by decide), magnitude] at read
      rw [if_neg below, String.toList_ofList, List.cons_append, parseValue_digit digitIs, read]

theorem readsAs_decimal {value : Nat} {power : Int} (isDecimal : IsDecimal text value power)
    (negative : Bool) :
    ReadsAs ((if negative then ['-'] else []) ++ text)
      (.float (Double.ofDecimal negative value power)) := by
  intro fuel rest enough ends
  have parsed := isDecimal.parseNumber negative ends
  obtain ⟨digit, others, rfl, digitIs⟩ := isDecimal.head
  cases negative with
  | false =>
    rw [if_neg Bool.false_ne_true, List.nil_append, List.cons_append, parseValue_digit digitIs]
    exact parsed
  | true =>
    rw [if_pos rfl, List.cons_append, List.nil_append, List.cons_append, List.cons_append,
      parseValue_negative digitIs]
    exact parsed

theorem readsAs_infinity (negative : Bool) :
    ReadsAs ((if negative then ['-'] else []) ++ "Infinity".toList)
      (.float (Double.infinity negative)) := by
  intro fuel rest enough ends
  cases negative <;> simp [parseValue, expectWord]

theorem readsAs_nan {number : Double} (isNaN : number.isNaN = true) :
    ReadsAs (number.text numberTexts).toList (.float Double.nan) := by
  intro fuel rest enough ends
  rw [Double.text, if_pos isNaN]
  simp [numberTexts, parseValue, expectWord]

private theorem exists_readsAs_text (number : Double) :
    ∃ value, ReadsAs (number.text numberTexts).toList (.float value) := by
  cases isNaN : number.isNaN with
  | true => exact ⟨Double.nan, readsAs_nan isNaN⟩
  | false =>
    rw [toList_text isNaN]
    cases infinite : number.isInfinite with
    | true =>
      rw [magnitudeText, if_pos infinite]
      exact ⟨_, readsAs_infinity number.negative⟩
    | false =>
      obtain ⟨_, value, power, isDecimal, -⟩ := exists_denotes_magnitudeText infinite
      exact ⟨_, readsAs_decimal isDecimal number.negative⟩

/-- The number that the text of a number is read as. -/
def rereadFloat (number : Double) : Double :=
  match parseValue ((number.text numberTexts).toList.length + 1)
    (number.text numberTexts).toList with
  | some (.float value, _) => value
  | _ => number

theorem readsAs_float (number : Double) :
    ReadsAs (number.text numberTexts).toList (.float (rereadFloat number)) := by
  obtain ⟨value, reads⟩ := exists_readsAs_text number
  have read := reads _ [] le_rfl (by simp [EndsNumber])
  rw [List.append_nil] at read
  have same : rereadFloat number = value := by simp only [rereadFloat, read]
  rw [same]
  exact reads

/-! ### Blanks and commas -/

def IsBlank (text : List Char) : Prop := ∀ character ∈ text, isBlank character = true

theorem skipBlank_append {blanks : List Char} (areBlank : IsBlank blanks) (text : List Char) :
    skipBlank (blanks ++ text) = skipBlank text := List.dropWhile_append_of_pos areBlank

theorem skipBlank_cons (notBlank : isBlank character = false) (rest : List Char) :
    skipBlank (character :: rest) = character :: rest := by
  simp [skipBlank, notBlank]

/-- A text that is read as a document starts with neither a blank nor the end of an array. -/
theorem ReadsAs.head (reads : ReadsAs text document) :
    ∃ first others, text = first :: others ∧ isBlank first = false ∧ first ≠ ']' := by
  have read := reads _ [] le_rfl (by simp [EndsNumber])
  rw [List.append_nil] at read
  cases text with
  | nil => simp [parseValue] at read
  | cons first others =>
    refine ⟨first, others, rfl, ?_, ?_⟩
    · by_contra blank
      simp only [Bool.not_eq_false, isBlank, Bool.or_eq_true, beq_iff_eq] at blank
      rcases blank with ((rfl | rfl) | rfl) |
        rfl <;> simp [parseValue, parseNumber, isDigit] at read
    · rintro rfl
      simp [parseValue, parseNumber, isDigit] at read

theorem ReadsAs.skipBlank {text : List Char} {document : Json} (reads : ReadsAs text document)
    (rest : List Char) : Json.skipBlank (text ++ rest) = text ++ rest := by
  obtain ⟨first, others, rfl, notBlank, -⟩ := reads.head
  exact skipBlank_cons notBlank _

/-- Parts after the first one, each after a comma and blanks. -/
def following (gap : List Char) (parts : List (List Char)) : List Char :=
  parts.flatMap fun part => ',' :: (gap ++ part)

private theorem following_cons (gap part : List Char) (parts : List (List Char))
    (rest : List Char) :
    following gap (part :: parts) ++ rest = ',' ::
    (gap ++ (part ++ (following gap parts ++ rest))) := by
  simp [following]

private theorem endsNumber_following (gap : List Char) (parts : List (List Char))
    {after : List Char} {closing : Char}
    (rest : List Char) (blankAfter : IsBlank after) (isClosing : closing = ']' ∨ closing = '\x7d') :
    EndsNumber (following gap parts ++ (after ++ closing :: rest)) := by
  intro character isHead
  cases parts with
  | cons part others =>
    cases isHead
    decide
  | nil =>
    cases after with
    | nil =>
      cases isHead
      rcases isClosing with rfl | rfl <;> decide
    | cons blank others =>
      cases isHead
      have isBlank := blankAfter character List.mem_cons_self
      simp only [Json.isBlank, Bool.or_eq_true, beq_iff_eq] at isBlank
      rcases isBlank with ((rfl | rfl) | rfl) | rfl <;> decide

private theorem intercalate_following (gap part : List Char) (parts : List (List Char)) :
    (',' :: gap).intercalate (part :: parts) = part ++ following gap parts := by
  induction parts generalizing part with
  | nil => simp [following, List.intercalate]
  | cons next others ih =>
    rw [List.intercalate_cons_cons, ih next]
    simp [following]

/-- In every layout the parts of an array or object stand between blanks. -/
theorem toList_enclose (layout : Layout) (level : Nat) (opening closing : String) :
    ∃ before gap after, IsBlank before ∧ IsBlank gap ∧ IsBlank after ∧
      ∀ part parts, (layout.enclose level opening closing (part :: parts)).toList
        = opening.toList ++ (before ++ (part.toList ++ (following gap (parts.map String.toList)
          ++ (after ++ closing.toList)))) := by
  have blanks (count : Nat) : IsBlank ('\n' :: List.replicate count ' ') := by
    intro character isIn
    rcases List.mem_cons.mp isIn with rfl | isIn
    · rfl
    · rw [(List.mem_replicate.mp isIn).2]
      rfl
  unfold Layout.enclose
  cases layout.indent with
  | none =>
    refine ⟨[], [' '], [], by simp [IsBlank], by simp [IsBlank, isBlank], by simp [IsBlank],
      fun part parts => ?_⟩
    have joined := intercalate_following [' '] part.toList (parts.map String.toList)
    simp [joined]
  | some width =>
    refine ⟨_, _, _, blanks (width * (level + 1)), blanks (width * (level + 1)),
      blanks (width * level),
      fun part parts => ?_⟩
    have joined := intercalate_following
      ('\n' :: List.replicate (width * (level + 1)) ' ') part.toList
      (parts.map String.toList)
    simp [joined]

/-! ### Enclosed parts -/

section Parts

variable {Done Entry : Type} {loop : Nat → Done → List Char → Option (Json × List Char)}
  {closing : Char} {add : Done → Entry → Done} {close : Done → Json} {entry : Entry}
  {entries : List Entry}

/-- A text is read as a part of an array or an object, by a loop that adds it to the parts before:
after a comma the loop goes on with the next part, at the closing bracket it ends. -/
structure ReadsPart (loop : Nat → Done → List Char → Option (Json × List Char)) (closing : Char)
    (add : Done → Entry → Done) (close : Done → Json) (part : List Char) (entry : Entry) :
    Prop where
  head : ∃ first others, part = first :: others ∧ isBlank first = false ∧ first ≠ closing
  last : ∀ {fuel done rest tail}, part.length ≤ fuel → EndsNumber rest →
  skipBlank rest = closing :: tail →
    loop (fuel + 2) done (part ++ rest) = some (close (add done entry), tail)
  next : ∀ {fuel done rest tail}, part.length ≤ fuel → EndsNumber rest →
    skipBlank rest = ',' :: tail →
    loop (fuel + 2) done (part ++ rest) = loop (fuel + 1) (add done entry) (skipBlank tail)

theorem ReadsPart.following (isClosing : closing = ']' ∨ closing = '\x7d') (blankGap : IsBlank gap)
    (blankAfter : IsBlank after) (rest : List Char)
    (reads : ReadsPart loop closing add close part entry)
    (read : List.Forall₂ (ReadsPart loop closing add close) parts entries)
    (done : Done) (fuel : Nat)
    (enough : (part ++ following gap parts ++ after).length + 1 < fuel) :
    loop fuel done (part ++ (Json.following gap parts ++ (after ++ closing :: rest)))
      = some (close ((entry :: entries).foldl add done), rest) := by
  obtain ⟨fuel, rfl⟩ : ∃ less, fuel = less + 2 := ⟨fuel - 2, by omega⟩
  induction read generalizing part entry done fuel with
  | nil =>
    have ends := endsNumber_following gap [] rest blankAfter isClosing
    refine reads.last (by simp at enough; omega) ends ?_
    simp only [Json.following, List.flatMap_nil, List.nil_append]
    rw [skipBlank_append blankAfter, skipBlank_cons (by rcases isClosing with rfl | rfl <;> decide)]
  | @cons nextPart nextEntry others otherEntries readsNext readOthers ih =>
    have ends := endsNumber_following gap (nextPart :: others) rest blankAfter isClosing
    obtain ⟨fuel, rfl⟩ : ∃ less, fuel = less + 1 :=
      ⟨fuel - 1, by simp [Json.following] at enough; omega⟩
    rw [reads.next (by simp at enough; omega) ends
      (by rw [following_cons, skipBlank_cons (by decide)]),
      skipBlank_append blankGap]
    obtain ⟨first, remaining, isFirst, notBlank, -⟩ := readsNext.head
    rw [isFirst, List.cons_append, skipBlank_cons notBlank, ← List.cons_append, ← isFirst]
    exact ih readsNext _ fuel (by simp [Json.following] at enough ⊢; omega)

theorem readsAs_enclosed {opening closing : Char} {nothing : Done} {before gap after : List Char}
    (isClosing : closing = ']' ∨ closing = '\x7d') (blankBefore : IsBlank before)
    (blankGap : IsBlank gap)
    (blankAfter : IsBlank after)
    (opened : ∀ fuel rest first tail, skipBlank rest = first :: tail → first ≠ closing →
      parseValue (fuel + 1) (opening :: rest) = loop fuel nothing (first :: tail))
    (reads : ReadsPart loop closing add close part entry)
    (others : List.Forall₂ (ReadsPart loop closing add close) parts entries) :
    ReadsAs (opening :: (before ++ (part ++ (following gap parts ++ (after ++ [closing])))))
      (close ((entry :: entries).foldl add nothing)) := by
  intro fuel rest enough ends
  have parsed := reads.following isClosing blankGap blankAfter rest others nothing fuel
    (by simp at enough ⊢; omega)
  have starts := skipBlank_append blankBefore
    (part ++ (following gap parts ++ (after ++ closing :: rest)))
  obtain ⟨first, remaining, isFirst, notBlank, notClosing⟩ := reads.head
  rw [isFirst, List.cons_append] at parsed starts
  rw [skipBlank_cons notBlank] at starts
  have opened := opened fuel _ _ _ starts notClosing
  rw [parsed] at opened
  simpa [isFirst] using opened

theorem readsAs_enclose (layout : Layout) (level : Nat) {opening closing : Char} {nothing : Done}
    {parts : List String}
    (isClosing : closing = ']' ∨ closing = '\x7d')
    (empty : ∀ fuel rest, parseValue (fuel + 1) (opening :: closing :: rest) =
      some (close nothing, rest))
    (opened : ∀ fuel rest first tail, skipBlank rest = first :: tail → first ≠ closing →
      parseValue (fuel + 1) (opening :: rest) = loop fuel nothing (first :: tail))
    (read : List.Forall₂ (ReadsPart loop closing add close) (parts.map String.toList) entries) :
    ReadsAs (layout.enclose level (String.singleton opening) (String.singleton closing)
      parts).toList
      (close (entries.foldl add nothing)) := by
  cases parts with
  | nil =>
    cases read
    intro fuel rest _ _
    simpa [Layout.enclose] using empty fuel rest
  | cons part parts =>
    cases read with
    | cons reads others =>
      obtain ⟨before, gap, after, blankBefore, blankGap, blankAfter, shape⟩ :=
        toList_enclose layout level (String.singleton opening) (String.singleton closing)
      rw [shape, String.toList_singleton, String.toList_singleton]
      exact readsAs_enclosed isClosing blankBefore blankGap blankAfter opened reads others

end Parts

theorem ReadsAs.readsPart {value : Json} (reads : ReadsAs part value) :
    ReadsPart parseItems ']' (fun done item => item :: done) (fun done => .arr done.reverse)
      part value where
  head := reads.head
  last enough ends closes := by simp [parseItems, reads _ _ enough ends, closes]
  next enough ends continues := by simp [parseItems, reads _ _ enough ends, continues]

theorem parseValue_bracket {tail : List Char} {first : Char}
    (starts : skipBlank rest = first :: tail)
    (notClosing : first ≠ ']') : parseValue (fuel + 1) ('[' :: rest) =
      parseItems fuel [] (first :: tail) := by
  simp only [parseValue, starts]
  split
  · rename_i same
    exact absurd (List.cons.inj same).1 notClosing
  · rfl

theorem readsAs_nil : ReadsAs ['[', ']'] (.arr []) := by
  intro fuel rest _ _
  simp [parseValue, skipBlank, isBlank]

private theorem readsAs_arr {parts : List String}
    (read : List.Forall₂ ReadsAs (parts.map String.toList) values) :
    ReadsAs (layout.enclose level "[" "]" parts).toList (.arr values) := by
  have enclosed := readsAs_enclose layout level (Or.inl rfl)
    (by simp [parseValue, skipBlank, isBlank])
    (fun _ _ _ _ => parseValue_bracket) (read.imp fun _ _ reads => reads.readsPart)
  simpa using enclosed

/-- A member of an object: its key, and behind blanks a text that is read as its value. -/
def ReadsMember (part : List Char) (member : String × Json) : Prop :=
  ∃ asciiOnly gap text, IsBlank gap ∧
    part = (stringText asciiOnly member.1).toList ++ ':' :: (gap ++ text) ∧
    ReadsAs text member.2

theorem ReadsMember.readsPart {member : String × Json} (reads : ReadsMember part member) :
    ReadsPart parseMembers '\x7d' (fun done entry => Members.set done entry.1 entry.2) .obj
      part member := by
  obtain ⟨asciiOnly, gap, text, blank, rfl, readsText⟩ := reads
  rw [toList_stringText]
  have colon (rest : List Char) :=
    skipBlank_cons (by decide : isBlank ':' = false) (gap ++ (text ++ rest))
  have value (rest : List Char) : skipBlank (gap ++ (text ++ rest)) = text ++ rest := by
    rw [skipBlank_append blank]
    exact readsText.skipBlank rest
  refine ⟨⟨_, _, rfl, by decide, by decide⟩, fun {fuel} _ _ _ enough ends closes => ?_,
    fun {fuel} _ _ _ enough ends continues => ?_⟩
  · have read := readsText fuel _ (by simp at enough; omega) ends
    simp [parseMembers, parseString_escaped, colon, value, read, closes]
  · have read := readsText fuel _ (by simp at enough; omega) ends
    simp [parseMembers, parseString_escaped, colon, value, read, continues]

theorem parseValue_brace {tail : List Char} {first : Char} (starts : skipBlank rest = first :: tail)
    (notClosing : first ≠ '\x7d') :
    parseValue (fuel + 1) ('\x7b' :: rest) = parseMembers fuel [] (first :: tail) := by
  simp only [parseValue, starts]
  split
  · rename_i same
    exact absurd (List.cons.inj same).1 notClosing
  · rfl

private theorem readsAs_obj {parts : List String} (distinct : (Members.keys members).Nodup)
    (read : List.Forall₂ ReadsMember (parts.map String.toList) members) :
    ReadsAs (layout.enclose level "\x7b" "\x7d" parts).toList (.obj members) := by
  have enclosed := readsAs_enclose layout level (Or.inr rfl)
    (by simp [parseValue, skipBlank, isBlank])
    (fun _ _ _ _ => parseValue_brace) (read.imp fun _ _ reads => reads.readsPart)
  rwa [show members.foldl _ [] = members from Members.union_of_nodup distinct] at enclosed

/-! ### Texts without blanks -/

theorem isBlank_nil : IsBlank [] := List.forall_mem_nil _

/-- Parts between brackets with nothing but commas between them. -/
theorem readsAs_compact_arr {value : Json} (reads : ReadsAs part value)
    (others : List.Forall₂ ReadsAs parts values) :
    ReadsAs ('[' :: (part ++ (following [] parts ++ [']']))) (.arr (value :: values)) := by
  have enclosed := readsAs_enclosed (Or.inl rfl) isBlank_nil isBlank_nil isBlank_nil
    (fun _ _ _ _ => parseValue_bracket)
    reads.readsPart (others.imp fun _ _ reads => reads.readsPart)
  simpa using enclosed

/-- Members between braces with nothing but commas between them. -/
theorem readsAs_compact_obj {member : String × Json}
    (distinct : (Members.keys (member :: members)).Nodup) (reads : ReadsMember part member)
    (others : List.Forall₂ ReadsMember parts members) :
    ReadsAs ('\x7b' :: (part ++ (following [] parts ++ ['\x7d']))) (.obj (member :: members)) := by
  have enclosed := readsAs_enclosed (Or.inr rfl) isBlank_nil isBlank_nil isBlank_nil
    (fun _ _ _ _ => parseValue_brace)
    reads.readsPart (others.imp fun _ _ reads => reads.readsPart)
  rwa [show (member :: members).foldl _ [] = member ::
    members from Members.union_of_nodup distinct] at enclosed

/-! ### Documents -/

mutual

/-- Whether no object within a document has a key twice. -/
def keysDistinct : Json → Bool
  | .arr items => itemsDistinct items
  | .obj members => decide (Members.keys members).Nodup && membersDistinct members
  | _ => true
termination_by structural document => document

def itemsDistinct : List Json → Bool
  | [] => true
  | item :: rest => keysDistinct item && itemsDistinct rest
termination_by structural items => items

def membersDistinct : List (String × Json) → Bool
  | [] => true
  | member :: rest => memberDistinct member && membersDistinct rest
termination_by structural members => members

def memberDistinct : String × Json → Bool
  | (_, value) => keysDistinct value
termination_by structural member => member

end

mutual

/-- A document with its floating-point numbers changed. -/
def mapFloats (change : Double → Double) : Json → Json
  | .null => .null
  | .bool value => .bool value
  | .int value => .int value
  | .float value => .float (change value)
  | .str text => .str text
  | .arr items => .arr (mapItems change items)
  | .obj members => .obj (mapMembers change members)
termination_by structural document => document

def mapItems (change : Double → Double) : List Json → List Json
  | [] => []
  | item :: rest => mapFloats change item :: mapItems change rest
termination_by structural items => items

def mapMembers (change : Double → Double) : List (String × Json) → List (String × Json)
  | [] => []
  | member :: rest => mapMember change member :: mapMembers change rest
termination_by structural members => members

def mapMember (change : Double → Double) : String × Json → String × Json
  | (key, value) => (key, mapFloats change value)
termination_by structural member => member

end

theorem mapItems_eq (change : Double → Double) (items : List Json) :
    mapItems change items = items.map (mapFloats change) := by
  induction items with
  | nil => rfl
  | cons item rest ih => rw [mapItems, List.map_cons, ih]

theorem mapMembers_eq (change : Double → Double) (members : Members) :
    mapMembers change members = members.map fun member =>
      (member.1, mapFloats change member.2) := by
  induction members with
  | nil => rfl
  | cons member rest ih => rw [mapMembers, List.map_cons, ih, mapMember]

private theorem keys_mapMembers (change : Double → Double) (members : Members) :
    Members.keys (mapMembers change members) = Members.keys members := by
  rw [mapMembers_eq, Members.keys, List.map_map]
  rfl

mutual

private theorem readsAs_render (layout : Layout) (level : Nat) :
    ∀ document : Json, keysDistinct document = true →
    ReadsAs (render layout level document).toList (mapFloats rereadFloat document)
  | .null, _ => by
    intro fuel rest enough ends
    simp [render, mapFloats, parseValue, expectWord]
  | .bool true, _ => by
    intro fuel rest enough ends
    simp [render, mapFloats, parseValue, expectWord]
  | .bool false, _ => by
    intro fuel rest enough ends
    simp [render, mapFloats, parseValue, expectWord]
  | .int value, _ => by
    rw [render, mapFloats]
    exact readsAs_integerText value
  | .float value, _ => by
    rw [render, mapFloats]
    exact readsAs_float value
  | .str text, _ => by
    rw [render, mapFloats]
    exact readsAs_stringText layout.asciiOnly text
  | .arr items, distinct => by
    rw [render, mapFloats]
    exact readsAs_arr (readsAs_renderItems layout (level + 1) items
      (by simpa [keysDistinct] using distinct))
  | .obj members, distinct => by
    rw [keysDistinct, Bool.and_eq_true, decide_eq_true_eq] at distinct
    rw [render, mapFloats]
    refine readsAs_obj ?_ (readsMember_renderMembers layout (level + 1) members distinct.2)
    rw [keys_mapMembers]
    exact distinct.1

theorem readsAs_renderItems (layout : Layout) (level : Nat) :
    ∀ items : List Json, itemsDistinct items = true →
    List.Forall₂ ReadsAs ((renderItems layout level items).map String.toList)
      (mapItems rereadFloat items)
  | [], _ => .nil
  | item :: rest, distinct => by
    rw [itemsDistinct, Bool.and_eq_true] at distinct
    exact .cons (readsAs_render layout level item distinct.1)
      (readsAs_renderItems layout level rest distinct.2)

theorem readsMember_renderMembers (layout : Layout) (level : Nat) :
    ∀ members : Members, membersDistinct members = true →
      List.Forall₂ ReadsMember ((renderMembers layout level members).map String.toList)
        (mapMembers rereadFloat members)
  | [], _ => .nil
  | (key, value) :: rest, distinct => by
    rw [membersDistinct, memberDistinct, Bool.and_eq_true] at distinct
    refine .cons ⟨layout.asciiOnly, [' '], _, by simp [IsBlank, isBlank], ?_,
      readsAs_render layout level value distinct.1⟩
      (readsMember_renderMembers layout level rest distinct.2)
    simp [mapMember]

end

theorem ReadsAs.parse? {text : List Char} (reads : ReadsAs text document) :
    parse? (String.ofList text) = some document := by
  have skipped := reads.skipBlank []
  have read := reads _ [] le_rfl (by simp [EndsNumber])
  rw [List.append_nil] at skipped read
  simp only [Json.parse?, String.toList_ofList, skipped, read]
  rfl

/-- Reading undoes printing, in every layout: a document whose objects have no key twice is read
back as it was, up to what the texts of its floating-point numbers are read as. -/
theorem parse?_print (layout : Layout) (distinct : keysDistinct document = true) :
    parse? (document.print layout) = some (mapFloats rereadFloat document) := by
  have reads := (readsAs_render layout 0 document distinct).parse?
  rwa [String.ofList_toList] at reads

end Avro.Json
