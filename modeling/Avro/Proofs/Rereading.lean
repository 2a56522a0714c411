import Avro.Proofs.Marking
import Avro.Proofs.NumberReading

/-!
Contract: a schema is parsed the same way after its numbers have been read back from a text.

Owns: `KeepsNumbers`, a change of floating-point numbers that at most replaces undefined numbers by
others, and that parsing commutes with it.

The text of a schema holds its numbers exactly, but there is one text for all undefined numbers.
Parsing looks at numbers: a name may be one, and so may the size of a fixed type and the scale of a
decimal.
-/

namespace Avro

open Datum (ofJson ofJsonItems ofJsonMembers quoted quotedEntries quotedItems)
open Members (get? get?_cons)

open Json (mapFloats mapItems mapMembers mapMember mapItems_eq mapMembers_eq)

/-- A change of numbers that leaves defined numbers as they are, and undefined ones undefined. -/
def KeepsNumbers (change : Double → Double) : Prop :=
  ∀ number, change number = number ∨ number.isNaN = true ∧ (change number).isNaN = true

theorem keepsNumbers_rereadFloat : KeepsNumbers Json.rereadFloat := by
  intro number
  cases isNaN : number.isNaN with
  | false => exact .inl (Json.rereadFloat_eq isNaN)
  | true =>
    rw [Json.rereadFloat_nan isNaN]
    exact .inr ⟨rfl, by decide⟩

namespace KeepsNumbers

section Numbers

variable {change : Double → Double} (keeps : KeepsNumbers change)

include keeps

theorem isNaN (number : Double) : (change number).isNaN = number.isNaN := by
  rcases keeps number with same | ⟨wasNaN, isNaN⟩
  · rw [same]
  · rw [wasNaN, isNaN]

theorem text (special : Double.SpecialTexts) (number : Double) :
    (change number).text special = number.text special := by
  rcases keeps number with same | ⟨wasNaN, isNaN⟩
  · rw [same]
  · rw [Double.text, Double.text, if_pos wasNaN, if_pos isNaN]

theorem isZero (number : Double) : (change number).isZero = number.isZero := by
  have notZero {value : Double} (isNaN : value.isNaN = true) : value.isZero = false := by
    rw [Double.isNaN, Bool.and_eq_true, beq_iff_eq] at isNaN
    rw [Double.isZero, beq_eq_false_iff_ne]
    intro none
    rw [Double.exponentField, none] at isNaN
    exact absurd isNaN.1 (by decide)
  rcases keeps number with same | ⟨wasNaN, isNaN⟩
  · rw [same]
  · rw [notZero wasNaN, notZero isNaN]

theorem toInt? (number : Double) : (change number).toInt? = number.toInt? := by
  have notInteger {value : Double} (isNaN : value.isNaN = true) : value.toInt? = none := by
    rw [Double.isNaN, Bool.and_eq_true, beq_iff_eq] at isNaN
    simp [Double.toInt?, Double.isFinite, isNaN.1]
  rcases keeps number with same | ⟨wasNaN, isNaN⟩
  · rw [same]
  · rw [notInteger wasNaN, notInteger isNaN]

end Numbers

mutual

private theorem quoted_ofJson {change : Double → Double} (keeps : KeepsNumbers change) :
    ∀ document : Json,
    (ofJson (mapFloats change document)).quoted = (ofJson document).quoted
  | .null | .bool _ | .int _ | .str _ => rfl
  | .float number => by exact keeps.text Datum.numberTexts number
  | .arr items => by
    rw [mapFloats, ofJson, ofJson, quoted, quoted, quotedItems_ofJson keeps items]
  | .obj members => by
    rw [mapFloats, ofJson, ofJson, quoted, quoted, quotedEntries_ofJson keeps members]

theorem quotedItems_ofJson {change : Double → Double} (keeps : KeepsNumbers change) :
    ∀ items : List Json,
    quotedItems (ofJsonItems (mapItems change items)) = quotedItems (ofJsonItems items)
  | [] => rfl
  | item :: rest => by
    rw [mapItems, ofJsonItems, ofJsonItems, quotedItems, quotedItems, quoted_ofJson keeps item,
      quotedItems_ofJson keeps rest]

theorem quotedEntries_ofJson {change : Double → Double} (keeps : KeepsNumbers change) :
    ∀ members : Members,
    quotedEntries (ofJsonMembers (mapMembers change members)) =
      quotedEntries (ofJsonMembers members)
  | [] => rfl
  | (key, value) :: rest => by
    rw [mapMembers, mapMember, ofJsonMembers, ofJsonMembers, quotedEntries, quotedEntries,
      quoted_ofJson keeps value, quotedEntries_ofJson keeps rest]

end

section Documents

variable {change : Double → Double} (keeps : KeepsNumbers change)

include keeps

theorem displayed (document : Json) :
    (mapFloats change document).displayed = document.displayed := by
  cases document with
  | float number => exact keeps.quoted_ofJson (.float number)
  | arr items => exact keeps.quoted_ofJson (.arr items)
  | obj members => exact keeps.quoted_ofJson (.obj members)
  | _ => rfl

/-- A document counts as empty after a change of numbers if it did before. -/
theorem truthy (document : Json) : (mapFloats change document).truthy = document.truthy := by
  cases document with
  | float number => exact congrArg not (keeps.isZero number)
  | arr items => simp [mapFloats, mapItems_eq, Json.truthy]
  | obj members => simp [mapFloats, mapMembers_eq, Json.truthy]
  | _ => rfl

end Documents

end KeepsNumbers

namespace Schema

variable {change : Double → Double}

section Lookup

variable (change : Double → Double)
variable {members : Members}

/-- An attribute is looked up before or after the numbers change. -/
theorem get?_mapMembers (members : Members) (key : String) :
    get? (mapMembers change members) key = (get? members key).map (mapFloats change) := by
  rw [mapMembers_eq]
  induction members with
  | nil => rfl
  | cons member rest ih =>
    rw [List.map_cons, get?_cons, get?_cons, ih]
    split <;> rfl

theorem get?_mapMembers_some {key : String} {value : Json} (found : get? members key = some value) :
    get? (mapMembers change members) key = some (mapFloats change value) := by
  rw [get?_mapMembers, found]
  rfl

theorem filter_mapMembers (select : String → Bool) (members : Members) :
    (mapMembers change members).filter (fun member => select member.1) =
      mapMembers change (members.filter fun member => select member.1) := by
  rw [mapMembers_eq, mapMembers_eq, List.filter_map]
  rfl

theorem mapMembers_append (front back : Members) :
    mapMembers change (front ++ back) = mapMembers change front ++ mapMembers change back := by
  rw [mapMembers_eq, mapMembers_eq, mapMembers_eq, List.map_append]

theorem set_mapMembers (members : Members) (key : String) (value : Json) :
    Members.set (mapMembers change members) key (mapFloats change value) =
      mapMembers change (Members.set members key value) := by
  rw [mapMembers_eq, mapMembers_eq]
  induction members with
  | nil => rfl
  | cons member rest ih =>
    rw [List.map_cons, Members.set, Members.set]
    split
    · rfl
    · rw [ih, List.map_cons]

theorem commonAttributes_mapMembers (members : Members) (word : String) :
    commonAttributes (mapMembers change members) (.str word) =
      mapMembers change (commonAttributes members (.str word)) := by
  unfold commonAttributes
  rw [filter_mapMembers change (fun key => !reservedAttributes.contains key), get?_mapMembers,
    mapMembers_append, mapMembers_append]
  cases get? members "doc" <;> rfl

theorem commonFieldAttributes_mapMembers (members : Members) :
    commonFieldAttributes (mapMembers change members) =
      mapMembers change (commonFieldAttributes members) := by
  unfold commonFieldAttributes
  rw [filter_mapMembers change (fun key => !reservedFieldAttributes.contains key),
    mapMembers_append]
  congr 1
  rw [mapMembers_eq change (List.filterMap _ _), List.map_filterMap]
  refine List.filterMap_congr fun key _ => ?_
  rw [get?_mapMembers]
  cases get? members key <;> rfl

/-- The same words are mentioned after a change of numbers, marks aside. -/
theorem mentions_mapFloats (document : Json) {word : String} (notMark : word ∉ marks) :
    mentions (mapFloats change document) word = mentions document word :=
  (((Alike.refl document).mapFloats change).mentions notMark).symm

theorem integer?_mapFloats (document : Json) :
    integer? (mapFloats change document) = integer? document := by
  cases document <;> rfl

theorem fieldNodes?_mapMembers {nodes : List Json} (nodesAre : fieldNodes? members = some nodes) :
    fieldNodes? (mapMembers change members) = some (mapItems change nodes) := by
  unfold fieldNodes? at nodesAre ⊢
  rw [get?_mapMembers]
  cases found : get? members "fields" with
  | none =>
    rw [found] at nodesAre
    cases nodesAre
    rfl
  | some fields =>
    rw [found] at nodesAre
    cases fields with
    | arr items =>
      cases nodesAre
      rfl
    | str text =>
      simp only [Option.ite_none_right_eq_some] at nodesAre
      obtain ⟨blank, ⟨⟩⟩ := nodesAre
      simp [mapFloats, blank, mapItems]
    | obj inner =>
      simp only [Option.ite_none_right_eq_some] at nodesAre
      obtain ⟨blank, ⟨⟩⟩ := nodesAre
      simp [mapFloats, mapMembers_eq, mapItems_eq, List.isEmpty_iff.mp blank]
    | _ => cases nodesAre

theorem checkAliases_mapMembers (listed : checkAliases members = .ok ()) :
    checkAliases (mapMembers change members) = .ok () := by
  unfold checkAliases at listed ⊢
  rw [get?_mapMembers]
  cases found : get? members "aliases" with
  | none => rfl
  | some aliases =>
    rw [found] at listed
    cases aliases with
    | arr items => rfl
    | _ => cases listed

end Lookup

section Checks

variable {change : Double → Double} (keeps : KeepsNumbers change)
variable {space name : Json} {members : Members}

include keeps

theorem qualifiedName_mapMembers {innerSpace : Json}
    (named : qualifiedName (.obj members) space = .ok (innerSpace, name)) :
    qualifiedName (.obj (mapMembers change members)) (mapFloats change space) =
      .ok (mapFloats change innerSpace, mapFloats change name) := by
  simp only [qualifiedName] at named ⊢
  rw [get?_mapMembers, get?_mapMembers]
  cases found : get? members "name" with
  | none => simp [found] at named
  | some given =>
    have spaceIs : ((get? members "namespace").map (mapFloats change)).getD
      (mapFloats change space) =
        mapFloats change ((get? members "namespace").getD space) := by
      cases get? members "namespace" <;> rfl
    simp only [found, Option.map_some, spaceIs] at named ⊢
    rw [keeps.truthy, mentions_mapFloats change given (by decide), keeps.displayed, keeps.displayed]
    split at named
    · rename_i noSpace
      cases named
      rw [if_pos noSpace]
    · rename_i inSpace
      rw [if_neg inSpace]
      split at named
      · cases named
      · cases named
        rfl
      · cases named
        rfl

theorem registryName_mapFloats {entry : String} (entryIs : registryName name = .ok entry) :
    registryName (mapFloats change name) = .ok entry := by
  cases name with
  | float number =>
    have entryOf (value : Double) : registryName (.float value) =
        .ok ("\x00" ++ value.toInt?.elim (Json.float value).displayed integerText) := by
      change Except.ok _ = Except.ok ("\x00" ++ (Json.float value).integral?.elim _ _)
      cases (Json.float value).integral? <;> rfl
    have shown : (Json.float (change number)).displayed = (Json.float number).displayed :=
      keeps.displayed (.float number)
    rw [← entryIs, mapFloats, entryOf, entryOf, keeps.toInt?, shown]
  | arr items => cases entryIs
  | obj members => cases entryIs
  | _ => exact entryIs

theorem qualifyReference_mapFloats {text name : String}
    (qualified : qualifyReference (.str text) space = .ok (.str name)) :
    qualifyReference (.str text) (mapFloats change space) = .ok (.str name) := by
  simp only [qualifyReference, mentions, keeps.truthy] at qualified ⊢
  split at qualified
  · rename_i unqualified
    cases qualified
    rw [if_pos unqualified]
  · rename_i inSpace
    rw [if_neg inSpace]
    cases space with
    | str spaceText => exact qualified
    | _ => cases qualified

private theorem digitsFitting_mapFloats (size : Json) :
    digitsFitting (mapFloats change size) = digitsFitting size := by
  cases size with
  | float number =>
    rw [mapFloats, digitsFitting, digitsFitting, keeps.isNaN]
    rcases keeps number with same | ⟨wasNaN, -⟩
    · rw [same]
    · rw [if_pos wasNaN, if_pos wasNaN]
  | _ => rfl

private theorem checkScale_mapFloats {scale : Json} (checked : checkScale scale = .ok ()) :
    checkScale (mapFloats change scale) = .ok () := by
  unfold checkScale at checked ⊢
  rw [keeps.truthy, integer?_mapFloats]
  cases isTruthy : scale.truthy with
  | false => rfl
  | true =>
    rw [isTruthy] at checked
    cases isInteger : integer? scale with
    | none => simp [isInteger] at checked
    | some value =>
      simp only [isInteger, if_true] at checked ⊢
      by_cases negative : value < 0
      · simp [negative] at checked
      · rw [if_neg negative]

private theorem checkPrecision_mapFloats {type precision : Json}
    (checked : checkPrecision members type precision = .ok ()) :
    checkPrecision (mapMembers change members) type (mapFloats change precision) = .ok () := by
  unfold checkPrecision at checked ⊢
  rw [keeps.truthy, integer?_mapFloats]
  cases isTruthy : precision.truthy with
  | false => rfl
  | true =>
    rw [isTruthy] at checked
    cases isInteger : integer? precision with
    | none => simp [isInteger] at checked
    | some digits =>
      simp only [isInteger, if_true] at checked ⊢
      by_cases few : digits ≤ 0
      · simp [few] at checked
      · rw [if_neg few] at checked ⊢
        by_cases isFixed : type.same (.str "fixed") = true
        · rw [if_pos isFixed] at checked ⊢
          obtain ⟨size, sized, checked⟩ := outcome_bind_ok.mp checked
          obtain ⟨fitting, fits, checked⟩ := outcome_bind_ok.mp checked
          have sizedAgain := required_ok.mpr (get?_mapMembers_some change (required_ok.mp sized))
          refine outcome_bind_ok.mpr ⟨_, sizedAgain, outcome_bind_ok.mpr ⟨fitting, ?_, ?_⟩⟩
          · rw [digitsFitting_mapFloats keeps, fits]
          · by_cases tooMany : digits > fitting
            · simp [tooMany] at checked
            · rw [if_neg tooMany]
              rfl
        · rw [if_neg isFixed]

/-- The checks of a decimal are passed as before. Only the numbers in their messages could
differ. -/
theorem checkDecimal_mapMembers {word : String}
    (checked : checkDecimal members (.str word) = .ok ()) :
    checkDecimal (mapMembers change members) (.str word) = .ok () := by
  have ofAbsent (key : String) : (get? (mapMembers change members) key).getD .null =
      mapFloats change ((get? members key).getD .null) := by
    rw [get?_mapMembers]
    cases get? members key <;> rfl
  unfold checkDecimal at checked ⊢
  rw [get?_mapMembers change members "logicalType", ofAbsent, ofAbsent]
  cases found : get? members "logicalType" with
  | none => rfl
  | some logical =>
    rw [found] at checked
    cases logical with
    | str text =>
      by_cases isDecimal : text = "decimal"
      · subst isDecimal
        obtain ⟨_, scaled, checked⟩ := outcome_bind_ok.mp checked
        obtain ⟨_, precise, checked⟩ := outcome_bind_ok.mp checked
        refine outcome_bind_ok.mpr ⟨(), checkScale_mapFloats keeps scaled, ?_⟩
        refine outcome_bind_ok.mpr ⟨(), checkPrecision_mapFloats keeps precise, ?_⟩
        rw [keeps.truthy, keeps.truthy, integer?_mapFloats, integer?_mapFloats]
        split at checked
        · rename_i places digits bothTruthy placesAre digitsAre
          by_cases tooMany : digits < places
          · simp [tooMany] at checked
          · rw [if_neg tooMany]
            rfl
        · rfl
      · simp [mapFloats, isDecimal]
    | _ => rfl

end Checks

/-! ### Parsing -/

def ParseState.mapFloats (change : Double → Double) (state : ParseState) : ParseState :=
  ⟨state.defined, mapMembers change state.registry⟩

theorem ParseState.mapFloats_enter (change : Double → Double) (state : ParseState) (entry : String)
    (members : Members) :
    (state.enter entry members).mapFloats change =
      (state.mapFloats change).enter entry (mapMembers change members) := by
  rw [enter, enter, mapFloats, mapFloats, ← set_mapMembers]
  rfl

theorem ParseState.mapFloats_replace (change : Double → Double) (state : ParseState)
    (entry : String) (members : Members) :
    (state.replace entry members).mapFloats change =
      (state.mapFloats change).replace entry (mapMembers change members) := by
  rw [replace, replace, mapFloats, mapFloats, ← set_mapMembers]
  rfl

section Forms

variable (change : Double → Double) (members : Members) (word : String) (name : Json)

theorem leafMembers_mapMembers (key : String) (value : Json) :
    leafMembers (mapMembers change members) word (mapFloats change name) key
      (mapFloats change value) =
      mapMembers change (leafMembers members word name key value) := by
  rw [leafMembers, leafMembers, commonAttributes_mapMembers, mapMembers_append]
  rfl

theorem recordMembers_mapMembers (fields : List Json) :
    recordMembers (mapMembers change members) word (mapFloats change name)
      (mapItems change fields) =
      mapMembers change (recordMembers members word name fields) := by
  rw [recordMembers, recordMembers, commonAttributes_mapMembers, mapMembers_append]
  rfl

theorem fieldMembers_mapMembers (type : Json) :
    fieldMembers (mapMembers change members) (mapFloats change name) (mapFloats change type) =
      mapMembers change (fieldMembers members name type) := by
  rw [fieldMembers, fieldMembers, commonFieldAttributes_mapMembers, mapMembers_append]
  rfl

end Forms

mutual

/-- A parse goes the same way after a change of numbers, by recursion on the derivation. -/
theorem Parses.mapFloats {change : Double → Double} (keeps : KeepsNumbers change) {expand : Bool}
    {space node parsed : Json} {start stop : ParseState} :
    Parses expand space node start parsed stop →
      Parses expand (Json.mapFloats change space) (Json.mapFloats change node)
        (start.mapFloats change)
        (Json.mapFloats change parsed) (stop.mapFloats change)
  | .primitive isPrimitive => by exact .primitive isPrimitive
  | .reference notPrimitive qualified known kept => by
    exact .reference notPrimitive (qualifyReference_mapFloats keeps qualified)
      (get?_mapMembers_some change known)
      fun expanded => (mentions_mapFloats change _ (by decide)).trans (kept expanded)
  | .expansion notPrimitive qualified known expanded complete => by
    exact .expansion notPrimitive (qualifyReference_mapFloats keeps qualified)
      (get?_mapMembers_some change known)
      expanded ((mentions_mapFloats change _ (by decide)).trans complete)
  | .union parts => by exact .union (parts.mapFloats keeps)
  | .primitiveNode typeIs checked isPrimitive => by
    rw [Json.mapFloats, Json.mapFloats, ← commonAttributes_mapMembers]
    exact .primitiveNode (get?_mapMembers_some change typeIs)
      (checkDecimal_mapMembers keeps checked) isPrimitive
  | .collection typeIs checked isCollection under inner => by
    rw [Json.mapFloats, Json.mapFloats, mapMembers_append, ← commonAttributes_mapMembers]
    exact .collection (get?_mapMembers_some change typeIs)
      (checkDecimal_mapMembers keeps checked) isCollection
      (get?_mapMembers_some change under) (inner.mapFloats keeps)
  | .leaf typeIs checked isLeaf named entryIs fresh under => by
    rw [Json.mapFloats, Json.mapFloats, ParseState.mapFloats_enter, ← leafMembers_mapMembers]
    exact .leaf (get?_mapMembers_some change typeIs) (checkDecimal_mapMembers keeps checked) isLeaf
      (qualifiedName_mapMembers keeps named) (registryName_mapFloats keeps entryIs) fresh
        (get?_mapMembers_some change under)
  | .record typeIs checked isRecord named entryIs fresh nodesAre inner => by
    have innerAgain := inner.mapFloats keeps
    rw [ParseState.mapFloats_enter, ← commonAttributes_mapMembers] at innerAgain
    rw [Json.mapFloats, Json.mapFloats, ParseState.mapFloats_replace, ← recordMembers_mapMembers]
    exact .record (get?_mapMembers_some change typeIs)
      (checkDecimal_mapMembers keeps checked) isRecord
      (qualifiedName_mapMembers keeps named) (registryName_mapFloats keeps entryIs) fresh
      (fieldNodes?_mapMembers change nodesAre) innerAgain

theorem ParsesBranches.mapFloats {change : Double → Double} (keeps : KeepsNumbers change)
    {expand : Bool} {space : Json} {branches parsed : List Json} {start stop : ParseState} :
    ParsesBranches expand space branches start parsed stop →
      ParsesBranches expand (Json.mapFloats change space) (mapItems change branches)
        (start.mapFloats change)
        (mapItems change parsed) (stop.mapFloats change)
  | .nil => by exact .nil
  | .cons first others => by exact .cons (first.mapFloats keeps) (others.mapFloats keeps)

theorem ParsesFields.mapFloats {change : Double → Double} (keeps : KeepsNumbers change)
    {expand : Bool} {space : Json} {fields parsed : List Json} {start stop : ParseState} :
    ParsesFields expand space fields start parsed stop →
      ParsesFields expand (Json.mapFloats change space) (mapItems change fields)
        (start.mapFloats change)
        (mapItems change parsed) (stop.mapFloats change)
  | .nil => by exact .nil
  | .cons listed named under inner others => by
    rw [mapItems, mapItems, Json.mapFloats, Json.mapFloats, ← fieldMembers_mapMembers]
    refine .cons ?_ (get?_mapMembers_some change named) (get?_mapMembers_some change under)
      (inner.mapFloats keeps)
      (others.mapFloats keeps)
    rw [commonFieldAttributes_mapMembers]
    exact checkAliases_mapMembers change listed

end

theorem Parses.names_mapFloats (keeps : KeepsNumbers change) {space node parsed : Json}
    {start stop : ParseState} (derivation : Parses false space node start parsed stop) :
    names (Json.mapFloats change parsed) = names parsed := by
  have ⟨_, effect⟩ := derivation.effect
  have ⟨_, changed⟩ := (derivation.mapFloats keeps).effect
  have same : (names (Json.mapFloats change parsed)).reverse ++ start.defined =
      (names parsed).reverse ++ start.defined :=
    (congrArg ParseState.defined changed.stopIs).symm.trans
      (congrArg ParseState.defined effect.stopIs)
  exact List.reverse_injective (List.append_cancel_right same)

theorem mapFloats_notUnion {schema : Json} (notUnion : ∀ branches, schema ≠ .arr branches) :
    ∀ branches, mapFloats change schema ≠ .arr branches := by
  cases schema with
  | arr branches => exact absurd rfl (notUnion branches)
  | _ => simp [mapFloats]

mutual

theorem ParsesApart.mapFloats {change : Double → Double} (keeps : KeepsNumbers change)
    {schema plain : Json} {before after : Registry} :
    ParsesApart schema before plain after →
      ParsesApart (Json.mapFloats change schema) (mapMembers change before)
        (Json.mapFloats change plain)
        (mapMembers change after) ∧ names (Json.mapFloats change plain) = names plain
  | .node notUnion derivation => by
    exact ⟨.node (mapFloats_notUnion notUnion) (derivation.mapFloats keeps),
      derivation.names_mapFloats keeps⟩
  | .union parts => by
    have ⟨changed, sameNames⟩ := parts.mapFloats keeps
    exact ⟨.union changed, sameNames⟩

theorem BranchesApart.mapFloats {change : Double → Double} (keeps : KeepsNumbers change)
    {branches parsed : List Json} {before after : Registry} :
    BranchesApart branches before parsed after →
      BranchesApart (mapItems change branches) (mapMembers change before) (mapItems change parsed)
        (mapMembers change after) ∧
        branchNames (mapItems change parsed) = branchNames parsed
  | .nil => by exact ⟨.nil, rfl⟩
  | .cons first others => by
    have ⟨changed, sameNames⟩ := first.mapFloats keeps
    have ⟨othersChanged, othersNames⟩ := others.mapFloats keeps
    refine ⟨.cons changed othersChanged, ?_⟩
    rw [mapItems, branchNames, branchNames, sameNames, othersNames]

end

end Schema

end Avro
