import Avro.Proofs.JsonText

/-!
Contract: documents that are compared and written again.

Owns: `allFloats`, a test of the floating-point numbers of a document; that a document without
undefined numbers, in which no object has a key twice, equals itself; and `Hereditary`, the
properties of documents that go by their parts.

Equality by value looks a member up by its key, so that a key that stands twice would be compared
with its first value.
-/

namespace Avro

namespace Json

variable {items : List Json} {members left right : Members} {test : Double → Bool}

/-! ### Numbers -/

mutual

theorem mapFloats_eq {test : Double → Bool} {change : Double → Double}
    (unchanged : ∀ value, test value = true → change value = value) :
    ∀ document : Json, allFloats test document = true → mapFloats change document = document
  | .null, _ | .bool _, _ | .int _, _ | .str _, _ => rfl
  | .float value, passes => by rw [mapFloats, unchanged value passes]
  | .arr items, passes => by rw [mapFloats, mapItems_id unchanged items passes]
  | .obj members, passes => by rw [mapFloats, mapMembers_id unchanged members passes]

theorem mapItems_id {test : Double → Bool} {change : Double → Double}
    (unchanged : ∀ value, test value = true → change value = value) :
    ∀ items : List Json, allItemFloats test items = true → mapItems change items = items
  | [], _ => rfl
  | item :: rest, passes => by
    rw [allItemFloats, Bool.and_eq_true] at passes
    rw [mapItems, mapFloats_eq unchanged item passes.1, mapItems_id unchanged rest passes.2]

theorem mapMembers_id {test : Double → Bool} {change : Double → Double}
    (unchanged : ∀ value, test value = true → change value = value) :
    ∀ members : Members, allMemberFloats test members = true → mapMembers change members = members
  | [], _ => rfl
  | (key, value) :: rest, passes => by
    rw [allMemberFloats, Bool.and_eq_true] at passes
    rw [mapMembers, mapMember, mapFloats_eq unchanged value passes.1,
      mapMembers_id unchanged rest passes.2]

end

/-! ### Properties that go by parts -/

theorem itemsDistinct_iff :
    itemsDistinct items = true ↔ ∀ item ∈ items, item.keysDistinct = true := by
  induction items with
  | nil => simp [itemsDistinct]
  | cons item rest ih => rw [itemsDistinct, Bool.and_eq_true, ih, List.forall_mem_cons]

theorem membersDistinct_iff :
    membersDistinct members = true ↔ ∀ member ∈ members, member.2.keysDistinct = true := by
  induction members with
  | nil => simp [membersDistinct]
  | cons member rest ih =>
    rw [membersDistinct, memberDistinct, Bool.and_eq_true, ih, List.forall_mem_cons]

private theorem allItemFloats_iff :
    allItemFloats test items = true ↔ ∀ item ∈ items, item.allFloats test = true := by
  induction items with
  | nil => simp [allItemFloats]
  | cons item rest ih => rw [allItemFloats, Bool.and_eq_true, ih, List.forall_mem_cons]

private theorem allMemberFloats_iff :
    allMemberFloats test members = true ↔ ∀ member ∈ members, member.2.allFloats test = true := by
  induction members with
  | nil => simp [allMemberFloats]
  | cons member rest ih =>
    rw [allMemberFloats, memberFloats, Bool.and_eq_true, ih, List.forall_mem_cons]

/-- A property of texts and truth values that an array or an object has if its parts have it; the
keys of an object are distinct. -/
structure Hereditary (good : Json → Prop) : Prop where
  bool : ∀ value, good (.bool value)
  str : ∀ text, good (.str text)
  arr : ∀ items, good (.arr items) ↔ ∀ item ∈ items, good item
  obj : ∀ members, good (.obj members) ↔
  (Members.keys members).Nodup ∧ ∀ member ∈ members, good member.2

theorem hereditary_keysDistinct : Hereditary fun document => document.keysDistinct = true where
  bool := fun _ => rfl
  str := fun _ => rfl
  arr := fun _ => itemsDistinct_iff
  obj := by
    intro members
    rw [keysDistinct, Bool.and_eq_true, decide_eq_true_eq, membersDistinct_iff]

/-- Whether no object of a document has a key twice, and its numbers pass a test. -/
def Regular (test : Double → Bool) (document : Json) : Prop :=
  document.keysDistinct = true ∧ document.allFloats test = true

/-- The parts of a regular document are regular. -/
theorem hereditary_regular (test : Double → Bool) : Hereditary (Regular test) where
  bool := fun _ => ⟨rfl, rfl⟩
  str := fun _ => ⟨rfl, rfl⟩
  arr := by
    intro items
    rw [Regular, keysDistinct, allFloats, itemsDistinct_iff, allItemFloats_iff, ← forall₂_and]
    exact Iff.rfl
  obj := by
    intro members
    rw [Regular, keysDistinct, allFloats, Bool.and_eq_true, decide_eq_true_eq, membersDistinct_iff,
      allMemberFloats_iff, and_assoc, ← forall₂_and]
    exact Iff.rfl

/-! ### Equality -/

private theorem sameMembers_congr (members : Members)
    (same : ∀ key, Members.get? left key = Members.get? right key) :
    sameMembers members left = sameMembers members right := by
  induction members with
  | nil => rfl
  | cons member rest ih =>
    obtain ⟨key, value⟩ := member
    rw [sameMembers, sameMembers, same, ih]

/-- Equality to an object looks at its members by their keys. -/
theorem same_obj_congr (leftDistinct : (Members.keys left).Nodup)
    (rightDistinct : (Members.keys right).Nodup)
    (same : ∀ key, Members.get? left key = Members.get? right key) (other : Json) :
    other.same (.obj left) = other.same (.obj right) := by
  cases other with
  | obj members =>
    rw [Json.same, Json.same, Members.length_eq_of_get? leftDistinct rightDistinct same,
      sameMembers_congr members same]
  | _ => rfl

theorem same_arr_congr {left right : List Json}
    (same : ∀ items, sameItems items left = sameItems items right) (other : Json) :
    other.same (.arr left) = other.same (.arr right) := by
  cases other with
  | arr items => exact same items
  | _ => rfl


private theorem sameMembers_of_get? {others : Members}
    (found : ∀ member ∈ members, Members.get? others member.1 = some member.2)
    (same : ∀ member ∈ members, member.2.same member.2 = true) :
    sameMembers members others = true := by
  induction members with
  | nil => rfl
  | cons member rest ih =>
    obtain ⟨key, value⟩ := member
    rw [List.forall_mem_cons] at found same
    rw [sameMembers, found.1]
    simp only [same.1, ih found.2 same.2, Bool.and_self]

mutual

/-- A document none of whose objects has a key twice equals itself. -/
theorem same_self : ∀ document : Json, document.keysDistinct = true → document.same document = true
  | .null, _ => rfl
  | .bool value, _ => by cases value <;> rfl
  | .int value, _ => by simp [same, integral?]
  | .str text, _ => by simp [same]
  | .float value, _ => by cases isNaN : value.isNaN <;> simp [same, Double.same, isNaN]
  | .arr items, distinct => by
    rw [same]
    exact sameItems_self items (itemsDistinct_iff.mp distinct)
  | .obj members, distinct => by
    have ⟨keysDistinct, parts⟩ := (hereditary_keysDistinct.obj members).mp distinct
    rw [same, beq_self_eq_true, Bool.true_and]
    exact sameMembers_of_get? (fun _ => Members.get?_of_mem keysDistinct)
      (same_members_self members parts)

theorem sameItems_self : ∀ items : List Json, (∀ item ∈ items, item.keysDistinct = true) →
    sameItems items items = true
  | [], _ => rfl
  | item :: rest, distinct => by
    rw [List.forall_mem_cons] at distinct
    rw [sameItems, same_self item distinct.1, sameItems_self rest distinct.2]
    rfl

theorem same_members_self :
    ∀ members : Members, (∀ member ∈ members, member.2.keysDistinct = true) →
    ∀ member ∈ members, member.2.same member.2 = true
  | [], _ => List.forall_mem_nil _
  | (_, value) :: rest, distinct => by
    rw [List.forall_mem_cons] at distinct ⊢
    exact ⟨same_self value distinct.1, same_members_self rest distinct.2⟩

end

/-- A document without repeated keys and undefined numbers is the same as itself. -/
theorem sameApart_self {document : Json} (regular : Regular isDefined document) :
    document.sameApart document = true := by
  rw [sameApart, regular.2, same_self document regular.1, Bool.and_self]

end Json

end Avro
