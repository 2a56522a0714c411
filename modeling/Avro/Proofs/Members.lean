import Avro.Json.Basic
import Mathlib

/-!
Contract: lookup in the members of objects.

Owns: how lookup goes through concatenation, selection by key, change of values, and update, and
what updates do to keys.
-/

namespace Avro.Members

variable {α β : Type}
variable {value : α} {key other : String} {members additions left right : List (String × α)}
  {member : String × α}

theorem get?_cons (member : String × α) (rest : List (String × α)) (key : String) :
    get? (member :: rest) key = if member.1 = key then some member.2 else get? rest key := rfl

theorem mem_of_get? (found : get? members key = some value) : (key, value) ∈ members := by
  induction members with
  | nil => simp [get?] at found
  | cons member rest ih =>
    rw [get?_cons] at found
    split at found
    · rename_i sameKey
      cases found
      subst sameKey
      exact List.mem_cons_self
    · exact List.mem_cons_of_mem _ (ih found)

/-- The front of two lists of attributes is searched first. -/
theorem get?_append (front back : List (String × α)) (key : String) :
    get? (front ++ back) key = (get? front key).or (get? back key) := by
  induction front with
  | nil => rfl
  | cons member rest ih =>
    rw [List.cons_append, get?_cons, get?_cons]
    split
    · rfl
    · exact ih

theorem get?_filter (select : String → Bool) (members : List (String × α)) (key : String) :
    get? (members.filter fun member => select member.1) key =
      if select key then get? members key else none := by
  induction members with
  | nil => simp [get?]
  | cons member rest ih =>
    rw [List.filter_cons, get?_cons]
    by_cases sameKey : member.1 = key
    · subst sameKey
      by_cases selected : select member.1
      · simp [selected, get?_cons]
      · simp [selected, ih]
    · by_cases selected : select member.1
      · simp [selected, get?_cons, sameKey, ih]
      · simp [selected, sameKey, ih]

/-- Setting an attribute changes what is found under its key only. -/
theorem get?_set (members : List (String × α)) (key other : String) (value : α) :
    get? (set members key value) other =
      if key = other then some value else get? members other := by
  induction members with
  | nil => rfl
  | cons member rest ih =>
    unfold set
    by_cases sameKey : member.1 = key
    · rw [if_pos sameKey, get?_cons, get?_cons, sameKey]
      split <;> rfl
    · rw [if_neg sameKey, get?_cons, get?_cons, ih]
      by_cases wanted : member.1 = other
      · have different : ¬ key = other := fun equal => sameKey (wanted.trans equal.symm)
        rw [if_pos wanted, if_neg different, if_pos wanted]
      · rw [if_neg wanted, if_neg wanted]

theorem set_set (members : List (String × α)) (key : String) (first second : α) :
    set (set members key first) key second = set members key second := by
  induction members with
  | nil => simp [set]
  | cons member rest ih =>
    by_cases sameKey : member.1 = key
    · simp [set, sameKey]
    · simp [set, sameKey, ih]

theorem set_of_notMem (value : α) (absent : key ∉ keys members) :
    set members key value = members ++ [(key, value)] := by
  induction members with
  | nil => rfl
  | cons member rest ih =>
    simp only [keys, List.map_cons, List.mem_cons, not_or] at absent
    rw [set, if_neg fun same => absent.1 same.symm, ih absent.2, List.cons_append]

private theorem set_of_nodup {others : List (String × α)}
    (distinct : (keys (members ++ member :: others)).Nodup) :
    set members member.1 member.2 = members ++ [member] := by
  apply set_of_notMem
  simp only [keys, List.map_append, List.map_cons] at distinct ⊢
  exact fun isIn => (List.nodup_append.mp distinct).2.2 _ isIn _ List.mem_cons_self rfl

theorem mem_set (isMember : member ∈ set members key value) :
    member = (key, value) ∨ member ∈ members := by
  induction members with
  | nil => exact Or.inl (List.mem_singleton.mp isMember)
  | cons head rest ih =>
    unfold set at isMember
    split at isMember
    · rcases List.mem_cons.mp isMember with isNew | isOld
      · exact Or.inl isNew
      · exact Or.inr (List.mem_cons_of_mem _ isOld)
    · rcases List.mem_cons.mp isMember with isHead | inRest
      · exact Or.inr (isHead ▸ List.mem_cons_self)
      · rcases ih inRest with isNew | isOld
        · exact Or.inl isNew
        · exact Or.inr (List.mem_cons_of_mem _ isOld)

theorem mem_union (isMember : member ∈ union members additions) :
    member ∈ members ∨ member ∈ additions := by
  induction additions generalizing members with
  | nil => exact Or.inl isMember
  | cons head rest ih =>
    have inEither := ih isMember
    rcases inEither with inSet | inRest
    · rcases mem_set inSet with isNew | isOld
      · exact Or.inr (isNew ▸ List.mem_cons_self)
      · exact Or.inl isOld
    · exact Or.inr (List.mem_cons_of_mem _ inRest)

theorem mem_pairs {α β : Type} {left first third : α} {right second fourth : β} :
    (left, right) ∈ [(first, second), (third, fourth)] ↔ left = first ∧ right = second ∨
    left = third ∧ right = fourth := by
  simp

/-! ### Keys -/

theorem isSome_get? : (get? members key).isSome = true ↔ key ∈ keys members := by
  unfold keys
  induction members with
  | nil => simp [get?]
  | cons member rest ih =>
    rw [get?_cons, List.map_cons, List.mem_cons]
    by_cases sameKey : member.1 = key
    · simp [sameKey]
    · rw [if_neg sameKey, ih]
      simp [Ne.symm sameKey]

theorem get?_eq_none_iff : get? members key = none ↔ key ∉ keys members := by
  rw [← isSome_get?, Option.not_isSome_iff_eq_none]

theorem mem_keys_of_get? (found : get? members key = some value) : key ∈ keys members :=
  List.mem_map_of_mem (mem_of_get? found)

theorem get?_of_mem (distinct : (keys members).Nodup) (isMember : member ∈ members) :
    get? members member.1 = some member.2 := by
  induction members with
  | nil => simp at isMember
  | cons first rest ih =>
    rw [keys, List.map_cons, List.nodup_cons] at distinct
    rw [get?_cons]
    rcases List.mem_cons.mp isMember with rfl | inRest
    · rw [if_pos rfl]
    · have different : first.1 ≠ member.1 :=
        fun equal => distinct.1 (equal ▸ List.mem_map_of_mem inRest)
      rw [if_neg different, ih distinct.2 inRest]

theorem exists_get?_of_mem (isKey : key ∈ keys members) : ∃ value, get? members key = some value :=
  Option.isSome_iff_exists.mp (isSome_get?.mpr isKey)

theorem keys_set_of_mem (value : α) (isKey : key ∈ keys members) :
    keys (set members key value) = keys members := by
  induction members with
  | nil => simp [keys] at isKey
  | cons member rest ih =>
    by_cases sameKey : member.1 = key
    · simp [set, keys, sameKey]
    · rw [keys, List.map_cons, List.mem_cons] at isKey
      have inRest := isKey.resolve_left (Ne.symm sameKey)
      rw [set, if_neg sameKey, keys, List.map_cons, ← keys, ih inRest]
      rfl

theorem keys_set_of_notMem (value : α) (absent : key ∉ keys members) :
    keys (set members key value) = keys members ++ [key] := by
  rw [set_of_notMem value absent, keys, List.map_append]
  rfl

theorem mem_keys_set :
    other ∈ keys (set members key value) ↔ other = key ∨ other ∈ keys members := by
  by_cases isKey : key ∈ keys members
  · rw [keys_set_of_mem value isKey]
    exact ⟨Or.inr, fun either => either.elim (fun same => same ▸ isKey) id⟩
  · rw [keys_set_of_notMem value isKey, List.mem_append, List.mem_singleton]
    exact or_comm

theorem nodup_keys_set (key : String) (value : α) (distinct : (keys members).Nodup) :
    (keys (set members key value)).Nodup := by
  by_cases isKey : key ∈ keys members
  · rwa [keys_set_of_mem value isKey]
  · rw [keys_set_of_notMem value isKey]
    exact distinct.append (List.nodup_singleton key) (by simpa using isKey)

private theorem keys_prefix_set (members : List (String × α)) (key : String) (value : α) :
    keys members <+: keys (set members key value) := by
  by_cases isKey : key ∈ keys members
  · rw [keys_set_of_mem value isKey]
  · rw [keys_set_of_notMem value isKey]
    exact List.prefix_append _ _

/-- Members with distinct keys are known by their keys and by what is found under them. -/
theorem eq_of_get? (sameKeys : keys left = keys right) (distinct : (keys left).Nodup)
    (same : ∀ key ∈ keys left, get? left key = get? right key) : left = right := by
  induction left generalizing right with
  | nil => exact (List.map_eq_nil_iff.mp sameKeys.symm).symm
  | cons member rest ih =>
    cases right with
    | nil => simp [keys] at sameKeys
    | cons other others =>
      simp only [keys, List.map_cons, List.cons.injEq, List.nodup_cons] at sameKeys distinct
      have sameMember : member = other := by
        have found := same member.1 (by simp [keys])
        rw [get?_cons, get?_cons, if_pos rfl, if_pos sameKeys.1.symm] at found
        exact Prod.ext sameKeys.1 (Option.some.inj found)
      rw [sameMember, ih sameKeys.2 distinct.2 ?_]
      intro key isKey
      have different : member.1 ≠ key := fun equal => distinct.1 (equal ▸ isKey)
      have found := same key (List.mem_cons_of_mem _ isKey)
      rwa [get?_cons, get?_cons, if_neg different, if_neg (sameMember ▸ different)] at found

/-! ### Unions -/

theorem union_cons (members additions : List (String × α)) (member : String × α) :
    union members (member :: additions) = union (set members member.1 member.2) additions := rfl

theorem union_append (members first second : List (String × α)) :
    union members (first ++ second) = union (union members first) second :=
  List.foldl_append

theorem mem_keys_union :
    key ∈ keys (union members additions) ↔ key ∈ keys members ∨ key ∈ keys additions := by
  induction additions generalizing members with
  | nil => simp [union, keys]
  | cons member rest ih =>
    rw [union_cons, ih, mem_keys_set, keys, keys, keys, List.map_cons, List.mem_cons]
    tauto

theorem nodup_keys_union (distinct : (keys members).Nodup) :
    (keys (union members additions)).Nodup := by
  induction additions generalizing members with
  | nil => exact distinct
  | cons member rest ih => exact ih (nodup_keys_set _ _ distinct)

theorem keys_prefix_union (members additions : List (String × α)) :
    keys members <+: keys (union members additions) := by
  induction additions generalizing members with
  | nil => exact List.prefix_rfl
  | cons member rest ih => exact (keys_prefix_set members _ _).trans (ih _)

theorem keys_union_of_subset (known : ∀ key ∈ keys additions, key ∈ keys members) :
    keys (union members additions) = keys members := by
  induction additions generalizing members with
  | nil => rfl
  | cons member rest ih =>
    rw [keys, List.map_cons, List.forall_mem_cons] at known
    have sameKeys := keys_set_of_mem member.2 known.1
    rw [union_cons, ih (sameKeys.symm ▸ known.2), sameKeys]

theorem get?_union_of_notMem (absent : key ∉ keys additions) :
    get? (union members additions) key = get? members key := by
  induction additions generalizing members with
  | nil => rfl
  | cons member rest ih =>
    rw [keys, List.map_cons, List.mem_cons, not_or] at absent
    rw [union_cons, ih absent.2, get?_set, if_neg (Ne.symm absent.1)]

/-- A key that is added has a value of the additions, whatever it is added to. -/
theorem exists_get?_union (isKey : key ∈ keys additions) :
    ∃ value, (key, value) ∈ additions ∧
      ∀ members, get? (union members additions) key = some value := by
  induction additions with
  | nil => simp [keys] at isKey
  | cons member rest ih =>
    by_cases later : key ∈ keys rest
    · have ⟨value, isMember, found⟩ := ih later
      exact ⟨value, List.mem_cons_of_mem _ isMember, fun members => found _⟩
    · rw [keys, List.map_cons, List.mem_cons] at isKey
      have sameKey : key = member.1 := isKey.resolve_right later
      subst sameKey
      refine ⟨member.2, List.mem_cons_self, fun members => ?_⟩
      rw [union_cons, get?_union_of_notMem later, get?_set, if_pos rfl]

/-- What is found under a key of the additions depends on the additions only. -/
theorem get?_union_congr (isKey : key ∈ keys additions) (left right : List (String × α)) :
    get? (union left additions) key = get? (union right additions) key := by
  have ⟨value, _, found⟩ := exists_get?_union isKey
  rw [found, found]

/-- Additions under new, distinct keys are appended. -/
theorem union_of_nodup (distinct : (keys (members ++ additions)).Nodup) :
    union members additions = members ++ additions := by
  induction additions generalizing members with
  | nil => exact (List.append_nil members).symm
  | cons member rest ih =>
    rw [union_cons, set_of_nodup distinct]
    rw [List.append_cons] at distinct
    rw [ih distinct, List.append_assoc, List.singleton_append]

/-- Additions that start with the keys which are there replace everything. -/
theorem union_of_prefix (starts : keys members <+: keys additions)
    (distinct : (keys additions).Nodup) : union members additions = additions := by
  have ⟨others, othersAre⟩ := starts
  obtain ⟨front, back, rfl, frontKeys, -⟩ := List.map_eq_append_iff.mp othersAre.symm
  have frontDistinct : (keys ([] ++ front)).Nodup :=
    distinct.sublist ((List.sublist_append_left front back).map Prod.fst)
  have replaced : union members front = front := by
    have sameKeys : keys (union members front) = keys front :=
      (keys_union_of_subset fun key isKey => frontKeys ▸ isKey).trans frontKeys.symm
    refine eq_of_get? sameKeys (sameKeys ▸ frontDistinct) fun key isKey => ?_
    rw [get?_union_congr (sameKeys ▸ isKey) members [], union_of_nodup frontDistinct,
      List.nil_append]
  rw [union_append, replaced, union_of_nodup distinct]

/-! ### Erasing -/

theorem erase_of_notMem (absent : key ∉ keys members) : erase members key = members := by
  induction members with
  | nil => rfl
  | cons member rest ih =>
    rw [keys, List.map_cons, List.mem_cons, not_or] at absent
    rw [erase, if_neg (Ne.symm absent.1), ih absent.2]

theorem erase_set (value : α) (absent : key ∉ keys members) :
    erase (set members key value) key = members := by
  induction members with
  | nil => simp [set, erase]
  | cons member rest ih =>
    rw [keys, List.map_cons, List.mem_cons, not_or] at absent
    rw [set, if_neg (Ne.symm absent.1), erase, if_neg (Ne.symm absent.1), ih absent.2]

/-- The members of different keys are set and erased in any order. -/
theorem erase_set_comm (members : List (String × α)) (different : key ≠ other) (value : α) :
    erase (set members other value) key = set (erase members key) other value := by
  induction members with
  | nil => simp [set, erase, Ne.symm different]
  | cons member rest ih =>
    by_cases isOther : member.1 = other
    · simp [set, erase, isOther, Ne.symm different]
    · by_cases isKey : member.1 = key
      · simp [set, erase, isKey, different]
      · simp [set, erase, isOther, isKey, ih]

theorem erase_sublist (members : List (String × α)) (key : String) :
    (erase members key).Sublist members := by
  induction members with
  | nil => exact .slnil
  | cons member rest ih =>
    rw [erase]
    split
    · exact List.sublist_cons_self member rest
    · exact ih.cons_cons member

theorem get?_erase (different : key ≠ other) :
    get? (erase members key) other = get? members other := by
  induction members with
  | nil => rfl
  | cons member rest ih =>
    rw [erase]
    by_cases isKey : member.1 = key
    · rw [if_pos isKey, get?_cons, if_neg (isKey ▸ different)]
    · rw [if_neg isKey, get?_cons, get?_cons, ih]

theorem notMem_keys_erase (distinct : (keys members).Nodup) (key : String) :
    key ∉ keys (erase members key) := by
  induction members with
  | nil => simp [erase, keys]
  | cons member rest ih =>
    rw [keys, List.map_cons, List.nodup_cons] at distinct
    rw [erase]
    by_cases isKey : member.1 = key
    · rw [if_pos isKey]
      exact isKey ▸ distinct.1
    · rw [if_neg isKey, keys, List.map_cons, List.mem_cons, not_or]
      exact ⟨Ne.symm isKey, ih distinct.2⟩

theorem length_eq_of_get? (leftDistinct : (keys left).Nodup) (rightDistinct : (keys right).Nodup)
    (same : ∀ key, get? left key = get? right key) : left.length = right.length := by
  have sameKeys (key : String) : key ∈ keys left ↔ key ∈ keys right := by
    rw [← isSome_get?, ← isSome_get?, same]
  have permuted := (List.perm_ext_iff_of_nodup leftDistinct rightDistinct).mpr sameKeys
  simpa [keys] using permuted.length_eq

end Avro.Members
