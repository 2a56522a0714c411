import Avro.Proofs.Parts

/-!
Contract: what is written is read to its end, and no further.

Owns: `Site.Fits`, what a way to tell what is read needs of a site, and that a value all of whose
sites fit is paired with its reading; `Site.framed`, the conditions on a site under which writing
and reading agree on where a value ends.

Writing takes more than a schema accepts: numbers of any size, any value for a boolean, texts and
mappings as arrays. None of that moves the end of a value. It is moved by a fixed type, whose bytes
are written whatever their number and read by the declared size, and by a type named `request`,
which is looked up for writing and not for reading.
-/

namespace Avro

open Datum (sizeLimit)
open Encode (writeKind)
open Schema (attributeOf integer? kindOf symbolIndex)

open BinaryInput BinaryOutput Labelled

variable {datum : Datum} {index depth : Nat} {schema : Json}

/-! ### Symbols -/

/-- A word that is found in a text that is not empty is found before its end. -/
theorem lt_length_of_find? {word text : List Char} (notEmpty : text ≠ [])
    (found : (List.range (text.length + 1)).find? (fun place => word.isPrefixOf (text.drop place)) =
      some index) :
    index < text.length := by
  obtain ⟨starts, inRange, earlier⟩ := List.find?_range_eq_some.mp found
  have inText : index < text.length + 1 := List.mem_range.mp inRange
  by_contra isEnd
  -- Only the empty word is found behind the last character, and that is found before the first one.
  have nothing : text.drop index = [] := List.drop_eq_nil_iff.mpr (by omega)
  rw [nothing, List.isPrefixOf_iff_prefix, List.prefix_nil] at starts
  have positive : 0 < text.length := List.length_pos_iff.mpr notEmpty
  have atStart := earlier 0 (by omega)
  rw [starts] at atStart
  cases atStart

/-- The place of a symbol is a place among the symbols, unless these are an empty text. -/
theorem documentItemAt_symbolIndex {symbols : Json} (notEmpty : symbols ≠ .str "")
    (found : symbolIndex symbols datum = .ok index) :
    ∃ symbol, Schema.documentItemAt symbols index = .ok symbol := by
  cases symbols with
  | arr items =>
    obtain ⟨place, small⟩ := foundPlace_ok.mp found
    obtain ⟨inRange, -, -⟩ := List.findIdx?_eq_some_iff_getElem.mp place
    exact ⟨items[index], itemAt_ok.mpr ⟨small, List.getElem?_eq_getElem inRange⟩⟩
  | str text =>
    cases datum with
    | str word =>
      obtain ⟨place, small⟩ := foundPlace_ok.mp found
      have notNil : text.toList ≠ [] := by
        intro isNil
        exact notEmpty (by rw [String.toList_eq_nil_iff.mp isNil])
      rw [← String.length_toList] at place
      have isPlace := lt_length_of_find? notNil place
      have characterIs : Schema.itemAt text.toList index = .ok text.toList[index] :=
        itemAt_ok.mpr ⟨small, List.getElem?_eq_getElem isPlace⟩
      exact ⟨_, outcome_bind_ok.mpr ⟨_, characterIs, rfl⟩⟩
    | _ => simp [symbolIndex] at found
  | _ => simp [symbolIndex] at found

/-! ### Values -/

/-- What a way to tell what is read needs of a site: the node is not the word `request`, a reference
has no logical type, and the content of a fixed type is read by the declared size. If reading is to
succeed, no node has a logical type, and symbols are not an empty text. -/
structure Encode.Site.Fits (logic : ReadLogic) (site : Site) : Prop where
  notRequest : kindOf site.node ≠ .ok .request
  reference : ∀ name, kindOf site.node = .ok (.named name) → Logical.ofSchema site.node = .ok none
  sized : kindOf site.node = .ok .fixed →
  ∀ datum content, Logical.prepareFor site.node site.value = .ok datum →
    datum.byteContent? = some content → content.length < sizeLimit →
    logic.holds (ReadM.lift (attributeOf site.node "size") >>= Source.readFixed) (all true content)
      fun _ => True
  symbols : logic.total → kindOf site.node = .ok .enum →
  attributeOf site.node "symbols" ≠ .ok (.str "")
  plain : logic.total → Logical.ofSchema site.node = .ok none

/-- At a depth, every value in which all sites fit is paired with its reading. -/
def PairsValues (logic : ReadLogic) (registry : Registry) (limit depth : Nat) : Prop :=
  ∀ ⦃given : Datum⦄ ⦃schema field : Json⦄,
    (∀ site, Encode.Occurs registry limit ⟨schema, given⟩ site → site.Fits logic) →
    logic.Pairs (Encode.write registry depth given schema field)
      (Encode.write registry depth given schema field)
      (Decode.read registry depth schema .null false) fun _ => True

section Values

variable {logic : ReadLogic} {registry : Registry} {limit depth : Nat} {schema field : Json}
  {given datum : Datum} {kind : Kind}

/-- A value of a built-in kind is paired if its parts are paired one level below. -/
theorem PairsValues.builtIn (pairsBelow : PairsValues logic registry limit depth)
    (enough : depth ≤ limit)
    (fitting : ∀ site, Encode.Occurs registry limit ⟨schema, given⟩ site → site.Fits logic)
    (kindIs : kindOf schema = .ok kind) (prepared : Logical.prepareFor schema given = .ok datum)
    (builtIn : kind.isBuiltIn = true) :
    logic.Pairs (writeKind registry depth (Encode.write registry depth) schema field datum kind)
      (writeKind registry depth (Encode.write registry depth) schema field datum kind)
      (Decode.readKind registry (Decode.read registry depth) (Decode.skip registry depth) schema
        .null false kind)
      fun _ => True := by
  have here := fitting _ (.whole _)
  have part {node place : Json} {value : Datum}
      (isPart : ⟨node, value⟩ ∈ Encode.partsOfKind registry limit ⟨schema, given⟩ datum kind) :
      logic.Pairs (Encode.write registry depth value node place)
        (Encode.write registry depth value node place)
        (Decode.read registry depth node .null false) fun _ => True := by
    rw [← Encode.parts_eq kindIs prepared] at isPart
    exact pairsBelow fun site occurs => fitting site (.within isPart occurs)
  have anyValue {write : WriteM BinaryOutput Unit} {labelled : WriteM LabelledOutput Unit}
    {read : ReadM BinaryInput Datum}
      {good : Datum → Prop} (paired : logic.Pairs write labelled read good) :
      logic.Pairs write labelled read fun _ => True :=
    paired.imp fun _ reads => logic.weaken reads fun _ _ => trivial
  cases kind with
  | null => exact Labels.pure (logic.pure trivial)
  | boolean => exact anyValue (pairs_boolean logic datum)
  | string => exact anyValue (pairs_text logic datum)
  | int | long => exact anyValue (pairs_long logic datum)
  | float => exact anyValue (pairs_single logic datum)
  | double => exact anyValue (pairs_double logic datum)
  | bytes => exact anyValue (pairs_bytes logic datum)
  | fixed =>
    apply (Labels.raw datum).imp
    rintro _ ⟨content, contentIs, small, rfl⟩
    exact here.sized kindIs datum content prepared contentIs small
  | enum =>
    refine anyValue (pairs_symbol (Encode.write registry depth) ?_ registry depth _)
    intro isTotal symbols index symbolsAre indexIs
    have notEmpty : symbols ≠ .str "" :=
      fun isEmpty => here.symbols isTotal kindIs (isEmpty ▸ symbolsAre)
    obtain ⟨symbol, symbolIs⟩ := documentItemAt_symbolIndex notEmpty indexIs
    exact ⟨symbol, _, symbolIs, rfl⟩
  | array =>
    refine anyValue (pairs_array (Encode.write registry depth) (fun _ _ _ => True) ?_)
    intro node items nodeIs itemsAre item isItem
    exact part (Encode.mem_partsOfKind_item nodeIs itemsAre isItem)
  | map =>
    refine anyValue (pairs_map (Encode.write registry depth) (fun _ _ _ => True) ?_)
    rintro node entries nodeIs rfl entry isEntry
    exact part (Encode.mem_partsOfKind_entry nodeIs isEntry)
  | union =>
    refine anyValue (pairs_union (Encode.write registry depth) (fun _ _ _ => True) ?_)
    intro index value branch chosen branchIs
    exact part (Encode.mem_partsOfKind_branch chosen enough branchIs (Or.inl rfl))
  | errorUnion =>
    refine anyValue (pairs_union (Encode.write registry depth) (fun _ _ _ => True) ?_)
    intro index value branch chosen branchIs
    exact part (Encode.mem_partsOfKind_branch chosen enough branchIs (Or.inr rfl))
  | record =>
    refine anyValue (pairs_record (Encode.write registry depth) (fun _ _ _ => True)
      (Decode.skip registry depth) ?_)
    rintro nodes entries nodesAre rfl node isNode view viewIs
    exact part (Encode.mem_partsOfKind_field nodesAre isNode viewIs (Or.inl rfl))
  | error =>
    refine anyValue (pairs_record (Encode.write registry depth) (fun _ _ _ => True)
      (Decode.skip registry depth) ?_)
    rintro nodes entries nodesAre rfl node isNode view viewIs
    exact part (Encode.mem_partsOfKind_field nodesAre isNode viewIs (Or.inr rfl))
  | request => exact absurd kindIs here.notRequest
  | named name => exact absurd builtIn Bool.false_ne_true
  | foreign value => exact absurd builtIn Bool.false_ne_true

end Values

private theorem mentions_of_isBuiltIn {kind : Kind} (kindIs : kindOf schema = .ok kind)
    (builtIn : kind.isBuiltIn = true) (word : String) :
    ∃ answer, Schema.mentions schema word = .ok answer := by
  cases schema with
  | str text => exact ⟨_, rfl⟩
  | arr branches => exact ⟨_, rfl⟩
  | obj members => exact ⟨_, rfl⟩
  | _ =>
    cases kindIs
    exact absurd builtIn Bool.false_ne_true

private theorem kindOf_of_written {registry : Registry} {field : Json} {given : Datum}
    {output after : BinaryOutput}
    (written : Encode.write registry (depth + 1) given schema field output = .ok () after) :
    ∃ kind, kindOf schema = .ok kind ∧ ∀ value, kind ≠ .foreign value := by
  rw [Encode.write] at written
  obtain ⟨type, typeIs, written⟩ := writeLift_bind_ok.mp written
  obtain ⟨kind, kindIs, written⟩ := writeLift_bind_ok.mp written
  refine ⟨kind, by simp [kindOf, typeIs, kindIs], ?_⟩
  rintro value rfl
  cases written

/-- Values are paired with their reading at every depth up to the one at which their parts are
looked for. -/
theorem pairsValues (logic : ReadLogic) (registry : Registry) {limit : Nat}
    (enough : depth ≤ limit) :
    PairsValues logic registry limit depth := by
  induction depth with
  | zero =>
    intro given schema field fitting
    exact Labels.throw _
  | succ depth ih =>
    intro given schema field fitting output after written
    have pairsBelow := ih (by omega)
    have here := fitting _ (.whole _)
    obtain ⟨kind, kindIs, isType⟩ := kindOf_of_written written
    revert written
    have builtIn (builtIn : kind.isBuiltIn = true) (notRequest : kind ≠ .request) :
        logic.Pairs (Encode.write registry (depth + 1) given schema field)
          (Encode.write registry (depth + 1) given schema field)
          (Decode.read registry (depth + 1) schema .null false) fun _ => True := by
      refine pairs_builtIn kindIs builtIn notRequest
        (fun datum prepared => pairsBelow.builtIn (by omega) fitting kindIs prepared builtIn)
          fun type value _ => ?_
      refine logic.weaken (logic.outcome fun isTotal => ?_) fun _ _ => trivial
      obtain ⟨answer, mentioned⟩ := mentions_of_isBuiltIn kindIs builtIn "logicalType"
      exact ⟨value, finish_of_plain (here.plain isTotal) mentioned type value⟩
    cases kind with
    | named name =>
      refine pairs_named kindIs (fun definition resolved => ?_) output after
      have isPart : ⟨definition, given⟩ ∈ Encode.parts registry limit ⟨schema, given⟩ := by
        rw [Encode.parts_eq kindIs (prepareFor_of_plain (here.reference name kindIs) given)]
        exact Encode.mem_partsOfKind_named resolved
      exact pairsBelow fun site occurs => fitting site (.within isPart occurs)
    | foreign value => exact absurd rfl (isType value)
    | request => exact absurd kindIs here.notRequest
    | _ => exact builtIn rfl (by simp) output after

/-! ### Framed sites -/

namespace Encode.Site

/-- Whether a byte string has the size that a node declares. -/
def hasSize (site : Site) (content : Bytes) : Bool :=
  match attributeOf site.node "size" with
  | .ok size => integer? size == some (content.length : Int)
  | .error _ => false

/-- Whether writing and reading agree on where the value of a site ends: it has no logical type, the
bytes of a fixed type are as many as it declares, the node is not the word `request`, and symbols
are not an empty text. -/
def framed (site : Site) : Bool :=
  site.isPlain &&
    match kindOf site.node with
    | .ok .fixed => site.value.byteContent?.all site.hasSize
    | .ok .enum =>
      match attributeOf site.node "symbols" with
      | .ok (.str text) => text != ""
      | _ => true
    | .ok .request => false
    | _ => true

variable {site : Site} (isFramed : site.framed = true)
include isFramed

private theorem plain_of_framed : Logical.ofSchema site.node = .ok none :=
  plain_of_isPlain (Bool.and_eq_true_iff.mp isFramed).1

private theorem size_of_framed {content : Bytes} (kindIs : kindOf site.node = .ok .fixed)
    (contentIs : site.value.byteContent? = some content) :
    ∃ size, attributeOf site.node "size" = .ok size ∧
      integer? size = some (content.length : Int) := by
  have sized := (Bool.and_eq_true_iff.mp isFramed).2
  simp only [kindIs, contentIs, Option.all_some, hasSize] at sized
  split at sized
  · exact ⟨_, by assumption, beq_iff_eq.mp sized⟩
  · cases sized

private theorem symbols_of_framed (kindIs : kindOf site.node = .ok .enum) :
    attributeOf site.node "symbols" ≠ .ok (.str "") := by
  intro isEmpty
  have notEmpty := (Bool.and_eq_true_iff.mp isFramed).2
  simp [kindIs, isEmpty] at notEmpty

private theorem ne_request_of_framed : kindOf site.node ≠ .ok .request := by
  intro kindIs
  have notRequest := (Bool.and_eq_true_iff.mp isFramed).2
  simp [kindIs] at notRequest

end Encode.Site

/-- What is read from a framed site succeeds. -/
theorem Encode.Site.fits_of_framed {site : Site} (isFramed : site.framed = true) :
    site.Fits Exact where
  notRequest := ne_request_of_framed isFramed
  reference _ _ := plain_of_framed isFramed
  sized kindIs datum content prepared contentIs small := by
    rw [prepareFor_of_plain (plain_of_framed isFramed)] at prepared
    cases prepared
    obtain ⟨size, sizeIs, counts⟩ := size_of_framed isFramed kindIs contentIs
    rw [sizeIs, readLift_ok_bind]
    exact Exact.weaken (Exact.fixed small counts) fun _ _ => trivial
  symbols _ := symbols_of_framed isFramed
  plain _ := plain_of_framed isFramed

/-- What is written is read to its end. Let a value be written by a schema, whether or not the
schema accepts it, and let every site that is met on the way be framed. Then reading the bytes by
that schema succeeds, whatever follows them, and leaves what follows them. -/
theorem single_framed {schema parsed : Json} {registry : Registry} {datum : Datum} {bytes : Bytes}
    (parses : Schema.parse {} [] schema = .ok (parsed, registry))
    (framed : ∀ site, Encode.Occurs registry Schema.depthLimit ⟨parsed, datum⟩ site →
      site.framed = true)
    (written : Encode.single schema datum = .ok bytes) (rest : Bytes) :
    ∃ value, Decode.single schema .null false (bytes ++ rest) = .ok (value, rest) := by
  simp only [Encode.single, parses, outcome_ok_bind] at written
  split at written
  · rename_i output done
    cases written
    have fitting (site : Encode.Site)
        (occurs : Encode.Occurs registry Schema.depthLimit ⟨parsed, datum⟩ site) :=
      Encode.Site.fits_of_framed (framed site occurs)
    obtain ⟨labels, appended, -, value, -, reads⟩ :=
      pairsValues Exact registry le_rfl fitting BinaryOutput.empty output done
    obtain ⟨after, read⟩ := reads rest none
    have addedIs : output.written = bytesOf labels := by
      rw [appended, written_append, written_empty, List.nil_append]
    have noReader : (if schema.same .null then Json.null else Json.null) = .null := ite_self _
    have started : Decode.read registry Schema.depthLimit parsed .null false
      (BinaryInput.ofBytes (bytesOf labels ++ rest)) =
        .ok value ⟨rest, after⟩ := read
    refine ⟨value, ?_⟩
    simp only [Decode.single, parses, outcome_ok_bind, noReader, Json.truthy, addedIs,
      Bool.false_eq_true, if_false, pure_bind, started]
    rfl
  · cases written

/-- A page: a digest, a flag, marks, and the digest of the page before, if there is one. -/
def pageSchema : Json :=
  .obj [("type", .str "record"), ("name", .str "Page"),
    ("fields", .arr [
      .obj [("name", .str "digest"),
        ("type", .obj [("type", .str "fixed"), ("name", .str "Digest"), ("size", .int 2)])],
      .obj [("name", .str "flag"), ("type", .str "boolean")],
      .obj [("name", .str "marks"),
        ("type", .obj [("type", .str "array"), ("items", .str "long")])],
      .obj [("name", .str "parent"), ("type", .arr [.str "null", .str "Digest"])]])]

def digestNode : Json := .obj [("type", .str "fixed"), ("name", .str "Digest"), ("size", .int 2)]

def pageMembers : List (String × Json) :=
  [("type", .str "record"), ("name", .str "Page"),
    ("fields", .arr [.obj [("name", .str "digest"), ("type", digestNode)],
      .obj [("name", .str "flag"), ("type", .str "boolean")],
      .obj [("name", .str "marks"),
        ("type", .obj [("type", .str "array"), ("items", .str "long")])],
      .obj [("name", .str "parent"), ("type", .arr [.str "null", .str "Digest"])]])]

def pageRegistry : Registry := [("Page", .obj pageMembers), ("Digest", digestNode)]

def pageNode : Json :=
  .obj (pageMembers ++ [(Schema.parsedKey, .bool true), (Schema.registryKey, .obj pageRegistry)])

def looseMarks : Datum := .tuple [.int (2 ^ 70)]

/-- A page that the schema does not accept: its flag is a number, and its mark has more than 64
bits. -/
def loosePage : Datum :=
  .dict [(.str "digest", .bytes [97, 98]), (.str "flag", .int 5), (.str "marks", looseMarks),
    (.str "parent", .bytes [99, 100])]

def loosePageSites : List Encode.Site :=
  [⟨pageNode, loosePage⟩, ⟨digestNode, .bytes [97, 98]⟩, ⟨.str "boolean", .int 5⟩,
    ⟨.obj [("type", .str "array"), ("items", .str "long")], looseMarks⟩,
    ⟨.arr [.str "null", .str "Digest"], .bytes [99, 100]⟩, ⟨.str "long", .int (2 ^ 70)⟩,
    ⟨.str "Digest", .bytes [99, 100]⟩,
    ⟨digestNode, .bytes [99, 100]⟩]

theorem single_framed_loosePage :
    Validation.validate pageSchema loosePage .null false = .ok false ∧
      ∃ value, Decode.single pageSchema .null false
        ([97, 98, 1, 2, 128, 129, 128, 128, 128, 128, 128, 128, 128, 128, 2, 0, 2, 99, 100] ++
          [7]) = .ok (value, [7]) := by
  refine ⟨rfl, ?_⟩
  have parses : Schema.parse {} [] pageSchema = .ok (pageNode, pageRegistry) := rfl
  have framed : ∀ site, Encode.Occurs pageRegistry Schema.depthLimit ⟨pageNode, loosePage⟩ site →
      site.framed = true := by
    intro site occurs
    have levels : loosePageSites.flatMap (Encode.parts pageRegistry Schema.depthLimit) =
      loosePageSites.tail := rfl
    have isSite : site ∈ loosePageSites :=
      occurs.mem_of_closed (levels ▸ List.tail_subset _) (List.mem_cons_self ..)
    have allFramed : loosePageSites.all Encode.Site.framed = true := rfl
    exact List.all_eq_true.mp allFramed site isSite
  have written : Encode.single pageSchema loosePage =
      .ok [97, 98, 1, 2, 128, 129, 128, 128, 128, 128, 128, 128, 128, 128, 2, 0, 2, 99, 100] := rfl
  exact single_framed parses framed written [7]

/-- A fixed type writes the bytes that it is given, and reads as many as it declares: the rest of
them is left unread. -/
theorem fixed_bytes_left :
    Encode.single digestNode (.bytes [97, 98, 99]) = .ok [97, 98, 99] ∧
      Decode.single digestNode .null false [97, 98, 99] = .ok (.bytes [97, 98], [99]) :=
  ⟨rfl, rfl⟩

end Avro
