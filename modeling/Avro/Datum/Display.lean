import Avro.Datum.Basic
import Avro.Text.Quoted

/-!
Contract: values as they stand inside messages.

Owns: the name of a value's class, the quoted form that a value has inside a collection, and the
plain form that it has by itself; and which values have such a form.
-/

namespace Avro.Datum

def className : Datum → String
  | .null => "NoneType"
  | .bool _ => "bool"
  | .int _ => "int"
  | .float _ => "float"
  | .str _ => "str"
  | .bytes _ => "bytes"
  | .buffer _ => "bytearray"
  | .list _ => "list"
  | .tuple _ => "tuple"
  | .dict _ => "dict"
  | .decimal _ => "decimal.Decimal"
  | .uuid _ => "uuid.UUID"
  | .date _ => "datetime.date"
  | .time _ _ => "datetime.time"
  | .dateTime _ => "datetime.datetime"

def numberTexts : Double.SpecialTexts := ⟨"nan", "inf"⟩

def uuidText (value : Nat) : String :=
  let digits := Text.hexDigits 32 value
  String.intercalate "-"
    [String.ofList (digits.take 8), String.ofList ((digits.drop 8).take 4),
      String.ofList ((digits.drop 12).take 4), String.ofList ((digits.drop 16).take 4),
      String.ofList (digits.drop 20)]

/-- The parts of a time of day that a message shows: trailing zeros of second and microsecond are
left out. -/
def timeArguments (time : TimeOfDay) : List Nat :=
  if time.microsecond ≠ 0 then [time.hour, time.minute, time.second, time.microsecond]
  else if time.second ≠ 0 then [time.hour, time.minute, time.second]
  else [time.hour, time.minute]

def argumentsText (arguments : List Nat) : String :=
  String.intercalate ", " (arguments.map decimalDigits)

def offsetText (offset : Int) : String :=
  if offset = 0 then "datetime.timezone.utc"
  else
    let days := Int.fdiv offset 86400
    let seconds := Int.fmod offset 86400
    let parts := (if days = 0 then [] else ["days=" ++ integerText days])
      ++ (if seconds = 0 then [] else ["seconds=" ++ integerText seconds])
    "datetime.timezone(datetime.timedelta(" ++ String.intercalate ", " parts ++ "))"

def zoneArgument : Option Int → String
  | some offset => ", tzinfo=" ++ offsetText offset
  | none => ""

def scalarQuoted : Datum → String
  | .null => "None"
  | .bool true => "True"
  | .bool false => "False"
  | .int value => integerText value
  | .float value => value.text numberTexts
  | .str text => Text.quoted text
  | .bytes content => Text.quotedBytes content
  | .buffer content => "bytearray(" ++ Text.quotedBytes content ++ ")"
  | .decimal value => "Decimal('" ++ value.text ++ "')"
  | .uuid value => "UUID('" ++ uuidText value ++ "')"
  | .date value => "datetime.date(" ++ argumentsText [value.year, value.month, value.day] ++ ")"
  | .time value offset =>
    "datetime.time(" ++ argumentsText (timeArguments value) ++ zoneArgument offset ++ ")"
  | .dateTime value =>
    "datetime.datetime("
      ++ argumentsText ([value.date.year, value.date.month, value.date.day] ++
        timeArguments value.time)
      ++ zoneArgument value.offset ++ ")"
  | _ => ""

mutual

def quoted : Datum → String
  | .list items => "[" ++ String.intercalate ", " (quotedItems items) ++ "]"
  | .tuple [item] => "(" ++ quoted item ++ ",)"
  | .tuple items => "(" ++ String.intercalate ", " (quotedItems items) ++ ")"
  | .dict entries => "\x7b" ++ String.intercalate ", " (quotedEntries entries) ++ "\x7d"
  | scalar => scalarQuoted scalar

def quotedItems : List Datum → List String
  | [] => []
  | item :: rest => quoted item :: quotedItems rest

def quotedEntries : List (Datum × Datum) → List String
  | [] => []
  | (key, value) :: rest => (quoted key ++ ": " ++ quoted value) :: quotedEntries rest

end

/-! ### Values that have a text -/

/-- Integers with more digits than this have no text. -/
def digitLimit : Nat := 4300

mutual

/-- Whether all parts of a value that have no parts themselves pass a test. -/
def allLeaves (test : Datum → Bool) : Datum → Bool
  | .list items => allItemLeaves test items
  | .tuple items => allItemLeaves test items
  | .dict entries => allEntryLeaves test entries
  | leaf => test leaf

def allItemLeaves (test : Datum → Bool) : List Datum → Bool
  | [] => true
  | item :: rest => allLeaves test item && allItemLeaves test rest

def allEntryLeaves (test : Datum → Bool) : List (Datum × Datum) → Bool
  | [] => true
  | (key, value) :: rest => allLeaves test key && allLeaves test value && allEntryLeaves test rest

end

def isShortInteger : Datum → Bool
  | .int value => (Nat.toDigits 10 value.natAbs).length ≤ digitLimit
  | _ => true

def isPrintable (datum : Datum) : Bool := datum.allLeaves isShortInteger

def text : Datum → String
  | .str text => text
  | .decimal value => value.text
  | .uuid value => uuidText value
  | .date value => value.text
  | .time value offset => value.text ++ offset.elim "" Calendar.offsetText
  | .dateTime value => value.text " "
  | other => other.quoted

end Avro.Datum

namespace Avro.Json

def displayed (document : Json) : String := (Datum.ofJson document).text

def isPrintable (document : Json) : Bool := (Datum.ofJson document).isPrintable

end Avro.Json
