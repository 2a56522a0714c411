import Avro.Number.Shortest

/-!
Contract: dates, times of day and instants.

Owns: the proleptic Gregorian calendar between the years 1 and 9999, the numbering of its days,
times of day to the microsecond, spans of time, and instants counted from the start of 1970.
-/

namespace Avro

structure Date where
  year : Nat
  month : Nat
  day : Nat
deriving DecidableEq, Repr, Inhabited

structure TimeOfDay where
  hour : Nat
  minute : Nat
  second : Nat
  microsecond : Nat
deriving DecidableEq, Repr, Inhabited

/-- A date with a time of day; `offset` counts the seconds east of universal time, if known. -/
structure DateTime where
  date : Date
  time : TimeOfDay
  offset : Option Int
deriving DecidableEq, Repr, Inhabited

namespace Calendar

def isLeap (year : Nat) : Bool := year % 4 == 0 && (year % 100 != 0 || year % 400 == 0)

def daysInMonth (year month : Nat) : Nat :=
  if month = 2 then (if isLeap year then 29 else 28)
  else if month = 4 || month = 6 || month = 9 || month = 11 then 30 else 31

def daysBeforeMonth (year month : Nat) : Nat :=
  (List.range (month - 1)).foldl (fun days index => days + daysInMonth year (index + 1)) 0

/-- Days that precede a year, counted from the first day of the year 1. -/
def daysBeforeYear (year : Nat) : Nat :=
  let past := year - 1
  past * 365 + past / 4 - past / 100 + past / 400

def lastOrdinal : Nat := 3652059

def epochOrdinal : Int := 719163

/-- The month that holds the day `remaining` days into the year, and the day within it. -/
def splitMonth (year : Nat) (remaining : Nat) (month : Nat) : Nat → Nat × Nat
  | 0 => (month, remaining + 1)
  | fuel + 1 =>
    if remaining < daysInMonth year month then (month, remaining + 1)
    else splitMonth year (remaining - daysInMonth year month) (month + 1) fuel

def secondsPerDay : Int := 86400

def microsPerSecond : Int := 1000000

def padded (width value : Nat) : String :=
  let digits := Nat.toDigits 10 value
  String.ofList (List.replicate (width - digits.length) '0' ++ digits)

/-- The sign, hours and minutes of an offset, with seconds if there are any. -/
def offsetText (offset : Int) : String :=
  let size := offset.natAbs
  (if offset < 0 then "-" else "+") ++ padded 2 (size / 3600) ++ ":" ++ padded 2 (size / 60 % 60)
    ++ (if size % 60 = 0 then "" else ":" ++ padded 2 (size % 60))

end Calendar

open Calendar

namespace Date

def isReal (date : Date) : Bool :=
  1 ≤ date.year && date.year ≤ 9999 && 1 ≤ date.month && date.month ≤ 12
    && 1 ≤ date.day && date.day ≤ daysInMonth date.year date.month

/-- The number of a day; the first day of the year 1 has number 1. -/
def toOrdinal (date : Date) : Nat :=
  daysBeforeYear date.year + daysBeforeMonth date.year date.month + date.day

/-- The year that holds a day, found from the 400, 100, 4 and 1 year cycles. -/
def yearOfOrdinal (ordinal : Nat) : Nat :=
  let day := ordinal - 1
  let era := day / 146097
  let day := day % 146097
  let century := min (day / 36524) 3
  let day := day - century * 36524
  let cycle := day / 1461
  let day := day % 1461
  let single := min (day / 365) 3
  era * 400 + century * 100 + cycle * 4 + single + 1

/-- The date with a given number; the inverse of `toOrdinal` from 1 to `lastOrdinal`. -/
def ofOrdinal (ordinal : Nat) : Date :=
  let year := yearOfOrdinal ordinal
  let (month, day) := splitMonth year (ordinal - daysBeforeYear year - 1) 1 11
  ⟨year, month, day⟩

def daysSinceEpoch (date : Date) : Int := date.toOrdinal - epochOrdinal

def text (date : Date) : String :=
  padded 4 date.year ++ "-" ++ padded 2 date.month ++ "-" ++ padded 2 date.day

/-- The possible readings of a month of one or two digits at the front of a text, longest first. -/
def readMonth : List Char → List (Nat × List Char)
  | '1' :: '0' :: rest => [(10, rest), (1, '0' :: rest)]
  | '1' :: '1' :: rest => [(11, rest), (1, '1' :: rest)]
  | '1' :: '2' :: rest => [(12, rest), (1, '2' :: rest)]
  | '0' :: digit :: rest =>
    if '1' ≤ digit && digit ≤ '9' then [(digit.toNat - '0'.toNat, rest)] else []
  | digit :: rest => if '1' ≤ digit && digit ≤ '9' then [(digit.toNat - '0'.toNat, rest)] else []
  | [] => []

/-- The day that a whole text of one or two characters stands for; a blank may replace the first
digit. -/
def readDay : List Char → Option Nat
  | [digit] => if '1' ≤ digit && digit ≤ '9' then some (digit.toNat - '0'.toNat) else none
  | [ten, digit] =>
    let unit := digit.toNat - '0'.toNat
    if !('0' ≤ digit && digit ≤ '9') then none
    else if ten == '0' || ten == ' ' then (if unit = 0 then none else some unit)
    else if ten == '1' then some (10 + unit)
    else if ten == '2' then some (20 + unit)
    else if ten == '3' then (if unit ≤ 1 then some (30 + unit) else none)
    else none
  | _ => none

/-- The date that a text stands for: a year of four digits, then month and day of one or two. -/
def parse? (text : String) : Option Date :=
  match text.toList with
  | a :: b :: c :: d :: '-' :: rest =>
    if [a, b, c, d].all fun digit => '0' ≤ digit && digit ≤ '9' then
      let year := [a, b, c, d].foldl (fun value digit => value * 10 + (digit.toNat - '0'.toNat)) 0
      (readMonth rest).findSome? fun (month, tail) =>
        match tail with
        | '-' :: days =>
          match readDay days with
          | some day => if (Date.mk year month day).isReal then some ⟨year, month, day⟩ else none
          | none => none
        | _ => none
    else none
  | _ => none

end Date

namespace TimeOfDay

def seconds (time : TimeOfDay) : Nat := (time.hour * 60 + time.minute) * 60 + time.second

def ofMicros (micros : Nat) : TimeOfDay :=
  ⟨micros / 3600000000, micros / 60000000 % 60, micros / 1000000 % 60, micros % 1000000⟩

/-- Hours, minutes and seconds, with a fraction of six digits if there is one. -/
def text (time : TimeOfDay) : String :=
  padded 2 time.hour ++ ":" ++ padded 2 time.minute ++ ":" ++ padded 2 time.second
    ++ (if time.microsecond = 0 then "" else "." ++ padded 6 time.microsecond)

end TimeOfDay

/-- A span of time: days, which may be negative, and then seconds of a day and microseconds of a
second. -/
structure TimeSpan where
  days : Int
  seconds : Nat
  microseconds : Nat
deriving DecidableEq, Repr, Inhabited

/-- The span of the given days, seconds and microseconds, of which there may be any number. -/
def TimeSpan.ofParts (days seconds microseconds : Int) : TimeSpan :=
  let whole := seconds + Int.fdiv microseconds microsPerSecond
  ⟨days + Int.fdiv whole secondsPerDay, (Int.fmod whole secondsPerDay).toNat,
    (Int.fmod microseconds microsPerSecond).toNat⟩

namespace DateTime

/-- The span from the start of 1970 in universal time to a moment that is `offset` seconds ahead of
it. -/
def sinceEpoch (moment : DateTime) (offset : Int) : TimeSpan :=
  .ofParts moment.date.daysSinceEpoch (moment.time.seconds - offset) moment.time.microsecond

/-- Whole seconds from the start of 1970 to a moment of the local clock, which shows universal
time. -/
def localSeconds (moment : DateTime) : Int :=
  moment.date.daysSinceEpoch * secondsPerDay + moment.time.seconds

/-- The instant `micros` microseconds from the start of 1970, in universal time, if it is in the
calendar. -/
def ofMicrosSinceEpoch? (micros : Int) : Option DateTime :=
  let perDay := secondsPerDay * microsPerSecond
  let ordinal := Int.fdiv micros perDay + epochOrdinal
  if 1 ≤ ordinal && ordinal ≤ lastOrdinal then
    some ⟨Date.ofOrdinal ordinal.toNat, TimeOfDay.ofMicros (Int.fmod micros perDay).toNat, some 0⟩
  else none

/-- Date and time around a separator, followed by the offset if there is one. -/
def text (separator : String) (moment : DateTime) : String :=
  moment.date.text ++ separator ++ moment.time.text ++ moment.offset.elim "" offsetText

end DateTime

end Avro
