import LeasedWork.Json.Fields
import LeasedWork.Text.Blank
import LeasedWork.Time.Calendar
import LeasedWork.Time.Instant

/-!
# Timestamps

An instant is written as a date and a time of day in UTC, `2024-05-01T12:00:00.250Z`, with as few
groups of three fraction digits as are exact and a sign before years of more than four digits and
before negative ones.

Reading is lenient about blanks, about the number of digits and about the letter between date and
time, and takes any offset of less than a day. A second of 60 is a leap second.
-/

namespace LeasedWork.Timestamp

open Decimal (isDigit digitValue padded)

/-! ## Writing -/

/-- A year of four digits, or a signed one of at least four. -/
def yearChars (y : Int) : List Char :=
  if 0 ≤ y ∧ y ≤ 9999 then padded 4 y.toNat
  else (if y < 0 then '-' else '+') :: padded 4 y.natAbs

/-- The fraction of a second in no, three, six or nine digits. -/
def fractionChars (nano : Nat) : List Char :=
  if nano = 0 then []
  else if nano % nanosPerMilli = 0 then '.' :: padded 3 (nano / nanosPerMilli)
  else if nano % nanosPerMicro = 0 then '.' :: padded 6 (nano / nanosPerMicro)
  else '.' :: padded 9 nano

def dateChars (d : Date) : List Char :=
  yearChars d.year ++ '-' :: (padded 2 d.month ++ '-' :: padded 2 d.day)

/-- The time of day, `second` seconds after midnight. Inside a leap second the second is 60. -/
def timeChars (second nano : Nat) : List Char :=
  let shown := second % 60 + nano / nanosPerSecond
  padded 2 (second / 3600) ++ ':' :: (padded 2 (second / 60 % 60) ++ ':' :: padded 2 shown)
    ++ fractionChars (nano % nanosPerSecond)

def chars (t : Instant) : List Char :=
  dateChars (Date.ofNumber (t.second / secondsPerDay + Calendar.epochDay))
    ++ 'T' :: (timeChars (t.second % secondsPerDay).toNat t.nano ++ ['Z'])

def text (t : Instant) : String := String.ofList (chars t)

/-- An instant in words: its date, its time of day and the name of the zone. -/
def spacedText (t : Instant) : String :=
  String.ofList (((chars t).map fun c => if c = 'T' then ' ' else c).dropLast ++ " UTC".toList)

/-! ## Reading -/

/-- A reader that gives a value and the text after it. -/
abbrev Scan (α : Type) := List Char → Option (α × List Char)

/-- At least one digit and at most `most`, the rest being left. -/
def digits (most : Nat) : Scan (List Char) := fun cs =>
  let ds := (cs.takeWhile isDigit).take most
  if ds.isEmpty then none else some (ds, cs.drop ds.length)

/-- A number of at most `most` digits, blanks before it allowed. -/
def number (most : Nat) : Scan Nat := fun cs =>
  (digits most (Text.trimStart cs)).map fun (ds, rest) => (Decimal.value ds, rest)

/-- A year: at most four digits, or a sign and any number of them. -/
def year : Scan Int := fun cs =>
  match Text.trimStart cs with
  | '-' :: rest => (digits rest.length rest).map fun (ds, rest) => (-(Decimal.value ds : Int), rest)
  | '+' :: rest => (digits rest.length rest).map fun (ds, rest) => ((Decimal.value ds : Int), rest)
  | rest => (digits 4 rest).map fun (ds, rest) => ((Decimal.value ds : Int), rest)

/-- One of the given characters. -/
def oneOf (allowed : List Char) : Scan Unit := fun cs =>
  match cs with
  | c :: rest => if c ∈ allowed then some ((), rest) else none
  | [] => none

/-- A separator, blanks before it allowed. -/
def separator (c : Char) : Scan Unit := fun cs => oneOf [c] (Text.trimStart cs)

/-- The fraction of a second in nanoseconds, zero when there is none. Digits beyond the ninth
are dropped. -/
def fraction : Scan Nat := fun cs =>
  match cs with
  | '.' :: rest =>
    (digits 9 rest).map fun (ds, left) =>
      (Decimal.value ds * Nat.pow 10 (9 - ds.length), left.dropWhile isDigit)
  | _ => some (0, cs)

/-- The hours of an offset, of two digits. -/
def offsetHours : Scan Nat := fun cs =>
  match cs with
  | a :: b :: rest =>
    if isDigit a && isDigit b then some (10 * digitValue a + digitValue b, rest) else none
  | _ => none

/-- The minutes of an offset, of two digits and below 60. -/
def offsetMinutes : Scan Nat := fun cs =>
  (offsetHours cs).bind fun (m, rest) => if m < 60 then some (m, rest) else none

/-- What follows the sign of an offset, in seconds. -/
def offsetBody : Scan Nat := fun cs => do
  let (hours, rest) ← offsetHours cs
  let (minutes, rest) ← offsetMinutes (rest.dropWhile fun c => c == ':' || Text.isBlank c)
  return (hours * 3600 + minutes * 60, rest)

/-- The offset from UTC in seconds: a letter Z, the word UTC, or a sign with hours and minutes. -/
def offset : Scan Int := fun cs =>
  if ((cs.take 3).map Char.toUpper) = ['U', 'T', 'C'] then some (0, cs.drop 3)
  else
    match cs with
    | 'Z' :: rest | 'z' :: rest => some (0, rest)
    | '+' :: rest => (offsetBody rest).map fun (n, rest) => ((n : Int), rest)
    | '-' :: rest | '−' :: rest => (offsetBody rest).map fun (n, rest) => (-(n : Int), rest)
    | _ => none

/-- The fields of a timestamp. -/
structure Fields where
  date : Date
  hour : Nat
  minute : Nat
  second : Nat
  nano : Nat
  offset : Int
  deriving DecidableEq, Repr

/-- The first and the last year of the range. -/
def yearRange : Int × Int := (-262143, 262142)

/-- The instant of fields that name a day of the calendar and a time of day. -/
def Fields.instant? (f : Fields) : Option Instant :=
  if f.date.exists? ∧ yearRange.1 ≤ f.date.year ∧ f.date.year ≤ yearRange.2
      ∧ f.hour ≤ 23 ∧ f.minute ≤ 59 ∧ f.second ≤ 60
      ∧ -(secondsPerDay : Int) < f.offset ∧ f.offset < secondsPerDay then
    let isLeap := f.second = 60
    let ofDay := f.hour * 3600 + f.minute * 60 + (if isLeap then 59 else f.second)
    Instant.ofParts?
      ((f.date.number - Calendar.epochDay) * secondsPerDay + ofDay - f.offset)
      (if isLeap then nanosPerSecond + f.nano else f.nano)
  else none

def date : Scan Date := fun cs => do
  let (y, cs) ← year cs
  let (_, cs) ← separator '-' cs
  let (m, cs) ← number 2 cs
  let (_, cs) ← separator '-' cs
  let (d, cs) ← number 2 cs
  return (⟨y, m, d⟩, cs)

def fields? (cs : List Char) : Option Fields := do
  let (d, cs) ← date cs
  let (_, cs) ← oneOf ['T', 't', ' '] cs
  let (hour, cs) ← number 2 cs
  let (_, cs) ← separator ':' cs
  let (minute, cs) ← number 2 cs
  let (_, cs) ← separator ':' cs
  let (second, cs) ← number 2 cs
  let (nano, cs) ← fraction cs
  let (shift, cs) ← offset (Text.trimStart cs)
  if cs.all Text.isBlank then return ⟨d, hour, minute, second, nano, shift⟩ else none

def ofChars? (cs : List Char) : Option Instant := (fields? cs).bind Fields.instant?

def ofString? (s : String) : Option Instant := ofChars? s.toList

/-! ## In JSON -/

def toJson (t : Instant) : Json := .text (text t)

def read : Json.Reads Instant
  | .text s => s.bind ofString?
  | _ => none

end LeasedWork.Timestamp
