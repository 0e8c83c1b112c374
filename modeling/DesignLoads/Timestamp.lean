import DesignLoads.Decimal.Basic
import DesignLoads.Json.Source
import DesignLoads.Unicode.WhiteSpace

/-! Points in time: dates of the Gregorian calendar with a time of day in UTC, their text after
RFC 3339, and the reading of such texts, which may be written a little more freely. -/

namespace DesignLoads

def isLeapYear (year : Int) : Bool := year % 4 = 0 && (year % 100 ≠ 0 || year % 400 = 0)

def daysInMonth (year : Int) (month : Nat) : Nat :=
  if month = 2 then if isLeapYear year then 29 else 28
  else if month = 4 ∨ month = 6 ∨ month = 9 ∨ month = 11 then 30
  else 31

structure Date where
  year : Int
  month : Nat
  day : Nat
deriving DecidableEq

namespace Date

/-- Whether there is such a day, within the years that are told apart. -/
def isValid (d : Date) : Bool :=
  -262143 ≤ d.year && d.year ≤ 262142 && 1 ≤ d.month && d.month ≤ 12 && 1 ≤ d.day &&
    d.day ≤ daysInMonth d.year d.month

def next (d : Date) : Date :=
  if d.day < daysInMonth d.year d.month then { d with day := d.day + 1 }
  else if d.month < 12 then ⟨d.year, d.month + 1, 1⟩
  else ⟨d.year + 1, 1, 1⟩

def previous (d : Date) : Date :=
  if 1 < d.day then { d with day := d.day - 1 }
  else if 1 < d.month then ⟨d.year, d.month - 1, daysInMonth d.year (d.month - 1)⟩
  else ⟨d.year - 1, 12, 31⟩

end Date

/-- A point in time. Second 60 is a leap second. -/
structure Timestamp where
  date : Date
  hour : Nat
  minute : Nat
  second : Nat
  nanosecond : Nat
deriving DecidableEq

namespace Timestamp

def epoch : Timestamp := ⟨⟨1970, 1, 1⟩, 0, 0, 0, 0⟩

instance : Inhabited Timestamp := ⟨epoch⟩

def isValid (t : Timestamp) : Bool :=
  t.date.isValid && t.hour < 24 && t.minute < 60 && t.second ≤ 60 && t.nanosecond < 1000000000

/-! ### Text -/

def padded (width n : Nat) : List Char :=
  let ds := Nat.toDigits 10 n
  List.replicate (width - ds.length) '0' ++ ds

/-- A year has four digits; one before 0 or after 9999 has a sign and may have more. -/
def yearChars (year : Int) : List Char :=
  if year < 0 then '-' :: padded 4 year.natAbs
  else if 9999 < year then '+' :: padded 4 year.natAbs
  else padded 4 year.natAbs

/-- A fraction of a second with three, six or nine digits, as few as it takes. -/
def fractionChars (nanosecond : Nat) : List Char :=
  if nanosecond = 0 then []
  else if nanosecond % 1000000 = 0 then '.' :: padded 3 (nanosecond / 1000000)
  else if nanosecond % 1000 = 0 then '.' :: padded 6 (nanosecond / 1000)
  else '.' :: padded 9 nanosecond

def chars (t : Timestamp) : List Char :=
  yearChars t.date.year ++ '-' :: padded 2 t.date.month ++ '-' :: padded 2 t.date.day ++
    'T' :: padded 2 t.hour ++ ':' :: padded 2 t.minute ++ ':' :: padded 2 t.second ++
    fractionChars t.nanosecond ++ ['Z']

def text (t : Timestamp) : String := String.ofList t.chars

/-! ### Reading -/

/-- A number with one digit to `width` digits, after any white space, and the rest. -/
def field? (width : Nat) (cs : List Char) : Option (Nat × List Char) :=
  let r := Unicode.trimStart cs
  let ds := (r.takeWhile Char.isDigit).take width
  if ds.isEmpty then none else some (Decimal.ofDigits ds, r.drop ds.length)

/-- A year; one with a sign may have any number of digits. -/
def year? (cs : List Char) : Option (Int × List Char) :=
  match Unicode.trimStart cs with
  | '-' :: r => (digits? r).map fun (n, rest) => (-(n : Int), rest)
  | '+' :: r => (digits? r).map fun (n, rest) => ((n : Int), rest)
  | r => (field? 4 r).map fun (n, rest) => ((n : Int), rest)
where
  digits? (r : List Char) : Option (Nat × List Char) :=
    match Decimal.spanDigits r with
    | ([], _) => none
    | (ds, rest) => some (Decimal.ofDigits ds, rest)

/-- A text after any white space and a character. -/
def skip? (c : Char) (cs : List Char) : Option (List Char) :=
  match Unicode.trimStart cs with
  | d :: r => if d = c then some r else none
  | [] => none

def date? (cs : List Char) : Option (Date × List Char) := do
  let (year, r) ← year? cs
  let r ← skip? '-' r
  let (month, r) ← field? 2 r
  let r ← skip? '-' r
  let (day, r) ← field? 2 r
  return (⟨year, month, day⟩, r)

/-- A fraction of a second in nanoseconds; what is smaller is left out. -/
def fraction? : List Char → Option (Nat × List Char)
  | '.' :: cs =>
    match Decimal.spanDigits cs with
    | ([], _) => none
    | (ds, rest) => some (Decimal.ofDigits ((ds ++ List.replicate 9 '0').take 9), rest)
  | cs => some (0, cs)

def offset? (cs : List Char) : Option (Int × List Char) :=
  match cs with
  | 'Z' :: r => some (0, r)
  | 'z' :: r => some (0, r)
  | '+' :: r => minutes? r
  | '-' :: r => (minutes? r).map fun (m, rest) => (-m, rest)
  | '−' :: r => (minutes? r).map fun (m, rest) => (-m, rest)
  | u :: t :: c :: r =>
    if [u, t, c].map Char.toUpper = ['U', 'T', 'C'] then some (0, r) else none
  | _ => none
where
  minutes? (cs : List Char) : Option (Int × List Char) :=
    match cs with
    | h₁ :: h₂ :: r =>
      match r.dropWhile fun c => c = ':' || Unicode.isWhiteSpace c with
      | m₁ :: m₂ :: rest =>
        let hours := Decimal.ofDigits [h₁, h₂]
        let minutes := Decimal.ofDigits [m₁, m₂]
        if [h₁, h₂, m₁, m₂].all Char.isDigit && hours < 24 && minutes < 60 then
          some (hours * 60 + minutes, rest)
        else none
      | _ => none
    | _ => none

/-- The time in UTC when local time is `minutes` ahead of it. -/
def toUtc (t : Timestamp) (minutes : Int) : Timestamp :=
  let m := (t.hour * 60 + t.minute : Nat) - minutes
  let date := if m < 0 then t.date.previous else if 1440 ≤ m then t.date.next else t.date
  { t with date, hour := (m % 1440).toNat / 60, minute := (m % 1440).toNat % 60 }

/-- Reads a date and a time with its distance from UTC. -/
def parse? (text : String) : Option Timestamp := do
  let (date, r) ← date? text.toList
  let r ← match r with
    | c :: r => if c = 'T' ∨ c = 't' ∨ c = ' ' then some r else none
    | [] => none
  let (hour, r) ← field? 2 r
  let r ← skip? ':' r
  let (minute, r) ← field? 2 r
  let r ← skip? ':' r
  let (second, r) ← field? 2 r
  let (nanosecond, r) ← fraction? r
  let (offset, r) ← offset? (Unicode.trimStart r)
  let t : Timestamp := ⟨date, hour, minute, second, nanosecond⟩
  let utc := t.toUtc offset
  if (Unicode.trimStart r).isEmpty && t.isValid && utc.isValid then some utc else none

end Timestamp

instance : Json.Form Timestamp where
  toJson t := .string t.text
  ofSource? _ s := s.string?.bind Timestamp.parse?

end DesignLoads
