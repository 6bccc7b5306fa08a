import Mathlib.Tactic.Common
import Nefor.Json.Value

/-! The timestamps of envelopes, and their text. -/
namespace Nefor.Protocol

def isLeapYear (year : Int) : Bool := year % 4 = 0 ∧ (year % 100 ≠ 0 ∨ year % 400 = 0)

def daysInMonth (year : Int) : Nat → Nat
  | 2 => if isLeapYear year then 29 else 28
  | 4 | 6 | 9 | 11 => 30
  | _ => 31

/-- A date and a time of day at an offset from UTC, in seconds. -/
structure OffsetDateTime where
  year : Int
  month : Nat
  day : Nat
  hour : Nat
  minute : Nat
  second : Nat
  nanosecond : Nat
  offset : Int
  year_range : -9999 ≤ year ∧ year ≤ 9999
  month_range : 1 ≤ month ∧ month ≤ 12
  day_range : 1 ≤ day ∧ day ≤ daysInMonth year month
  time_range : hour < 24 ∧ minute < 60 ∧ second < 60 ∧ nanosecond < 1000000000
  offset_range : -93600 < offset ∧ offset < 93600
  deriving DecidableEq, Repr

namespace OffsetDateTime

/-- Days since the first of January of the year zero. -/
def days (dt : OffsetDateTime) : Int :=
  365 * dt.year + (dt.year + 3) / 4 - (dt.year + 99) / 100 + (dt.year + 399) / 400 +
    ((List.range (dt.month - 1)).map fun m => (daysInMonth dt.year (m + 1) : Int)).sum + (dt.day - 1)

/-- The second of the instant, by the clock of UTC. -/
def seconds (dt : OffsetDateTime) : Int :=
  ((dt.days * 24 + dt.hour) * 60 + dt.minute) * 60 + dt.second - dt.offset

/-- `a == b`: two dates are equal when they are the same instant. -/
def eq (a b : OffsetDateTime) : Prop := a.seconds = b.seconds ∧ a.nanosecond = b.nanosecond

def replaceNanosecond (dt : OffsetDateTime) (nanosecond : Nat) (h : nanosecond < 1000000000) :
    OffsetDateTime :=
  { dt with
    nanosecond := nanosecond
    time_range := ⟨dt.time_range.1,dt.time_range.2.1,dt.time_range.2.2.1,h⟩ }

theorem utc_range : -93600 < (0 : Int) ∧ (0 : Int) < 93600 := by decide

/-- The same date and time of day, at UTC. -/
def assumeUtc (dt : OffsetDateTime) : OffsetDateTime :=
  { dt with offset := 0, offset_range := utc_range }

end OffsetDateTime

/-- A stamp of millisecond precision. -/
structure Timestamp where
  dt : OffsetDateTime
  millisecond : dt.nanosecond % 1000000 = 0
  deriving DecidableEq, Repr

/-- The number in decimal, filled up with zeros to a width. -/
def pad : Nat → Nat → List Char
  | 0, n => if n = 0 then [] else Nat.toDigits 10 n
  | width + 1, n => pad width (n / 10) ++ [Nat.digitChar (n % 10)]

/-- A year takes four places, its sign among them. -/
def padYear (year : Int) : List Char :=
  if year < 0 then '-' :: pad 3 year.natAbs else pad 4 year.natAbs

/-- The components as they stand, with the mark of UTC. -/
def isoText (dt : OffsetDateTime) : List Char :=
  padYear dt.year ++ '-' :: pad 2 dt.month ++ '-' :: pad 2 dt.day ++ 'T' :: pad 2 dt.hour ++
    ':' :: pad 2 dt.minute ++ ':' :: pad 2 dt.second ++ '.' :: pad 3 (dt.nanosecond / 1000000) ++ ['Z']

/-- What is not in the program: how doubles are printed, documents and dates read, a date moved to
UTC, and a version checked. -/
structure World where
  float : F64 → String
  read : String → Except String Json
  dateTime : String → Except String OffsetDateTime
  toUtc : OffsetDateTime → OffsetDateTime
  semver : String → Bool

namespace Timestamp

def fromOffset (dt : OffsetDateTime) : Timestamp where
  dt := dt.replaceNanosecond (dt.nanosecond / 1000000 * 1000000)
    (lt_of_le_of_lt (Nat.div_mul_le_self _ _) dt.time_range.2.2.2)
  millisecond := Nat.mul_mod_left _ _

def parse (w : World) (s : String) : Except String Timestamp :=
  match w.dateTime s with
  | .error e => .error e
  | .ok dt => .ok (fromOffset (w.toUtc dt))

def toIso8601 (t : Timestamp) : String := String.ofList (isoText t.dt)

def eq (a b : Timestamp) : Prop := a.dt.eq b.dt

end Timestamp
end Nefor.Protocol
