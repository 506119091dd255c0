import Chronicle.Time.Rfc3339.Reader

/-!
# Dates in extended JSON text

A date may be written as RFC 3339 text. It is read more freely than the time of an event in that any ASCII character may
separate date and time, and more strictly in that second 60 stands only for the last second of a month in UTC, of which
it becomes the last nanosecond. What is finer than a millisecond is cut off.
-/

namespace Chronicle.Bson

open Text (isDigit digitValue value)
open Timestamp (readNumber readSeparator)

/-- Reads a date and a time of day up to the seconds: the date, hour, minute and second. -/
def readCivil (s : List Char) : Except Timestamp.ReadError ((Date × Nat × Nat × Nat) × List Char) := do
  let (year, s) ← readNumber 4 s
  let s ← readSeparator (· = '-') s
  let (month, s) ← readNumber 2 s
  let s ← readSeparator (· = '-') s
  let (day, s) ← readNumber 2 s
  let s ← readSeparator (·.toNat < 128) s
  let (hour, s) ← readNumber 2 s
  let s ← readSeparator (· = ':') s
  let (minute, s) ← readNumber 2 s
  let s ← readSeparator (· = ':') s
  let (second, s) ← readNumber 2 s
  return ((⟨year, month, day⟩, hour, minute, second), s)

/-- Reads an offset in seconds. -/
def readOffset (s : List Char) : Except Timestamp.ReadError (Int × List Char) := do
  match s with
  | [] => .error .tooShort
  | c :: s =>
    if c = 'Z' ∨ c = 'z' then return (0, s)
    if c ≠ '+' ∧ c ≠ '-' then .error .invalid
    let (hours, s) ← readNumber 2 s
    let s ← readSeparator (· = ':') s
    let (minutes, s) ← readNumber 2 s
    if 23 < hours ∨ 59 < minutes then .error .outOfRange
    let n : Int := hours * 3600 + minutes * 60
    return (if c = '-' then -n else n, s)

/-- Whether the second before midnight UTC at the end of a month starts at these seconds since 1970. -/
def endsMonth (secs : Int) : Bool :=
  secs % 86400 = 86399 && (Date.ofDays (secs / 86400 + 1)).day = 1

/-- The milliseconds since 1970 that a date text stands for. -/
def readDateText (s : List Char) : Except Timestamp.ReadError Int := do
  let ((day, hour, minute, second), s) ← readCivil s
  let (nanos, s) ← Timestamp.readFraction s
  let (offset, s) ← readOffset s
  if !s.isEmpty then .error .tooLong
  if !day.isValid then .error .outOfRange
  let leap := second = 60
  let (second, nanos) := if leap then (59, 999999999) else (second, nanos)
  if 23 < hour ∨ 59 < minute ∨ 59 < second then .error .outOfRange
  let secs : Int := day.toDays * 86400 + (hour * 3600 + minute * 60 + second : Nat) - offset
  if leap ∧ !endsMonth secs then .error .outOfRange
  return (secs * 1000000000 + nanos).tdiv 1000000

/-- The milliseconds since 1970 of a date text, if it is one. -/
def dateOfText? (s : String) : Option Int64 :=
  (readDateText s.toList).toOption.map Int64.ofInt

end Chronicle.Bson
