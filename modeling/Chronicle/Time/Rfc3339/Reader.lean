import Chronicle.Text.Utf8
import Chronicle.Time.Timestamp

/-!
# Reading RFC 3339

`Timestamp.ofRfc3339` reads `YYYY-MM-DD`, a separator, `HH:MM:SS`, an optional fraction and an offset, in which two
errors in one text are decided from left to right: a date or a time of day that does not exist is refused as soon as it
has been read. A text of less than nineteen bytes cannot hold date and time and is refused before all else.

Second 60 is a leap second in any minute. Fraction digits after the ninth are dropped.
-/

namespace Chronicle.Timestamp

open Text (isDigit digitValue value width symbolsOf)

/-- Why a text is no timestamp. -/
inductive ReadError where
  | outOfRange
  | invalid
  | tooShort
  | tooLong
deriving DecidableEq, Repr

/-- What is wrong, in words. -/
def ReadError.message : ReadError → String
  | .outOfRange => "input is out of range"
  | .invalid => "input contains invalid characters"
  | .tooShort => "premature end of input"
  | .tooLong => "trailing input"

/-- Reads a value from the front of a text and gives back the rest. -/
abbrev Reading (α : Type) := List Char → Except ReadError (α × List Char)

/-- Reads exactly `n` digits. -/
def readDigits : (n : Nat) → Reading (List Char)
  | 0, s => .ok ([], s)
  | _ + 1, [] => .error .invalid
  | n + 1, c :: s => do
    if !isDigit c then .error .invalid
    let (ds, s) ← readDigits n s
    return (c :: ds, s)

/-- Reads a number of exactly `n` digits. -/
def readNumber (n : Nat) : Reading Nat := fun s => do
  let (ds, s) ← readDigits n s
  return (value ds, s)

/-- Reads one character that satisfies `p`. -/
def readSeparator (p : Char → Bool) : List Char → Except ReadError (List Char)
  | c :: s => if p c then .ok s else .error .invalid
  | [] => .error .invalid

/-- Reads a date that the calendar has. -/
def readDate : Reading Date := fun s => do
  let (year, s) ← readNumber 4 s
  let s ← readSeparator (· = '-') s
  let (month, s) ← readNumber 2 s
  let s ← readSeparator (· = '-') s
  let (day, s) ← readNumber 2 s
  let d : Date := ⟨year, month, day⟩
  if d.isValid then .ok (d, s) else .error .outOfRange

/-- Reads a fraction of a second, if a point starts one, in nanoseconds. -/
def readFraction : Reading Nat
  | '.' :: s =>
    match s with
    | [] => .error .tooShort
    | c :: _ =>
      if !isDigit c then .error .invalid
      else
        let ds := (s.takeWhile isDigit).take 9
        .ok (value ds * Nat.pow 10 (9 - ds.length), s.dropWhile isDigit)
  | s => .ok (0, s)

/-- Reads a time of day: the second of the day and the nanoseconds. -/
def readClock : Reading (Nat × Nat) := fun s => do
  let (hour, s) ← readNumber 2 s
  let s ← readSeparator (· = ':') s
  let (minute, s) ← readNumber 2 s
  let s ← readSeparator (· = ':') s
  let (second, s) ← readNumber 2 s
  let (nanos, s) ← readFraction s
  let (second, nanos) := if second = 60 then (59, nanos + 1000000000) else (second, nanos)
  if hour < 24 ∧ minute < 60 ∧ second < 60 then .ok ((hour * 3600 + minute * 60 + second, nanos), s)
  else .error .outOfRange

/-- The sign of an offset; the minus sign U+2212 is as good as a hyphen. -/
def readSign : Reading Bool
  | [] => .error .tooShort
  | c :: s =>
    if c = '+' then .ok (false, s)
    else if c = '-' ∨ c = '\u2212' then .ok (true, s)
    else .error .invalid

/-- Reads two digits of an offset. A text of fewer than two bytes is too short for them. -/
def readPair : Reading (Char × Char) := fun s =>
  if width (symbolsOf s) < 2 then .error .tooShort
  else match s with
    | a :: b :: s => if isDigit a && isDigit b then .ok ((a, b), s) else .error .invalid
    | _ => .error .invalid

/-- Reads an offset in seconds. -/
def readZone : Reading Int
  | 'Z' :: s => .ok (0, s)
  | 'z' :: s => .ok (0, s)
  | s => do
    let (negative, s) ← readSign s
    let ((a, b), s) ← readPair s
    match s with
    | [] => .error .tooShort
    | c :: s =>
      if c ≠ ':' then .error .invalid
      let ((d, e), s) ← readPair s
      if 6 ≤ digitValue d then .error .outOfRange
      let hours := 10 * digitValue a + digitValue b
      let minutes := 10 * digitValue d + digitValue e
      if 24 ≤ hours then .error .outOfRange
      let n : Int := hours * 3600 + minutes * 60
      return (if negative then -n else n, s)

/-- Reads one timestamp and nothing after it. -/
def readRfc3339 (s : List Char) : Except ReadError Timestamp := do
  if width (symbolsOf s) < 19 then .error .tooShort
  let (date, s) ← readDate s
  let s ← readSeparator (fun c => c = 'T' || c = 't' || c = ' ') s
  let ((second, nanos), s) ← readClock s
  let (offset, s) ← readZone s
  if !s.isEmpty then .error .tooLong
  match ofParts? (date.toDays * 86400 + second - offset) nanos offset with
  | some t => .ok t
  | none => .error .outOfRange

/-- The timestamp that a text stands for. -/
def ofRfc3339 (text : String) : Except ReadError Timestamp := readRfc3339 text.toList

end Chronicle.Timestamp
