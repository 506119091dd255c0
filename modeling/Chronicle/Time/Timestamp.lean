import Chronicle.Text.Digits
import Chronicle.Time.Date

/-!
# Timestamps

An instant together with the offset of the clock that showed it. A leap second is the second before it with a
nanosecond part of a whole second or more, so that it keeps its place in the order of instants.
-/

namespace Chronicle

open Text (digits padded)

/-- An instant, as seconds since 1970-01-01 in UTC and nanoseconds within them, and an offset east of UTC in seconds,
of less than a day. -/
structure Timestamp where
  secs : Int
  nanos : Nat
  offset : Int
  nanos_lt : nanos < 2000000000
  neg_lt_offset : -86400 < offset
  offset_lt : offset < 86400
deriving DecidableEq, Repr

namespace Timestamp

/-- A timestamp, if its parts are in range. -/
def ofParts? (secs : Int) (nanos : Nat) (offset : Int) : Option Timestamp :=
  if h : nanos < 2000000000 ∧ -86400 < offset ∧ offset < 86400 then
    some ⟨secs, nanos, offset, h.1, h.2.1, h.2.2⟩
  else none

/-- The same instant, shown by a clock in UTC. -/
def toUtc (t : Timestamp) : Timestamp :=
  { t with offset := 0, neg_lt_offset := by decide, offset_lt := by decide }

/-- Whether two timestamps are the same instant, whatever their offsets. -/
def sameInstant (a b : Timestamp) : Bool := a.secs == b.secs && a.nanos == b.nanos

/-- The milliseconds since 1970-01-01 in UTC. Those of a leap second count from the second before it. -/
def millis (t : Timestamp) : Int := t.secs * 1000 + (t.nanos / 1000000 : Nat)

/-- Seconds since 1970-01-01 as the clock shows them. -/
def localSecs (t : Timestamp) : Int := t.secs + t.offset

/-- The date that the clock shows. -/
def date (t : Timestamp) : Date := Date.ofDays (t.localSecs / 86400)

/-- A time of day as a clock shows it; `second` is 60 in a leap second. -/
structure Clock where
  hour : Nat
  minute : Nat
  second : Nat
  nanos : Nat
deriving DecidableEq, Repr

/-- The time of day that the clock shows. -/
def clock (t : Timestamp) : Clock :=
  let n := (t.localSecs % 86400).toNat
  ⟨n / 3600, n / 60 % 60, n % 60 + t.nanos / 1000000000, t.nanos % 1000000000⟩

end Timestamp

/-- Four digits for the years from 0 to 9999, and a sign and at least four digits for others. -/
def Date.yearText (year : Int) : List Char :=
  if 0 ≤ year ∧ year ≤ 9999 then padded 4 year.natAbs
  else (if year < 0 then '-' else '+') :: padded 4 year.natAbs

/-- A date as `YYYY-MM-DD`. -/
def Date.text (d : Date) : List Char :=
  Date.yearText d.year ++ '-' :: padded 2 d.month ++ '-' :: padded 2 d.day

namespace Timestamp

/-- A time of day as `HH:MM:SS`. -/
def Clock.text (c : Clock) : List Char :=
  padded 2 c.hour ++ ':' :: padded 2 c.minute ++ ':' :: padded 2 c.second

/-- The fraction of a second in as many groups of three digits as it needs. -/
def fractionText (nanos : Nat) : List Char :=
  if nanos = 0 then []
  else if nanos % 1000000 = 0 then '.' :: padded 3 (nanos / 1000000)
  else if nanos % 1000 = 0 then '.' :: padded 6 (nanos / 1000)
  else '.' :: padded 9 nanos

/-- An offset as `+HH:MM`, with its seconds if it has any. -/
def offsetText (offset : Int) : List Char :=
  let n := offset.natAbs
  (if offset < 0 then '-' else '+') :: (padded 2 (n / 3600) ++ ':' :: padded 2 (n / 60 % 60))
    ++ (if n % 60 = 0 then [] else ':' :: padded 2 (n % 60))

/-- A timestamp as `YYYY-MM-DD HH:MM:SS +HH:MM`, with a fraction if it has one. -/
def text (t : Timestamp) : String :=
  String.ofList (t.date.text ++ ' ' :: t.clock.text ++ fractionText t.clock.nanos ++ ' ' :: offsetText t.offset)

end Timestamp

end Chronicle
