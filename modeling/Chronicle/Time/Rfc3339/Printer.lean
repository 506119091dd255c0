import Chronicle.Time.Timestamp

/-!
# Writing RFC 3339

`Timestamp.rfc3339` keeps the offset of the timestamp. The number of fraction digits is fixed, so that the texts of one
offset sort like the instants. An offset of no whole minute is rounded to the nearest one.
-/

namespace Chronicle.Timestamp

open Text (padded)

/-- How many fraction digits a second is written with. -/
inductive Precision where
  | millis
  | nanos
deriving DecidableEq, Repr

/-- The point and the fraction digits. -/
def Precision.text (p : Precision) (fraction : Nat) : List Char :=
  match p with
  | .millis => '.' :: padded 3 (fraction / 1000000)
  | .nanos => '.' :: padded 9 fraction

/-- `Z` for UTC, and `+HH:MM`, rounded to the nearest minute, for other offsets. -/
def zoneText (offset : Int) : List Char :=
  if offset = 0 then ['Z']
  else
    let minutes := (offset.natAbs + 30) / 60
    (if offset < 0 then '-' else '+') :: (padded 2 (minutes / 60) ++ ':' :: padded 2 (minutes % 60))

/-- The text of a timestamp, as characters. -/
def rfc3339Chars (p : Precision) (t : Timestamp) : List Char :=
  t.date.text ++ 'T' :: t.clock.text ++ p.text t.clock.nanos ++ zoneText t.offset

/-- A timestamp as `YYYY-MM-DDTHH:MM:SS`, a fraction and an offset. -/
def rfc3339 (p : Precision) (t : Timestamp) : String := String.ofList (t.rfc3339Chars p)

end Chronicle.Timestamp
