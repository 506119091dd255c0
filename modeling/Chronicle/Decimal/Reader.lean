import Chronicle.Text.Digits

/-!
# Doubles from decimal text

`read?` accepts digits with an optional sign, point and exponent, and the words `inf`, `infinity` and `nan` in any case,
and gives the nearest double. Digits may be missing on one side of the point. A number too large is infinite. The parts
of such a text, `splitSign` and `numeral?`, do not depend on what kind of number it is read as.
-/

namespace Chronicle.Decimal

open Text (isDigit value natural? integer? lowerAscii)

/-- The double nearest to `m · 10 ^ e`. The magnitude is looked at first, so that no huge power is computed. -/
def nearest (m : Nat) (e : Int) : Float :=
  if m = 0 then 0
  else
    let magnitude := e + (Text.digits m).length
    if 310 < magnitude then 1 / 0
    else if magnitude < -330 then 0
    else Float.ofScientific m (e < 0) e.natAbs

/-- A numeral without its sign: the number that its digits make, how many of them follow the point, and the exponent. -/
structure Numeral where
  digits : Nat
  places : Nat
  exponent : Int
deriving DecidableEq, Repr

/-- The numeral of a text: digits around a point or without one, and an exponent if there is an `e`. -/
def numeral? (s : List Char) : Option Numeral := do
  let (mantissa, tail) := s.span fun c => c ≠ 'e' && c ≠ 'E'
  let (whole, rest) := mantissa.span (· ≠ '.')
  let fraction := rest.drop 1
  let exponent ← match tail with
    | [] => some 0
    | _ :: digits => integer? digits
  let digits ← natural? (whole ++ fraction)
  return ⟨digits, fraction.length, exponent⟩

/-- A number without its sign. -/
def readUnsigned? (s : List Char) : Option Float :=
  (numeral? s).map fun n => nearest n.digits (n.exponent - n.places)

/-- One of the words for a double that is no real number. -/
def readWord? (s : List Char) : Option Float :=
  let w := String.ofList (s.map lowerAscii)
  if w = "inf" ∨ w = "infinity" then some (1 / 0)
  else if w = "nan" then some (0 / 0)
  else none

/-- Whether a text starts with a minus sign, and the text without its sign. -/
def splitSign : List Char → Bool × List Char
  | '-' :: s => (true, s)
  | '+' :: s => (false, s)
  | s => (false, s)

/-- The double that a text stands for. -/
def read? (s : List Char) : Option Float :=
  let (negative, s) := splitSign s
  ((readWord? s).or (readUnsigned? s)).map fun x => if negative then -x else x

end Chronicle.Decimal
