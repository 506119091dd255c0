import Chronicle.Text.Digits

/-!
# The shortest decimal text of a double

`shortest` finds, among the decimal numbers that read back as a given finite double, one with the fewest digits, and
of those the nearest; an exact tie goes to the even last digit. A `Layout` says how its digits are laid out.

A double is decoded into `m · 2 ^ q`. The reals that round to it form an interval around it, whose ends belong to it
exactly if `m` is even. On the grid of `n`-digit decimals only the two neighbours of the double can lie in that
interval closest to it, so they are the only candidates for `n = 1, 2, …, 17`.
-/

namespace Chronicle.Decimal

open Text (digits digit)

/-! ## Decoding -/

/-- A finite double as `(-1) ^ negative · m · 2 ^ q`; `narrow` if the gap below it is half the gap above it. -/
structure Parts where
  negative : Bool
  m : Nat
  q : Int
  narrow : Bool
deriving DecidableEq, Repr

/-- The parts of a finite double. -/
def parts (x : Float) : Parts :=
  let bits := x.toBits.toNat
  let negative := 0x8000000000000000 ≤ bits
  let exponent : Nat := bits / 0x10000000000000 % 2048
  let fraction := bits % 0x10000000000000
  if exponent = 0 then ⟨negative, fraction, -1074, false⟩
  else ⟨negative, 0x10000000000000 + fraction, (exponent : Int) - 1075, fraction = 0 ∧ 1 < exponent⟩

/-! ## The fewest digits -/

/-- Decimal digits `d₁d₂…dₙ` that stand for `d₁.d₂…dₙ · 10 ^ exponent`. -/
structure Digits where
  digits : List Char
  exponent : Int
deriving DecidableEq, Repr

/-- The number of digits of a natural number, none for zero. -/
def places (n : Nat) : Nat := if n = 0 then 0 else (digits n).length

/-- The exponent of the greatest power of ten that is at most `num / den`, for positive `num` and `den`. -/
def magnitude (num den : Nat) : Int :=
  if den ≤ num then (places (num / den) : Int) - 1
  else -(places ((den + num - 1) / num - 1) : Int)

/-- `10 ^ e` for a non-negative exponent, and one for the others. -/
def powerOfTen (e : Int) : Nat := Nat.pow 10 e.toNat

/-- An interval of positive rationals with one denominator around a value; `closed` if the ends belong to it. -/
structure Interval where
  low : Nat
  value : Nat
  high : Nat
  den : Nat
  closed : Bool

/-- The rationals that round to `m · 2 ^ q`, in quarters of the unit `2 ^ q`. -/
def Parts.interval (p : Parts) : Interval :=
  let scale := Nat.pow 2 (p.q - 2).toNat
  { low := (4 * p.m - (if p.narrow then 1 else 2)) * scale
    value := 4 * p.m * scale
    high := (4 * p.m + 2) * scale
    den := Nat.pow 2 (2 - p.q).toNat
    closed := p.m % 2 = 0 }

/-- Whether `num / den`, over the interval's own denominator, lies in the interval. -/
def Interval.contains (i : Interval) (num den : Nat) : Bool :=
  if i.closed then i.low * den ≤ num && num ≤ i.high * den
  else i.low * den < num && num < i.high * den

/-- The best candidate on the grid of multiples of `10 ^ e`: of the two neighbours of the value that lie in the
interval the nearer one, and the even one if both are equally near. -/
def Interval.onGrid? (i : Interval) (e : Int) : Option Nat :=
  let unit := i.den * powerOfTen e
  let factor := powerOfTen (-e)
  let below := i.value * factor / unit
  let above := below + 1
  let gapBelow := i.value * factor - below * unit
  let gapAbove := above * unit - i.value * factor
  match i.contains (below * unit) factor, i.contains (above * unit) factor with
  | true, true =>
    if gapBelow < gapAbove ∨ (gapBelow = gapAbove ∧ below % 2 = 0) then some below else some above
  | true, false => some below
  | false, true => some above
  | false, false => none

/-- Digits without their trailing zeros. -/
def trimZeros (ds : List Char) : List Char :=
  (ds.reverse.dropWhile (· = '0')).reverse

/-- The shortest digits that read back as the positive double `m · 2 ^ q`. -/
def shortest (p : Parts) : Digits :=
  let i := p.interval
  let k := magnitude i.value i.den
  let found := (List.range 17).findSome? fun (n : Nat) =>
    let e := k - (n : Int)
    (i.onGrid? e).map fun c => (c, e)
  let (c, e) := found.getD (0, 0)
  let ds := digits c
  ⟨trimZeros ds, e + ds.length - 1⟩

/-! ## Layouts -/

/-- How the digits of a double are laid out: which decimal exponents are written without an exponent mark, and
whether a whole number ends in `.0`. -/
structure Layout where
  positional : Int → Bool
  point : Bool

/-- Digits with the decimal point where `exponent` puts it. -/
def Layout.plain (l : Layout) (d : Digits) : List Char :=
  let n := d.digits.length
  if d.exponent < 0 then
    '0' :: '.' :: (List.replicate (-d.exponent - 1).toNat '0' ++ d.digits)
  else if d.exponent.toNat + 1 < n then
    d.digits.take (d.exponent.toNat + 1) ++ '.' :: d.digits.drop (d.exponent.toNat + 1)
  else
    d.digits ++ List.replicate (d.exponent.toNat + 1 - n) '0' ++ (if l.point then ['.', '0'] else [])

/-- One digit before the point, and the exponent with its sign. -/
def scientific (d : Digits) : List Char :=
  let fraction := d.digits.drop 1
  let sign := if d.exponent < 0 then '-' else '+'
  d.digits.take 1 ++ (if fraction.isEmpty then [] else '.' :: fraction)
    ++ 'e' :: sign :: digits d.exponent.natAbs

/-- The text of a finite double. -/
def Layout.text (l : Layout) (x : Float) : List Char :=
  let p := parts x
  let d := if p.m = 0 then ⟨['0'], 0⟩ else shortest p
  (if p.negative then ['-'] else []) ++ (if l.positional d.exponent then l.plain d else scientific d)

end Chronicle.Decimal
