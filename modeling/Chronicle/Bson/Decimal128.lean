import Chronicle.Decimal.Reader

/-!
# Decimals of 128 bits

A decimal has a sign, up to 34 digits and an exponent of ten; or it is infinite, or no number. `kind` takes its bits
apart, whatever they are, and `pack` puts them together.

* `text` writes the digits as they are, with an exponent if it is positive or the number is small: `1E+3` is not `1000`.
* `ofText?` accepts what `text` writes, other numerals, and the words `nan`, `snan`, `inf` and `infinity` in any case. It
  does not round: a numeral of too many digits, or with an exponent out of range, is read only if zeros make up for it.
-/

namespace Chronicle

open Text (digits lowerAscii)

/-- A decimal, in bits: the sign at the top, then the exponent, then the coefficient. -/
structure Decimal128 where
  bits : BitVec 128
deriving DecidableEq, Repr

namespace Decimal128

/-- What a decimal is, apart from its sign. -/
inductive Kind where
  | nan (signalling : Bool)
  | infinity
  | finite (coefficient : Nat) (exponent : Int)
deriving DecidableEq, Repr

/-- The number of digits of a coefficient. -/
def maxDigits : Nat := 34

/-- The least exponent. Exponents are stored as their distance from it. -/
def minExponent : Int := -6176

/-- The greatest exponent. -/
def maxExponent : Int := 6111

/-! ## Bits -/

/-- The number in `width` bits from the bit `start` on. -/
def field (d : Decimal128) (start width : Nat) : Nat := (d.bits.extractLsb' start width).toNat

/-- Whether the sign is a minus. -/
def negative (d : Decimal128) : Bool := d.bits.msb

/-- The kind of a coefficient and of an exponent as it is stored. A coefficient of too many digits counts as zero. -/
def Kind.ofFields (coefficient exponent : Nat) : Kind :=
  .finite (if coefficient < Nat.pow 10 maxDigits then coefficient else 0) (exponent + minExponent)

/-- What the bits stand for. If the first two below the sign are set, and the next two are not, the exponent is behind
them, and the coefficient starts with three bits `100` that are not stored. -/
def kind (d : Decimal128) : Kind :=
  if d.field 123 4 = 15 then
    if d.field 122 1 = 1 then .nan (d.field 121 1 = 1) else .infinity
  else if d.field 125 2 = 3 then .ofFields (4 * Nat.pow 2 111 + d.field 0 111) (d.field 111 14)
  else .ofFields (d.field 0 113) (d.field 113 14)

/-- The bits below the sign. -/
def Kind.bits : Kind → Nat
  | .nan signalling => 31 * Nat.pow 2 122 + signalling.toNat * Nat.pow 2 121
  | .infinity => 30 * Nat.pow 2 122
  | .finite coefficient exponent => (exponent - minExponent).toNat * Nat.pow 2 113 + coefficient

/-- The decimal of a sign and a kind. -/
def pack (negative : Bool) (k : Kind) : Decimal128 :=
  ⟨BitVec.ofNat 128 (negative.toNat * Nat.pow 2 127 + k.bits)⟩

/-- The bytes of a decimal, the lowest first. -/
def bytes (d : Decimal128) : List UInt8 := (List.range 16).map fun i => UInt8.ofNat (d.field (8 * i) 8)

/-- The decimal of 16 bytes, the lowest first. -/
def ofBytes? (bytes : List UInt8) : Option Decimal128 :=
  if bytes.length = 16 then some ⟨BitVec.ofNat 128 (bytes.foldr (fun b n => b.toNat + 256 * n) 0)⟩ else none

/-! ## Writing -/

/-- Digits around a point, which is left out if nothing follows it. -/
def pointed (whole fraction : List Char) : List Char :=
  if fraction.isEmpty then whole else whole ++ '.' :: fraction

/-- Digits with a point before the last `places` of them. -/
def plain (ds : List Char) (places : Nat) : List Char :=
  if ds.length ≤ places then pointed ['0'] (List.replicate (places - ds.length) '0' ++ ds)
  else pointed (ds.take (ds.length - places)) (ds.drop (ds.length - places))

/-- One digit before the point, and the exponent with its sign. -/
def scientific (ds : List Char) (exponent : Int) : List Char :=
  pointed (ds.take 1) (ds.drop 1) ++ 'E' :: ((if 0 < exponent then ['+'] else []) ++ Text.signed exponent)

/-- The characters of a finite decimal without its sign. -/
def finiteText (coefficient : Nat) (exponent : Int) : List Char :=
  let ds := digits coefficient
  let adjusted := exponent + ds.length - 1
  if exponent ≤ 0 ∧ -6 ≤ adjusted then plain ds exponent.natAbs else scientific ds adjusted

/-- A text with a minus sign in front, if it is for a negative number. -/
def signedText (negative : Bool) (s : List Char) : List Char := if negative then '-' :: s else s

/-- The characters of a sign and a kind. What is no number has no sign. -/
def Kind.text (negative : Bool) : Kind → List Char
  | .nan _ => ['N', 'a', 'N']
  | .infinity => signedText negative ['I', 'n', 'f', 'i', 'n', 'i', 't', 'y']
  | .finite coefficient exponent => signedText negative (finiteText coefficient exponent)

/-- The text of a decimal. -/
def text (d : Decimal128) : String := String.ofList (d.kind.text d.negative)

/-! ## Reading -/

/-- A number that 16 bits hold. -/
def int16? (n : Int) : Option Int := if -0x8000 ≤ n ∧ n < 0x8000 then some n else none

/-- A number without its last `n` digits, if these are zeros. -/
def dropZeros? (n m : Nat) : Option Nat := if m % Nat.pow 10 n = 0 then some (m / Nat.pow 10 n) else none

/-- The decimal `m · 10 ^ e`. Too many digits, or too small an exponent, are made up for by zeros at the end of `m`, and
too great an exponent by zeros put there. -/
def fit? (m : Nat) (e : Int) : Option Kind := do
  let extra := (digits m).length - maxDigits
  let m ← dropZeros? extra m
  let shift ← int16? extra
  let e ← int16? (e + shift)
  let m ← dropZeros? (minExponent - e).toNat m
  let e := max e minExponent
  let m := m * Nat.pow 10 (e - maxExponent).toNat
  if m < Nat.pow 10 maxDigits then some (.finite m (min e maxExponent)) else none

/-- A number without its sign. -/
def readFinite? (s : List Char) : Option Kind := do
  let n ← Decimal.numeral? s
  let exponent ← int16? n.exponent
  let places ← int16? n.places
  let e ← int16? (exponent - places)
  fit? n.digits e

/-- One of the words for a decimal that is not finite. -/
def readWord? (s : List Char) : Option Kind :=
  match s.map lowerAscii with
  | ['n', 'a', 'n'] => some (.nan false)
  | ['s', 'n', 'a', 'n'] => some (.nan true)
  | ['i', 'n', 'f'] | ['i', 'n', 'f', 'i', 'n', 'i', 't', 'y'] => some .infinity
  | _ => none

/-- The decimal that a text stands for. -/
def ofText? (s : String) : Option Decimal128 :=
  let (negative, s) := Decimal.splitSign s.toList
  ((readWord? s).or (readFinite? s)).map (pack negative)

end Decimal128

end Chronicle
