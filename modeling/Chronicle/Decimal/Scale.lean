/-!
# Doubles from a significand and a power of ten

`scaled significand exponent` is the double next to `significand · 10 ^ exponent`, found as a product or quotient of
two doubles. Each of the at most three operations rounds, so the result can be one unit in the last place off the
nearest double. A product beyond the range of doubles has no result, a quotient below it is zero.
-/

namespace Chronicle.Decimal

/-- `10 ^ n`, rounded to the nearest double. -/
def power (n : Nat) : Float := Float.ofScientific 1 false n

/-- The greatest decimal exponent of a double. -/
def maxExponent : Nat := 308

/-- A double divided by `10 ^ n`, by at most `10 ^ 308` at a time. -/
def divided (x : Float) (n : Nat) : Float :=
  if n ≤ maxExponent then x / power n
  else if x == 0 then x
  else divided (x / power maxExponent) (n - maxExponent)
termination_by n
decreasing_by simp_all [maxExponent]; omega

/-- A double, unless it is infinite or no number. -/
def finite? (x : Float) : Option Float := if x.isFinite then some x else none

/-- The double for `significand · 10 ^ exponent`, for a significand of at most 64 bits. -/
def scaled? (significand : Nat) (exponent : Int) : Option Float :=
  let x := (UInt64.ofNat significand).toFloat
  let n := exponent.natAbs
  if exponent < 0 then finite? (divided x n)
  else if n ≤ maxExponent then finite? (x * power n)
  else if x == 0 then some x
  else none

end Chronicle.Decimal
