import Chronicle.Text.Digits

/-!
# Lower case

Letters in lower case, for the scripts in which case is regular: Latin, Greek and Cyrillic letters, each of which has one
counterpart. Other characters stay.
-/

namespace Chronicle.Text

/-- Whether a number lies in a closed range. -/
def within (low high n : Nat) : Bool := low ≤ n && n ≤ high

/-- Whether upper and lower case alternate here and the upper case is even. -/
def alternatesEven (n : Nat) : Bool :=
  within 0x100 0x12F n || within 0x132 0x137 n || within 0x14A 0x177 n || within 0x1DE 0x1EF n || within 0x1F8 0x21F n
    || within 0x222 0x233 n || within 0x3D8 0x3EF n || within 0x460 0x481 n || within 0x48A 0x4BF n
    || within 0x4D0 0x52F n || within 0x1E00 0x1E95 n || within 0x1EA0 0x1EFF n

/-- Whether upper and lower case alternate here and the upper case is odd. -/
def alternatesOdd (n : Nat) : Bool :=
  within 0x139 0x148 n || within 0x179 0x17E n || within 0x1CD 0x1DC n || within 0x4C1 0x4CE n

/-- The number of a letter in lower case. -/
def lowerNumber (n : Nat) : Nat :=
  if within 0x41 0x5A n || (within 0xC0 0xDE n && n != 0xD7) || (within 0x391 0x3AB n && n != 0x3A2)
    || within 0x410 0x42F n then n + 32
  else if within 0x400 0x40F n then n + 80
  else if n = 0x178 then 0xFF
  else if n = 0x386 then 0x3AC
  else if within 0x388 0x38A n then n + 37
  else if n = 0x38C then 0x3CC
  else if n = 0x38E || n = 0x38F then n + 63
  else if alternatesEven n && n % 2 = 0 then n + 1
  else if alternatesOdd n && n % 2 = 1 then n + 1
  else n

/-- A letter in lower case; other characters stay. -/
def lowerChar (c : Char) : Char := Char.ofNat (lowerNumber c.toNat)

/-- A text in lower case. -/
def lower (s : String) : String := String.ofList (s.toList.map lowerChar)

end Chronicle.Text
