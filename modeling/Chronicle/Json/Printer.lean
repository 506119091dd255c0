import Chronicle.Decimal.Shortest
import Chronicle.Json.Basic

/-!
# Writing JSON

`Json.write` gives the compact text of a value: no blanks, members in their order. Integers are written in digits and
doubles with the fewest digits that read back, without exponent from `1e-5` up to `1e16`, so a double is never taken
for an integer. Of a string only quotes, backslashes and characters below U+0020 are escaped.
-/

namespace Chronicle.Json

open Text (hexDigit)

/-- Doubles are written without exponent from `1e-5` up to `1e16`, and a whole one ends in `.0`. -/
def doubleLayout : Decimal.Layout where
  positional e := -5 ≤ e && e < 16
  point := true

/-- The text of a double. -/
def Double.text (x : Double) : List Char := doubleLayout.text x.val

/-- The text of an integer. -/
def Integer.text (n : Integer) : List Char := Text.signed n.val

/-- A character as it stands in a string. -/
def escape (c : Char) : List Char :=
  if c = '"' then ['\\', '"']
  else if c = '\\' then ['\\', '\\']
  else if c = '\x08' then ['\\', 'b']
  else if c = '\t' then ['\\', 't']
  else if c = '\n' then ['\\', 'n']
  else if c = '\x0c' then ['\\', 'f']
  else if c = '\r' then ['\\', 'r']
  else if c.toNat < 0x20 then ['\\', 'u', '0', '0', hexDigit (c.toNat / 16), hexDigit (c.toNat % 16)]
  else [c]

/-- A string in quotes. -/
def quoted (s : String) : List Char :=
  '"' :: (s.toList.flatMap escape ++ ['"'])

mutual

/-- The text of a value, as characters. -/
def write : Json → List Char
  | .null => ['n', 'u', 'l', 'l']
  | .bool true => ['t', 'r', 'u', 'e']
  | .bool false => ['f', 'a', 'l', 's', 'e']
  | .integer n => n.text
  | .double x => x.text
  | .string s => quoted s
  | .array [] => ['[', ']']
  | .array (v :: rest) => '[' :: (write v ++ writeItems rest)
  | .object [] => ['{', '}']
  | .object ((k, v) :: rest) => '{' :: (quoted k ++ ':' :: (write v ++ writeMembers rest))

/-- The items after the first, and the closing bracket. -/
def writeItems : List Json → List Char
  | [] => [']']
  | v :: rest => ',' :: (write v ++ writeItems rest)

/-- The members after the first, and the closing brace. -/
def writeMembers : List (String × Json) → List Char
  | [] => ['}']
  | (k, v) :: rest => ',' :: (quoted k ++ ':' :: (write v ++ writeMembers rest))

end

/-- The text of a value. -/
def text (v : Json) : String := String.ofList (write v)

end Chronicle.Json
