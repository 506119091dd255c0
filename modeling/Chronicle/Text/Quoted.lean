import Chronicle.Text.Case

/-!
# Quoted text for messages

A string between double quotes, on one line and without characters that cannot be seen: those are written by their
number.
-/

namespace Chronicle.Text

/-- Whether a character leaves no mark of its own: controls, formats, separators other than the space, private use, and
marks that join the character before them. -/
def isInvisible (c : Char) : Bool :=
  let n := c.toNat
  n < 0x20 || within 0x7F 0xA0 n || n = 0xAD || within 0x300 0x36F n || within 0x483 0x489 n || within 0x591 0x5BD n
    || within 0x600 0x605 n || within 0x610 0x61A n || n = 0x61C || within 0x64B 0x65F n || n = 0x1680 || n = 0x180E
    || within 0x1AB0 0x1ACE n || within 0x1DC0 0x1DFF n || within 0x2000 0x200F n || within 0x2028 0x202F n
    || within 0x205F 0x206F n || within 0x20D0 0x20F0 n || n = 0x3000 || within 0xE000 0xF8FF n
    || within 0xFE00 0xFE0F n || within 0xFE20 0xFE2F n || n = 0xFEFF || within 0xFFF0 0xFFFB n || n = 0xFFFE
    || n = 0xFFFF || within 0xE0000 0x10FFFF n

/-- The hexadecimal digits of a number. -/
def hexDigits (n : Nat) : List Char :=
  if n < 16 then [hexDigit n] else hexDigits (n / 16) ++ [hexDigit (n % 16)]
termination_by n

/-- A character as it stands between quotes. -/
def visible (c : Char) : List Char :=
  match c with
  | '"' => ['\\', '"']
  | '\\' => ['\\', '\\']
  | '\n' => ['\\', 'n']
  | '\r' => ['\\', 'r']
  | '\t' => ['\\', 't']
  | '\x00' => ['\\', '0']
  | c => if isInvisible c then ['\\', 'u', '\x7b'] ++ hexDigits c.toNat ++ ['\x7d'] else [c]

/-- A string in quotes. -/
def quoted (s : String) : String := String.ofList ('"' :: s.toList.flatMap visible ++ ['"'])

end Chronicle.Text
