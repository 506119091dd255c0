import Chronicle.Text.Utf8

/-!
# Base64

The standard alphabet with required padding. `Base64.encode` writes three bytes as four symbols; `Base64.decode` reads
whole groups of four and checks the last one apart: it may hold padding, but no set bits that no byte takes up.
-/

namespace Chronicle.Base64

/-- Why a text is not Base64; offsets count bytes. -/
inductive DecodeError where
  | invalidSymbol (offset : Nat) (symbol : UInt8)
  | invalidLastSymbol (offset : Nat) (symbol : UInt8)
  | invalidLength (length : Nat)
  | invalidPadding
deriving DecidableEq, Repr

/-- What is wrong, in words. -/
def DecodeError.message : DecodeError → String
  | .invalidSymbol offset symbol => s!"Invalid symbol {symbol}, offset {offset}."
  | .invalidLastSymbol offset symbol => s!"Invalid last symbol {symbol}, offset {offset}."
  | .invalidLength length => s!"Invalid input length: {length}"
  | .invalidPadding => "Invalid padding"

/-- The padding symbol. -/
def pad : UInt8 := 61

/-- The symbol for a number below 64. -/
def symbol (n : Nat) : Char :=
  if n < 26 then Char.ofNat (65 + n)
  else if n < 52 then Char.ofNat (71 + n)
  else if n < 62 then Char.ofNat (n - 4)
  else if n = 62 then '+'
  else '/'

/-- The number that a symbol stands for. -/
def symbolValue? (b : UInt8) : Option Nat :=
  let n := b.toNat
  if 65 ≤ n ∧ n ≤ 90 then some (n - 65)
  else if 97 ≤ n ∧ n ≤ 122 then some (n - 71)
  else if 48 ≤ n ∧ n ≤ 57 then some (n + 4)
  else if n = 43 then some 62
  else if n = 47 then some 63
  else none

/-- The symbols of a byte sequence. -/
def encode : List UInt8 → List Char
  | [] => []
  | [a] =>
    let n := a.toNat * 65536
    [symbol (n / 262144), symbol (n / 4096 % 64), '=', '=']
  | [a, b] =>
    let n := a.toNat * 65536 + b.toNat * 256
    [symbol (n / 262144), symbol (n / 4096 % 64), symbol (n / 64 % 64), '=']
  | a :: b :: c :: rest =>
    let n := a.toNat * 65536 + b.toNat * 256 + c.toNat
    symbol (n / 262144) :: symbol (n / 4096 % 64) :: symbol (n / 64 % 64) :: symbol (n % 64) :: encode rest

/-- The value of a symbol at an offset. -/
def symbolAt (offset : Nat) (b : UInt8) : Except DecodeError Nat :=
  match symbolValue? b with
  | some n => .ok n
  | none => .error (.invalidSymbol offset b)

/-- The three bytes of a 24-bit number. -/
def threeBytes (n : Nat) : List UInt8 :=
  [UInt8.ofNat (n / 65536), UInt8.ofNat (n / 256), UInt8.ofNat n]

/-- The last group: symbols and the padding after them. `index` counts the bytes of the group before the current one,
`values` holds the symbols read so far, the last one first, and `padding` is where the padding starts and how long it
is. -/
def lastGroup (start index : Nat) (values : List (Nat × UInt8)) (padding : Option (Nat × Nat)) :
    List UInt8 → Except DecodeError (List (Nat × UInt8) × Nat)
  | [] => .ok (values, (padding.map Prod.snd).getD 0)
  | b :: rest => do
    if b = pad then
      if index < 2 then .error (.invalidSymbol (start + index) b)
      let (first, count) := padding.getD (index, 0)
      lastGroup start (index + 1) values (some (first, count + 1)) rest
    else
      if let some (first, _) := padding then .error (.invalidSymbol (start + first) pad)
      let n ← symbolAt (start + index) b
      lastGroup start (index + 1) ((n, b) :: values) padding rest

/-- The bytes of the last group, which starts at offset `start`. -/
def decodeLast (start : Nat) (group : List UInt8) : Except DecodeError (List UInt8) := do
  let (values, padding) ← lastGroup start 0 [] none group
  let count := values.length
  if count < 2 then .error (.invalidLength (start + count))
  if (padding + count) % 4 ≠ 0 then .error .invalidPadding
  let n : Nat := values.reverse.foldl (fun n v => n * 64 + v.1) 0 * Nat.pow 64 (4 - count)
  let used := count * 6 / 8
  if n % Nat.pow 256 (3 - used) ≠ 0 then
    match values with
    | (_, b) :: _ => .error (.invalidLastSymbol (start + count - 1) b)
    | [] => .error .invalidPadding
  return (threeBytes n).take used

/-- Groups of four symbols, and the last group, from offset `start` on. -/
def decodeGroups (start : Nat) : List UInt8 → Except DecodeError (List UInt8)
  | a :: b :: c :: d :: e :: rest => do
    let na ← symbolAt start a
    let nb ← symbolAt (start + 1) b
    let nc ← symbolAt (start + 2) c
    let nd ← symbolAt (start + 3) d
    let bytes ← decodeGroups (start + 4) (e :: rest)
    return threeBytes (na * 262144 + nb * 4096 + nc * 64 + nd) ++ bytes
  | [] => .ok []
  | group => decodeLast start group

/-- The bytes that a text stands for. A single byte after the last group that is neither symbol nor padding is reported
before all else. -/
def decode (text : List UInt8) : Except DecodeError (List UInt8) := do
  if text.length % 4 = 1 then
    if let some b := text.getLast? then
      if b ≠ pad then
        let _ ← symbolAt (text.length - 1) b
  decodeGroups 0 text

end Chronicle.Base64
