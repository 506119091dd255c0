import Chronicle.Decimal.Scale
import Chronicle.Json.Basic
import Chronicle.Text.Digits
import Chronicle.Text.Utf8

/-!
# Reading JSON

`Json.read` accepts exactly one JSON text, blanks around its tokens and nothing else. It reads symbols, so that bytes
which are no character are errors of their own: where they stand outside a string, and at the closing quote of a string
that holds them.

* A text can be refused because it ends too early (`ReadError.atEnd`) or because of what stands in it.
* Arrays and objects may nest as deep as the caller allows; `standardLevels` is the usual limit.
* A repeated member name keeps its first place and takes its last value.
-/

namespace Chronicle.Json

open Text (Symbol isDigit digitValue value hexValue? width)

/-- Why a text is not JSON. -/
inductive ReadError where
  | unclosedList
  | unclosedObject
  | unclosedString
  | unfinishedValue
  | expectedColon
  | expectedListSeparator
  | expectedObjectSeparator
  | expectedWord
  | expectedValue
  | invalidEscape
  | invalidNumber
  | numberOutOfRange
  | invalidCodePoint
  | controlCharacter
  | nameNotString
  | loneSurrogate
  | trailingComma
  | trailingCharacters
  | unfinishedPair
  | tooDeep
deriving DecidableEq, Repr

/-- Whether the text ended too early. -/
def ReadError.atEnd : ReadError → Bool
  | .unclosedList | .unclosedObject | .unclosedString | .unfinishedValue => true
  | _ => false

/-- What is wrong, in words. -/
def ReadError.message : ReadError → String
  | .unclosedList => "EOF while parsing a list"
  | .unclosedObject => "EOF while parsing an object"
  | .unclosedString => "EOF while parsing a string"
  | .unfinishedValue => "EOF while parsing a value"
  | .expectedColon => "expected `:`"
  | .expectedListSeparator => "expected `,` or `]`"
  | .expectedObjectSeparator => "expected `,` or `\x7d`"
  | .expectedWord => "expected ident"
  | .expectedValue => "expected value"
  | .invalidEscape => "invalid escape"
  | .invalidNumber => "invalid number"
  | .numberOutOfRange => "number out of range"
  | .invalidCodePoint => "invalid unicode code point"
  | .controlCharacter => "control character (\\u0000-\\u001F) found while parsing a string"
  | .nameNotString => "key must be a string"
  | .loneSurrogate => "lone leading surrogate in hex escape"
  | .trailingComma => "trailing comma"
  | .trailingCharacters => "trailing characters"
  | .unfinishedPair => "unexpected end of hex escape"
  | .tooDeep => "recursion limit exceeded"

/-- Reads a value from the front of the symbols and gives back the rest. -/
abbrev Reading (α : Type) := List Symbol → Except ReadError (α × List Symbol)

/-- Whether a symbol may stand between tokens. -/
def isBlank (c : Symbol) : Bool :=
  c = some ' ' || c = some '\t' || c = some '\n' || c = some '\r'

/-- The symbols without leading blanks. -/
def skipBlanks (s : List Symbol) : List Symbol := s.dropWhile isBlank

/-! ## Words and numbers -/

/-- Reads the rest of a word such as `null`. -/
def readWord (word : List Char) (v : Json) : Reading Json := fun s =>
  match word, s with
  | [], rest => .ok (v, rest)
  | _ :: _, [] => .error .unfinishedValue
  | c :: word, d :: rest => if d = some c then readWord word v rest else .error .expectedWord

/-- The leading decimal digits and the rest. -/
def spanDigits : List Symbol → List Char × List Symbol
  | some c :: rest =>
    if isDigit c then
      let (ds, rest) := spanDigits rest
      (c :: ds, rest)
    else ([], some c :: rest)
  | s => ([], s)

/-- At least one digit has to follow. -/
def readDigits : Reading (List Char) := fun s =>
  match spanDigits s with
  | ([], []) => .error .unfinishedValue
  | ([], _ :: _) => .error .invalidNumber
  | result => .ok result

/-- A number as it is written. -/
structure Numeral where
  negative : Bool
  whole : List Char
  fraction : List Char
  exponent : Option Int
deriving DecidableEq, Repr

/-- Reads the digits before the point: a leading zero stands alone. -/
def readWhole : Reading (List Char) := fun s => do
  let (ds, rest) ← readDigits s
  match ds with
  | '0' :: _ :: _ => .error .invalidNumber
  | _ => .ok (ds, rest)

/-- Reads the digits after the point, if there is one. -/
def readFraction : Reading (List Char)
  | some '.' :: rest => readDigits rest
  | s => .ok ([], s)

/-- Whether a minus sign comes first, and what is left. -/
def spanMinus : List Symbol → Bool × List Symbol
  | some '-' :: rest => (true, rest)
  | s => (false, s)

/-- Whether the first of two possible signs is a minus sign, and what is left. -/
def spanSign : List Symbol → Bool × List Symbol
  | some '+' :: rest => (false, rest)
  | s => spanMinus s

/-- Reads the exponent, if there is one. -/
def readExponent : Reading (Option Int) := fun s =>
  match s with
  | some c :: rest =>
    if c = 'e' ∨ c = 'E' then do
      let (negative, rest) := spanSign rest
      let (ds, rest) ← readDigits rest
      let n : Int := value ds
      return (some (if negative then -n else n), rest)
    else .ok (none, s)
  | s => .ok (none, s)

/-- Reads a number from its sign on. -/
def readNumeral : Reading Numeral := fun s => do
  let (negative, s) := spanMinus s
  let (whole, s) ← readWhole s
  let (fraction, s) ← readFraction s
  let (exponent, s) ← readExponent s
  return (⟨negative, whole, fraction, exponent⟩, s)

/-- Appends digits to a significand as long as it fits in 64 bits; the digits that no longer fit are left over. -/
def absorb (significand : Nat) : List Char → Nat × List Char
  | [] => (significand, [])
  | d :: ds =>
    let next := significand * 10 + digitValue d
    if next < 0x10000000000000000 then absorb next ds else (significand, d :: ds)

/-- The double that a numeral stands for. Digits beyond 64 bits do not count, but those before the point keep their
place. -/
def Numeral.double? (n : Numeral) : Option Double := do
  let (s, wholeLeft) := absorb 0 n.whole
  let (s, fractionLeft) := absorb s n.fraction
  let used := n.fraction.length - fractionLeft.length
  let exponent : Int := wholeLeft.length - used + n.exponent.getD 0
  let x ← Decimal.scaled? s exponent
  Double.ofFloat? (if n.negative then -x else x)

/-- The integer that a numeral stands for, if it is one: no fraction, no exponent, no negative zero, and in the range
of 64 bits, with the sign or without. -/
def Numeral.integer? (n : Numeral) : Option Integer :=
  if n.fraction.isEmpty ∧ n.exponent.isNone then
    let m := value n.whole
    if n.negative then
      if 0 < m ∧ m ≤ 0x8000000000000000 then Integer.ofInt? (-m) else none
    else Integer.ofInt? m
  else none

/-- The value of a numeral; a double too large has none. -/
def Numeral.value? (n : Numeral) : Option Json :=
  match n.integer? with
  | some i => some (.integer i)
  | none => n.double?.map .double

/-- Reads a number. -/
def readNumber : Reading Json := fun s => do
  let (n, rest) ← readNumeral s
  match n.value? with
  | some v => .ok (v, rest)
  | none => .error .numberOutOfRange

/-! ## Strings -/

/-- Where in a string the reader is: between characters, after a backslash, `count` hexadecimal digits into an escape
that may be the second half of a surrogate pair, or before the backslash or the `u` of that half. -/
inductive StringMode where
  | plain
  | escaped
  | code (count val : Nat) (high : Option Nat)
  | pairBackslash (high : Nat)
  | pairLetter (high : Nat)
deriving DecidableEq, Repr

/-- The character of a one-letter escape. -/
def simpleEscape? : Char → Option Char
  | '"' => some '"'
  | '\\' => some '\\'
  | '/' => some '/'
  | 'b' => some '\x08'
  | 'f' => some '\x0c'
  | 'n' => some '\n'
  | 'r' => some '\r'
  | 't' => some '\t'
  | _ => none

/-- What four hexadecimal digits mean: a character, or the first half of a surrogate pair. -/
def codeUnit (unit : Nat) : Option Nat → Except ReadError (Char ⊕ Nat)
  | none =>
    if 0xDC00 ≤ unit ∧ unit ≤ 0xDFFF then .error .loneSurrogate
    else if 0xD800 ≤ unit ∧ unit ≤ 0xDBFF then .ok (.inr unit)
    else .ok (.inl (Char.ofNat unit))
  | some high =>
    if 0xDC00 ≤ unit ∧ unit ≤ 0xDFFF then
      .ok (.inl (Char.ofNat (0x10000 + (high - 0xD800) * 0x400 + (unit - 0xDC00))))
    else .error .loneSurrogate

/-- Reads a string after its opening quote. `done` holds the characters so far, the last one first, and `sound` says
that no byte outside a character has been met. -/
def readStringRest : StringMode → (done : List Char) → (sound : Bool) → Reading String
  | _, _, _, [] => .error .unclosedString
  | .plain, done, sound, c :: rest =>
    match c with
    | none => readStringRest .plain done false rest
    | some '"' => if sound then .ok (String.ofList done.reverse, rest) else .error .invalidCodePoint
    | some '\\' => readStringRest .escaped done sound rest
    | some c => if c.toNat < 0x20 then .error .controlCharacter else readStringRest .plain (c :: done) sound rest
  | .escaped, done, sound, c :: rest =>
    if c = some 'u' then readStringRest (.code 0 0 none) done sound rest
    else match c.bind simpleEscape? with
      | some e => readStringRest .plain (e :: done) sound rest
      | none => .error .invalidEscape
  | .code count val high, done, sound, c :: rest =>
    match c.bind hexValue? with
    | some d =>
      if count < 3 then readStringRest (.code (count + 1) (val * 16 + d) high) done sound rest
      else match codeUnit (val * 16 + d) high with
        | .error e => .error e
        | .ok (.inl c) => readStringRest .plain (c :: done) sound rest
        | .ok (.inr unit) => readStringRest (.pairBackslash unit) done sound rest
    | none => .error (if count + width (c :: rest) < 4 then .unclosedString else .invalidEscape)
  | .pairBackslash high, done, sound, c :: rest =>
    if c = some '\\' then readStringRest (.pairLetter high) done sound rest else .error .unfinishedPair
  | .pairLetter high, done, sound, c :: rest =>
    if c = some 'u' then readStringRest (.code 0 0 (some high)) done sound rest else .error .unfinishedPair

/-- Reads a string after its opening quote. -/
def readString : Reading String := readStringRest .plain [] true

/-! ## Arrays, objects and values -/

/-- Reads the items of an array up to its closing bracket. Each round reads a symbol, so `fuel` is enough if it is at
least the number of symbols. -/
def readItems (item : Reading Json) : (fuel : Nat) → (first : Bool) → Reading (List Json)
  | 0, _, _ => .error .unclosedList
  | fuel + 1, first, s =>
    match skipBlanks s with
    | [] => .error .unclosedList
    | c :: rest =>
      if c = some ']' then .ok ([], rest)
      else if first then do
        let (v, s) ← item (c :: rest)
        let (vs, s) ← readItems item fuel false s
        return (v :: vs, s)
      else if c = some ',' then
        if (skipBlanks rest).head? = some (some ']') then .error .trailingComma
        else do
          let (v, s) ← item rest
          let (vs, s) ← readItems item fuel false s
          return (v :: vs, s)
      else .error .expectedListSeparator

/-- Reads the name of a member, the colon and its value. -/
def readMember (item : Reading Json) : Reading (String × Json) := fun s => do
  match s with
  | some '"' :: rest =>
    let (name, s) ← readString rest
    match skipBlanks s with
    | [] => .error .unclosedObject
    | c :: rest =>
      if c = some ':' then
        let (v, s) ← item rest
        return ((name, v), s)
      else .error .expectedColon
  | _ => .error .nameNotString

/-- Reads the members of an object up to its closing brace. -/
def readMembers (item : Reading Json) : (fuel : Nat) → (first : Bool) → Reading (List (String × Json))
  | 0, _, _ => .error .unclosedObject
  | fuel + 1, first, s =>
    match skipBlanks s with
    | [] => .error .unclosedObject
    | c :: rest =>
      if c = some '}' then .ok ([], rest)
      else if first then do
        let (m, s) ← readMember item (c :: rest)
        let (ms, s) ← readMembers item fuel false s
        return (m :: ms, s)
      else if c = some ',' then
        match skipBlanks rest with
        | [] => .error .unfinishedValue
        | d :: rest =>
          if d = some '}' then .error .trailingComma
          else do
            let (m, s) ← readMember item (d :: rest)
            let (ms, s) ← readMembers item fuel false s
            return (m :: ms, s)
      else .error .expectedObjectSeparator

/-- Reads a value whose arrays and objects hold values that `item?` reads; without it they are refused. -/
def readValueWith (fuel : Nat) (item? : Option (Reading Json)) : Reading Json := fun s =>
  match skipBlanks s with
  | [] => .error .unfinishedValue
  | some 'n' :: rest => readWord ['u', 'l', 'l'] .null rest
  | some 't' :: rest => readWord ['r', 'u', 'e'] (.bool true) rest
  | some 'f' :: rest => readWord ['a', 'l', 's', 'e'] (.bool false) rest
  | some '"' :: rest => do
    let (text, s) ← readString rest
    return (.string text, s)
  | some '[' :: rest =>
    match item? with
    | none => .error .tooDeep
    | some item => do
      let (items, s) ← readItems item fuel true rest
      return (.array items, s)
  | some '{' :: rest =>
    match item? with
    | none => .error .tooDeep
    | some item => do
      let (members, s) ← readMembers item fuel true rest
      return (.object (Fields.ofList members), s)
  | some c :: rest =>
    if c = '-' ∨ isDigit c then readNumber (some c :: rest) else .error .expectedValue
  | none :: _ => .error .expectedValue

/-- Reads a value that nests at most `levels` deep. -/
def readValue (fuel : Nat) : (levels : Nat) → Reading Json
  | 0 => readValueWith fuel none
  | levels + 1 => readValueWith fuel (some (readValue fuel levels))

/-- Reads one value that nests at most `levels` deep, and nothing after it. -/
def readWithin (levels : Nat) (s : List Symbol) : Except ReadError Json := do
  let (v, rest) ← readValue s.length levels s
  if (skipBlanks rest).isEmpty then .ok v else .error .trailingCharacters

/-- How deep arrays and objects may nest. -/
def standardLevels : Nat := 127

/-- Reads one JSON text. -/
def read (s : List Symbol) : Except ReadError Json := readWithin standardLevels s

end Chronicle.Json
