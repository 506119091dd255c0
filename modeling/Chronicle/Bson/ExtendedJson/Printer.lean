import Chronicle.Bson.Basic
import Chronicle.Json.Basic
import Chronicle.Text.Base64
import Chronicle.Time.Timestamp

/-!
# Extended JSON from BSON

`Bson.toJson` writes relaxed extended JSON: numbers and dates from 1970 through 9999 in their plain form, and the types
that JSON lacks as objects with a `$` key. In the scope of a piece of code dates are numbers of milliseconds, doubles
that are no real number are null, and generic binary data is an array of its bytes, as are decimals in their form.
-/

namespace Chronicle.Bson

/-- An object with one member. -/
def form (key : String) (content : Json) : Json := .object [(key, content)]

/-- A small number as a JSON value. -/
def number (n : Nat) : Json := ((Json.Integer.ofInt? n).map .integer).getD .null

/-- The text of a double that is no real number. -/
def nonFiniteText (x : Float) : String :=
  if x.isNaN then "NaN" else if x < 0 then "-Infinity" else "Infinity"

/-- A double that is no real number gets a form of its own. -/
def doubleToJson (x : Float) : Json :=
  match Json.Double.ofFloat? x with
  | some d => .double d
  | none => form "$numberDouble" (.string (nonFiniteText x))

/-- Bytes as numbers. -/
def bytesToJson (bytes : List UInt8) : Json := .array (bytes.map fun b => number b.toNat)

/-- Binary data. -/
def binaryToJson (subtype : UInt8) (bytes : List UInt8) : Json :=
  form "$binary" (.object
    [("base64", .string (String.ofList (Base64.encode bytes))),
      ("subType", .string (String.ofList (Text.hexByte subtype)))])

/-- A date as a number of milliseconds. -/
def dateToNumber (millis : Int64) : Json :=
  form "$date" (form "$numberLong" (.string (String.ofList (Text.signed millis.toInt))))

/-- A fraction of a second in milliseconds, without trailing zeros. -/
def dateFraction (millis : Nat) : List Char :=
  if millis = 0 then []
  else '.' :: ((Text.padded 3 millis).reverse.dropWhile (· = '0')).reverse

/-- The last millisecond of the year 9999. -/
def lastWrittenDate : Int := 253402300799999

/-- A date from 1970 through 9999 as text, another as a number. -/
def dateToJson (millis : Int64) : Json :=
  let n := millis.toInt
  if 0 ≤ n ∧ n ≤ lastWrittenDate then
    let day := Date.ofDays (n / 86400000)
    let second := (n / 1000 % 86400).toNat
    let clock : Timestamp.Clock := ⟨second / 3600, second / 60 % 60, second % 60, 0⟩
    let text := day.text ++ 'T' :: clock.text ++ dateFraction (n % 1000).toNat ++ ['Z']
    form "$date" (.string (String.ofList text))
  else dateToNumber millis

/-- The types whose form is the same everywhere. -/
def scalarToJson : Bson → Json
  | .string s => .string s
  | .boolean b => .bool b
  | .code source => form "$code" (.string source)
  | .int32 n => .integer (.ofInt64 n.toInt64)
  | .int64 n => .integer (.ofInt64 n)
  | .timestamp t i => form "$timestamp" (.object [("t", number t.toNat), ("i", number i.toNat)])
  | .objectId id => form "$oid" (.string id.text)
  | .symbol s => form "$symbol" (.string s)
  | .undefined => form "$undefined" (.bool true)
  | .maxKey => form "$maxKey" (number 1)
  | .minKey => form "$minKey" (number 1)
  | .dbPointer target id =>
    form "$dbPointer" (.object [("$ref", .string target), ("$id", form "$oid" (.string id.text))])
  | _ => .null

/-- A regular expression. -/
def regexToJson (pattern options : String) : Json :=
  form "$regularExpression" (.object [("pattern", .string pattern), ("options", .string options)])

mutual

/-- A value inside the scope of a piece of code. -/
def toScopeJson : Bson → Json
  | .double x => ((Json.Double.ofFloat? x).map .double).getD .null
  | .negativeNaN => .null
  | .decimal128 d => form "$numberDecimalBytes" (bytesToJson d.bytes)
  | .array items => .array (toScopeItems items)
  | .document fields => .object (toScopeMembers fields)
  | .codeWithScope source scope => .object [("$code", .string source), ("$scope", .object (toScopeMembers scope))]
  | .regex pattern options => regexToJson pattern options
  | .binary subtype bytes =>
    if subtype = 0 then bytesToJson bytes else binaryToJson subtype bytes
  | .date millis => dateToNumber millis
  | v => scalarToJson v

/-- Items inside a scope. -/
def toScopeItems : List Bson → List Json
  | [] => []
  | v :: rest => toScopeJson v :: toScopeItems rest

/-- Fields inside a scope. -/
def toScopeMembers : List (String × Bson) → List (String × Json)
  | [] => []
  | (k, v) :: rest => (k, toScopeJson v) :: toScopeMembers rest

end

mutual

/-- A value as relaxed extended JSON. -/
def toJson : Bson → Json
  | .double x => doubleToJson x
  | .negativeNaN => form "$numberDouble" (.string "-NaN")
  | .decimal128 d => form "$numberDecimal" (.string d.text)
  | .array items => .array (toJsonItems items)
  | .document fields => .object (toJsonMembers fields)
  | .codeWithScope source scope => .object [("$code", .string source), ("$scope", .object (toScopeMembers scope))]
  | .regex pattern options => regexToJson pattern (sortedOptions options)
  | .binary subtype bytes => binaryToJson subtype bytes
  | .date millis => dateToJson millis
  | v => scalarToJson v

/-- Items as relaxed extended JSON. -/
def toJsonItems : List Bson → List Json
  | [] => []
  | v :: rest => toJson v :: toJsonItems rest

/-- Fields as relaxed extended JSON. -/
def toJsonMembers : List (String × Bson) → List (String × Json)
  | [] => []
  | (k, v) :: rest => (k, toJson v) :: toJsonMembers rest

end

end Chronicle.Bson
