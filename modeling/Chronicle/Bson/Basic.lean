import Chronicle.Bson.Decimal128
import Chronicle.Fields
import Chronicle.Text.Digits

/-!
# BSON values

The values that a document database stores. A document is a list of named values in order; `Fields` says how it is read
and changed.
-/

namespace Chronicle

/-- Twelve bytes that name a document. -/
structure ObjectId where
  bytes : List UInt8
  length_eq : bytes.length = 12
deriving DecidableEq, Repr

/-- The hexadecimal text of an object id. -/
def ObjectId.text (id : ObjectId) : String := String.ofList (Text.hex id.bytes)

/-- The object id of 24 hexadecimal digits. -/
def ObjectId.ofText? (s : String) : Option ObjectId := do
  let bytes ← Text.ofHex? s.toList
  if h : bytes.length = 12 then some ⟨bytes, h⟩ else none

/-- A BSON value. All doubles that are no number are one `Float`, so the one with a minus sign stands apart. -/
inductive Bson where
  | double (x : Float)
  | negativeNaN
  | string (s : String)
  | array (items : List Bson)
  | document (fields : List (String × Bson))
  | boolean (b : Bool)
  | null
  | regex (pattern options : String)
  | code (source : String)
  | codeWithScope (source : String) (scope : List (String × Bson))
  | int32 (n : Int32)
  | int64 (n : Int64)
  | timestamp (time increment : UInt32)
  | decimal128 (d : Decimal128)
  | binary (subtype : UInt8) (bytes : List UInt8)
  | objectId (id : ObjectId)
  | date (millis : Int64)
  | symbol (s : String)
  | undefined
  | maxKey
  | minKey
  | dbPointer (target : String) (id : ObjectId)
deriving Inhabited

/-- A document. -/
abbrev Document := List (String × Bson)

namespace Bson

/-- The name of a value's type. -/
def typeName : Bson → String
  | .double _ | .negativeNaN => "Double"
  | .string _ => "String"
  | .array _ => "Array"
  | .document _ => "EmbeddedDocument"
  | .boolean _ => "Boolean"
  | .null => "Null"
  | .regex .. => "RegularExpression"
  | .code _ => "JavaScriptCode"
  | .codeWithScope .. => "JavaScriptCodeWithScope"
  | .int32 _ => "Int32"
  | .int64 _ => "Int64"
  | .timestamp .. => "Timestamp"
  | .decimal128 _ => "Decimal128"
  | .binary .. => "Binary"
  | .objectId _ => "ObjectId"
  | .date _ => "DateTime"
  | .symbol _ => "Symbol"
  | .undefined => "Undefined"
  | .maxKey => "MaxKey"
  | .minKey => "MinKey"
  | .dbPointer .. => "DbPointer"

/-- The 64-bit integer of this value, if the natural number is in its range. -/
def int64OfNat? (n : Nat) : Option Bson :=
  if n < 0x8000000000000000 then some (.int64 (Int64.ofNat n)) else none

/-- A regular expression. Its options are letters, kept in order. -/
def sortedOptions (options : String) : String :=
  String.ofList (options.toList.mergeSort fun a b => a ≤ b)

end Bson

end Chronicle
