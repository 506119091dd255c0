import Chronicle.Bson.Basic
import Chronicle.Bson.DateText
import Chronicle.Decimal.Reader
import Chronicle.Json.Basic
import Chronicle.Text.Base64

/-!
# BSON from extended JSON

`Bson.ofJson` turns a JSON value into a BSON value. Integers become 64-bit integers, which fails for those that need the
sign bit. An object that is exactly one of the forms of extended JSON becomes the value that the form stands for; all
others, also those whose content does not fit, become documents. Inner values are converted before outer ones.
-/

namespace Chronicle.Bson

open Text (integer? lowerAscii ofHex?)

/-- A signed number of `bits` bits from its decimal text. -/
def sized? (bits : Nat) (s : String) : Option Int := do
  let n ← integer? s.toList
  if -(Nat.pow 2 (bits - 1) : Int) ≤ n ∧ n < (Nat.pow 2 (bits - 1) : Int) then some n else none

/-- The parts of a timestamp: two 32-bit integers, or two 64-bit integers in the range of 32 bits. -/
def timestampParts? (fields : Document) : Option Bson :=
  match Fields.get? "t" fields, Fields.get? "i" fields with
  | some (.int32 t), some (.int32 i) => some (.timestamp t.toUInt32 i.toUInt32)
  | some (.int64 t), some (.int64 i) =>
    if 0 ≤ t.toInt ∧ t.toInt < 0x100000000 ∧ 0 ≤ i.toInt ∧ i.toInt < 0x100000000 then
      some (.timestamp (UInt32.ofNat t.toInt.toNat) (UInt32.ofNat i.toInt.toNat))
    else none
  | _, _ => none

/-- The parts of binary data: Base64 text and a subtype in hexadecimal; or bytes that are
binary data already, and a subtype as an integer. -/
def binaryParts? (fields : Document) : Option Bson :=
  match Fields.get? "base64" fields with
  | some (.string text) =>
    match Fields.get? "subType" fields with
    | some (.string subtype) => do
      let bytes ← (Base64.decode (Text.utf8 text)).toOption
      match ← ofHex? subtype.toList with
      | [b] => some (.binary b bytes)
      | _ => none
    | _ => none
  | _ =>
    match Fields.get? "bytes" fields, Fields.get? "subType" fields with
    | some (.binary 0 bytes), some (.int32 n) =>
      if 0 ≤ n.toInt ∧ n.toInt < 256 then some (.binary (UInt8.ofNat n.toInt.toNat) bytes) else none
    | _, _ => none

/-- The double of a decimal text. -/
def doubleOfText? (s : String) : Option Bson :=
  if s.toList.map lowerAscii = ['-', 'n', 'a', 'n'] then some .negativeNaN
  else (Decimal.read? s.toList).map .double

/-- The value of a form with one key, if its content fits. -/
def ofForm? (key : String) (content : Bson) : Option Bson :=
  match key, content with
  | "$oid", .string s => (ObjectId.ofText? s).map .objectId
  | "$symbol", .string s => some (.symbol s)
  | "$numberInt", .string s => (sized? 32 s).map fun n => .int32 (Int32.ofInt n)
  | "$numberLong", .string s => (sized? 64 s).map fun n => .int64 (Int64.ofInt n)
  | "$numberDouble", .string s => doubleOfText? s
  | "$numberDecimal", .string s => (Decimal128.ofText? s).map .decimal128
  | "$numberDecimalBytes", .binary 0 bytes => (Decimal128.ofBytes? bytes).map .decimal128
  | "$binary", .document fields => binaryParts? fields
  | "$code", .string s => some (.code s)
  | "$timestamp", .document fields => timestampParts? fields
  | "$regularExpression", .document fields =>
    match Fields.get? "pattern" fields, Fields.get? "options" fields with
    | some (.string pattern), some (.string options) => some (.regex pattern (sortedOptions options))
    | _, _ => none
  | "$dbPointer", .document fields =>
    match Fields.get? "$ref" fields, Fields.get? "$id" fields with
    | some (.string target), some (.objectId id) => some (.dbPointer target id)
    | _, _ => none
  | "$date", .int64 n => some (.date n)
  | "$date", .string s => (dateOfText? s).map .date
  | "$minKey", .int32 n => if n = 1 then some .minKey else none
  | "$minKey", .int64 n => if n = 1 then some .minKey else none
  | "$maxKey", .int32 n => if n = 1 then some .maxKey else none
  | "$maxKey", .int64 n => if n = 1 then some .maxKey else none
  | "$undefined", .boolean true => some .undefined
  | _, _ => none

/-- A document, or the value whose form it is. -/
def ofDocument (fields : Document) : Bson :=
  match fields with
  | [(key, content)] => (ofForm? key content).getD (.document fields)
  | [("$code", .string source), ("$scope", .document scope)] => .codeWithScope source scope
  | [("$scope", .document scope), ("$code", .string source)] => .codeWithScope source scope
  | _ => .document fields

mutual

/-- The BSON value of a JSON value, or the first integer that a signed 64-bit integer cannot hold. -/
def ofJson : Json → Except Nat Bson
  | .null => .ok .null
  | .bool b => .ok (.boolean b)
  | .integer n =>
    match n.toInt64? with
    | some i => .ok (.int64 i)
    | none => .error n.val.toNat
  | .double x => .ok (.double x.val)
  | .string s => .ok (.string s)
  | .array items => do
    let items ← ofJsonItems items
    return .array items
  | .object members => do
    let fields ← ofJsonMembers members
    return ofDocument fields

/-- The BSON values of items. -/
def ofJsonItems : List Json → Except Nat (List Bson)
  | [] => .ok []
  | v :: rest => do
    let b ← ofJson v
    let bs ← ofJsonItems rest
    return b :: bs

/-- The fields of members. -/
def ofJsonMembers : List (String × Json) → Except Nat Document
  | [] => .ok []
  | (k, v) :: rest => do
    let b ← ofJson v
    let fields ← ofJsonMembers rest
    return (k, b) :: fields

end

end Chronicle.Bson
