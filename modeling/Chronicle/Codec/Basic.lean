import Chronicle.Bson.ExtendedJson.Printer
import Chronicle.Bson.ExtendedJson.Reader
import Chronicle.Event.Envelope

/-!
# Events as documents

A `Codec` turns an event and its place in a stream into a document and back. The document holds the envelope's fields at
its top level, and next to them `streamId` and `streamVersion`.

* Under `nativeDate` the field `time` is a date, which is UTC and holds milliseconds; `encode` refuses other times.
* `encode` goes through the text of a format, so that the text decides about the document; the stream's fields and a
  native date are put in last, whatever the text holds.
* `decode` takes the stream's fields out and gives the rest to the format as relaxed extended JSON. A field `_id` belongs
  to the database and does not count.
-/

namespace Chronicle

/-- How the time of an event is stored: as text, or as a date. -/
inductive TimeRepresentation where
  | rfc3339String
  | nativeDate
deriving DecidableEq, Repr

/-- The written form of events. -/
structure Format where
  serialize : Event → Except FormatError ByteArray
  deserialize : ByteArray → Except FormatError Event

/-- The JSON envelope as a format. -/
def Format.json : Format where
  serialize e := .ok e.serialize.toUTF8
  deserialize := Event.deserialize

/-- Why an event cannot be stored. -/
inductive EncodingError where
  | subMillisecondPrecision (time : Timestamp)
  | nonUtcTimestamp (time : Timestamp)
  | versionOutOfRange (version : Nat)
  | mismatchedPayload (e : EventError)
  | unreadableText (e : Json.ReadError)
  | unsignedInteger (n : Nat)
  | notADocument (found : Bson)
  | format (e : FormatError)

/-- What is wrong, in words. -/
def EncodingError.message : EncodingError → String
  | .subMillisecondPrecision time =>
    let shown := time.text
    s!"Event time {shown} has sub-millisecond precision, which a native date cannot represent; " ++
      "use the RFC 3339 string time representation or truncate the time to milliseconds"
  | .nonUtcTimestamp time =>
    let shown := time.text
    s!"Event time {shown} is not UTC, and a native date is always UTC; " ++
      "use the RFC 3339 string time representation or convert the time to UTC"
  | .versionOutOfRange version => s!"Stream version {version} exceeds the storable range"
  | .mismatchedPayload e => s!"Unsupported payload: {e.message}"
  | .unreadableText e => s!"Unsupported payload: {e.message}"
  | .unsignedInteger n =>
    "Unsupported payload: BSON does not support unsigned integers.\n                 " ++
      s!"An attempt to serialize the value: {n} in a signed type failed due to the value's size."
  | .notADocument found =>
    s!"Unsupported payload: Could not be serialized to Document, got {found.typeName} instead"
  | .format e => s!"Event serialization failed: {e.message}"

/-- Why a document is no event. -/
inductive DecodingError where
  | missingField (name : String)
  | streamNotString (found : Bson)
  | versionNotInteger (found : Bson)
  | negativeVersion (version : Int64)
  | dateOutOfRange (millis : Int64)
  | format (e : FormatError)

/-- What is wrong, in words. -/
def DecodingError.message : DecodingError → String
  | .missingField name => s!"Missing required field '{name}'"
  | .streamNotString found => s!"Invalid field 'streamId': expected a string, got {found.typeName}"
  | .versionNotInteger found => s!"Invalid field 'streamVersion': expected an integer, got {found.typeName}"
  | .negativeVersion version => s!"Invalid field 'streamVersion': negative version {version}"
  | .dateOutOfRange millis => s!"Invalid field 'time': date {millis} is out of range"
  | .format e => s!"Event deserialization failed: {e.message}"

/-! ## Fields -/

/-- The field of the stream's id. -/
def streamIdField : String := "streamId"

/-- The field of the event's version in its stream. -/
def streamVersionField : String := "streamVersion"

/-- The field of the event's time. -/
def timeField : String := "time"

/-- The field of the key that the database gives a document. -/
def internalIdField : String := "_id"

/-- A stored version: an integer of either width that is not negative. -/
def versionOfBson (value : Bson) : Except DecodingError Nat := do
  let n ← match value with
    | .int64 n => .ok n
    | .int32 n => .ok n.toInt64
    | other => .error (.versionNotInteger other)
  if n < 0 then .error (.negativeVersion n) else .ok n.toInt.toNat

/-- The stream version of a document, if it has one. -/
def streamVersionOf (d : Document) : Except DecodingError (Option Nat) :=
  match Fields.get? streamVersionField d with
  | some value => (versionOfBson value).map some
  | none => .ok none

/-! ## Native dates -/

/-- A time as a native date, if it is one: in UTC and of whole milliseconds. -/
def nativeDate (t : Timestamp) : Except EncodingError Int64 :=
  if t.nanos % 1000000 ≠ 0 then .error (.subMillisecondPrecision t)
  else if t.offset ≠ 0 then .error (.nonUtcTimestamp t)
  else .ok (Int64.ofInt t.millis)

/-- The first and the last millisecond that a time can have: those of the years -262143 and 262142. -/
def firstMilli : Int := -8334601228800000

/-- The last millisecond that a time can have. -/
def lastMilli : Int := 8210266876799999

/-- The text of a native date. -/
def textOfNativeDate (millis : Int64) : Except DecodingError String :=
  let n := millis.toInt
  if firstMilli ≤ n ∧ n ≤ lastMilli then
    match Timestamp.ofParts? (n / 1000) ((n % 1000).toNat * 1000000) 0 with
    | some t => .ok (t.rfc3339 .millis)
    | none => .error (.dateOutOfRange millis)
  else .error (.dateOutOfRange millis)

/-! ## The codec -/

/-- How events are stored. -/
structure Codec where
  format : Format
  times : TimeRepresentation

namespace Codec

/-- The codec of the JSON envelope. -/
def json (times : TimeRepresentation) : Codec := ⟨.json, times⟩

/-- The date to store for an event, if its time is stored as one. -/
def dateOf (c : Codec) (e : Event) : Except EncodingError (Option Int64) :=
  match c.times, e.time with
  | .nativeDate, some t => (nativeDate t).map some
  | _, _ => .ok none

/-- The document of a written event. -/
def documentOfText (bytes : ByteArray) : Except EncodingError Document :=
  match Json.read (Text.symbols bytes) with
  | .error e => .error (.unreadableText e)
  | .ok v =>
    match Bson.ofJson v with
    | .error n => .error (.unsignedInteger n)
    | .ok (.document fields) => .ok fields
    | .ok other => .error (.notADocument other)

/-- The document of an event of a stream. Without a version it gets no field for it. -/
def encode (c : Codec) (e : Event) (stream : String) (version : Option Nat) : Except EncodingError Document := do
  match checkPayload e.contentType e.payload with
  | .ok () => pure ()
  | .error problem => .error (.mismatchedPayload problem)
  let date ← c.dateOf e
  let bytes ← match c.format.serialize e with
    | .ok bytes => .ok bytes
    | .error problem => .error (.format problem)
  let d ← documentOfText bytes
  let d := Fields.set streamIdField (.string stream) d
  let d ← match version with
    | none => .ok d
    | some v =>
      match Bson.int64OfNat? v with
      | some n => .ok (Fields.set streamVersionField n d)
      | none => .error (.versionOutOfRange v)
  return match date with
    | some millis => Fields.set timeField (.date millis) d
    | none => d

/-- The stream's id of a document. -/
def streamOf (d : Document) : Except DecodingError String :=
  match Fields.get? streamIdField d with
  | some (.string s) => .ok s
  | some other => .error (.streamNotString other)
  | none => .error (.missingField streamIdField)

/-- The version of a document, which has to have one. -/
def versionOf (d : Document) : Except DecodingError Nat :=
  match Fields.get? streamVersionField d with
  | some value => versionOfBson value
  | none => .error (.missingField streamVersionField)

/-- A document whose native date is written as text. -/
def withTextTime (c : Codec) (d : Document) : Except DecodingError Document :=
  match c.times, Fields.get? timeField d with
  | .nativeDate, some (.date millis) => do
    let text ← textOfNativeDate millis
    return Fields.set timeField (.string text) d
  | _, _ => .ok d

/-- The event of a document, with its place in its stream. -/
def decode (c : Codec) (d : Document) : Except DecodingError StreamEvent := do
  let d := Fields.erase internalIdField d
  let stream ← streamOf d
  let d := Fields.erase streamIdField d
  let version ← versionOf d
  let d := Fields.erase streamVersionField d
  let d ← c.withTextTime d
  let text := (Bson.toJson (.document d)).text
  match c.format.deserialize text.toUTF8 with
  | .ok event => return { stream, version, event }
  | .error e => .error (.format e)

end Codec

end Chronicle
