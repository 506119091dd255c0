import Chronicle.Event.Rules
import Chronicle.Json.Printer
import Chronicle.Json.Reader
import Chronicle.Text.Base64
import Chronicle.Time.Rfc3339.Printer
import Chronicle.Time.Rfc3339.Reader

/-!
# The JSON envelope

An event as one JSON object: its attributes, its payload in `data` (JSON or text) or in `data_base64` (bytes), and its
extensions. `Event.toJson` writes the object and `Event.ofJson` reads it; `serialize` and `deserialize` add the text.

* The time keeps its offset and always has nine fraction digits.
* Reading takes the known names out of the object one by one, each time moving the last member into the gap. What is
  left, in the order that results, are the extensions; the first that is no scalar decides the error.
-/

namespace Chronicle

/-- Why a text is no event. -/
inductive FormatError where
  | json (e : Json.ReadError)
  | notAnObject
  | missingAttribute (a : RequiredAttribute)
  | notAString (name : String) (found : Json)
  | invalidTime (e : Timestamp.ReadError)
  | extensionNotInteger (name : String) (found : Json)
  | extensionNotScalar (name : String) (found : Json)
  | unsupportedSpecVersion (found : Json)
  | base64 (e : Base64.DecodeError)

/-- What is wrong, in words. -/
def FormatError.message : FormatError → String
  | .json e => s!"JSON error: {e.message}"
  | .notAnObject => "Serialized event is not a JSON object"
  | .missingAttribute a => s!"Missing required attribute '{a.name}'"
  | .notAString name found => s!"Invalid attribute '{name}': expected a string, got {found.text}"
  | .invalidTime e => s!"Invalid attribute 'time': {e.message}"
  | .extensionNotInteger name found =>
    s!"Invalid attribute '{name}': extension value {found.text} is not a 64-bit integer"
  | .extensionNotScalar name found => s!"Invalid attribute '{name}': extension value {found.text} is not a scalar"
  | .unsupportedSpecVersion found => s!"Unsupported specversion '{found.text}'"
  | .base64 e => s!"Invalid base64 payload: {e.message}"

namespace Event

/-- The version of the envelope that is written, and the only one that is read. -/
def specVersion : String := "1.0"

/-! ## Writing -/

/-- An extension attribute as a JSON value. -/
def extensionToJson : Extension → Json
  | .string s => .string s
  | .boolean b => .bool b
  | .integer n => .integer (.ofInt64 n)

/-- An optional string attribute as a member. -/
def optionalMember (name : String) : Option String → List (String × Json)
  | some s => [(name, .string s)]
  | none => []

/-- The payload as a member. -/
def payloadMember : Option Payload → List (String × Json)
  | some (.json v) => [("data", v)]
  | some (.text s) => [("data", .string s)]
  | some (.binary bytes) => [("data_base64", .string (String.ofList (Base64.encode bytes)))]
  | none => []

/-- The members of the envelope that are no extensions. -/
def attributes (e : Event) : List (String × Json) :=
  [("specversion", .string specVersion), ("id", .string e.id), ("source", .string e.source), ("type", .string e.type)]
    ++ optionalMember "time" (e.time.map (·.rfc3339 .nanos))
    ++ optionalMember "subject" e.subject
    ++ optionalMember "datacontenttype" e.contentType
    ++ payloadMember e.payload

/-- The envelope of an event. An extension with the name of an attribute takes the attribute's place. -/
def toJson (e : Event) : Json :=
  .object (e.extensions.entries.foldl (fun ms x => Fields.set x.1 (extensionToJson x.2) ms) e.attributes)

/-- The text of the envelope. -/
def serialize (e : Event) : String := e.toJson.text

/-! ## Reading -/

/-- The members of an object that have not been taken yet. -/
abbrev Taking (α : Type) := StateT (List (String × Json)) (Except FormatError) α

/-- Takes a member out. -/
def take? (name : String) : Taking (Option Json) := fun members =>
  .ok (Fields.get? name members, Fields.swapErase name members)

/-- Takes a member out that is a string, null or absent. -/
def takeString? (name : String) : Taking (Option String) := do
  match ← take? name with
  | none => return none
  | some .null => return none
  | some (.string s) => return some s
  | some other => throw (.notAString name other)

/-- Takes out a member that has to be a string. -/
def takeRequired (a : RequiredAttribute) : Taking String := do
  match ← takeString? a.name with
  | some s => return s
  | none => throw (.missingAttribute a)

/-- Takes the version out: it is absent or the supported one. -/
def takeSpecVersion : Taking Unit := do
  match ← take? "specversion" with
  | none => return
  | some version =>
    match version with
    | .string s => if s = specVersion then return else throw (.unsupportedSpecVersion version)
    | _ => throw (.unsupportedSpecVersion version)

/-- Takes the time out. -/
def takeTime : Taking (Option Timestamp) := do
  match ← takeString? "time" with
  | none => return none
  | some text =>
    match Timestamp.ofRfc3339 text with
    | .ok t => return some t
    | .error e => throw (.invalidTime e)

/-- Takes the payload out. A string is text under a content type that is not JSON, and JSON otherwise. -/
def takePayload (contentType : Option String) : Taking (Option Payload) := do
  match ← takeString? "data_base64" with
  | some text =>
    match Base64.decode (Text.utf8 text) with
    | .ok bytes => return some (.binary bytes)
    | .error e => throw (.base64 e)
  | none =>
    match ← take? "data" with
    | none => return none
    | some .null => return none
    | some (.string s) => return some (if isJsonContentType contentType then .json (.string s) else .text s)
    | some v => return some (.json v)

/-- A member that is left over, as an extension attribute. -/
def extensionOfJson (name : String) : Json → Except FormatError Extension
  | .string s => .ok (.string s)
  | .bool b => .ok (.boolean b)
  | .integer n =>
    match n.toInt64? with
    | some i => .ok (.integer i)
    | none => .error (.extensionNotInteger name (.integer n))
  | .double x => .error (.extensionNotInteger name (.double x))
  | v => .error (.extensionNotScalar name v)

/-- The members that are left over, as extension attributes. -/
def extensionsOfMembers : List (String × Json) → Except FormatError (List (String × Extension))
  | [] => .ok []
  | (name, v) :: rest => do
    let x ← extensionOfJson name v
    let xs ← extensionsOfMembers rest
    return (name, x) :: xs

/-- Takes all attributes out of an object and the extensions from what is left. -/
def takeEvent : Taking Event := do
  takeSpecVersion
  let id ← takeRequired .id
  let source ← takeRequired .source
  let type ← takeRequired .type
  let time ← takeTime
  let subject ← takeString? "subject"
  let contentType ← takeString? "datacontenttype"
  let payload ← takePayload contentType
  let extensions ← extensionsOfMembers (← get)
  return { id, source, type, time, subject, contentType, payload, extensions := .ofList extensions }

/-- The event of an envelope. -/
def ofJson : Json → Except FormatError Event
  | .object members => takeEvent.run' members
  | _ => .error .notAnObject

/-- The event of a text, given as symbols. -/
def ofSymbols (s : List Text.Symbol) : Except FormatError Event :=
  match Json.read s with
  | .ok v => ofJson v
  | .error e => .error (.json e)

/-- The event of a sequence of bytes. -/
def deserialize (bytes : ByteArray) : Except FormatError Event := ofSymbols (Text.symbols bytes)

end Event

end Chronicle
