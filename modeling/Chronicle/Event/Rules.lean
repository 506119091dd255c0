import Chronicle.Event.Basic
import Chronicle.Text.Blank

/-!
# What an event may hold

The JSON envelope writes a payload without saying of which kind it is: under a JSON content type it is read back as JSON
and under any other as text. `checkPayload` refuses the payloads that would come back changed, and
`checkExtensionName` the names that an extension may not have. A `Draft` collects the parts of an event and `Draft.build`
checks them in a fixed order: the required attributes, the extension names in order, the payload.
-/

namespace Chronicle

/-- The attributes that may not be empty. -/
inductive RequiredAttribute where
  | id
  | source
  | type
deriving DecidableEq, Repr

/-- The name of a required attribute. -/
def RequiredAttribute.name : RequiredAttribute → String
  | .id => "id"
  | .source => "source"
  | .type => "type"

/-- Why parts make no event. -/
inductive EventError where
  | emptyAttribute (a : RequiredAttribute)
  | invalidExtensionName (name : String)
  | reservedExtensionName (name : String)
  | nullPayload
  | jsonPayload (contentType : String)
  | textPayload (contentType : Option String)
  | emptySource
deriving DecidableEq, Repr

/-- What is wrong, in words. -/
def EventError.message : EventError → String
  | .emptyAttribute a => s!"Required attribute '{a.name}' is empty"
  | .invalidExtensionName name => s!"Invalid extension name '{name}': must be lowercase alphanumeric"
  | .reservedExtensionName name => s!"Extension name '{name}' is reserved"
  | .nullPayload => "Payload does not match content type: JSON null is indistinguishable from no payload"
  | .jsonPayload contentType =>
    s!"Payload does not match content type: JSON payload needs a JSON content type, got {contentType}"
  | .textPayload contentType =>
    let shown := contentType.getD "<none>"
    s!"Payload does not match content type: text payload needs a non-JSON content type, got {shown}"
  | .emptySource =>
    "CloudEvents conversion failed: Invalid value setting attribute 'source' with uriref type"

/-- The part of a content type in front of its parameters. -/
def mediaType (contentType : String) : List Char :=
  Text.trim (contentType.toList.takeWhile (· ≠ ';'))

/-- Whether a payload of this content type is JSON. Without a content type it is. -/
def isJsonContentType : Option String → Bool
  | none => true
  | some contentType =>
    let m := mediaType contentType
    m == "application/json".toList || "+json".toList.isSuffixOf m || m == "text/json".toList

/-- Refuses a payload that would not be read back as it is. -/
def checkPayload (contentType : Option String) : Option Payload → Except EventError Unit
  | some (.json .null) => .error .nullPayload
  | some (.json _) =>
    match contentType with
    | some c => if isJsonContentType (some c) then .ok () else .error (.jsonPayload c)
    | none => .ok ()
  | some (.text _) => if isJsonContentType contentType then .error (.textPayload contentType) else .ok ()
  | _ => .ok ()

/-- The names that belong to the envelope or to its place in a stream. -/
def reservedNames : List String :=
  ["specversion", "id", "source", "type", "time", "subject", "datacontenttype", "dataschema", "data", "data_base64",
    "streamid", "streamversion"]

/-- Whether a character may stand in the name of an extension. -/
def isNameChar (c : Char) : Bool := ('a' ≤ c && c ≤ 'z') || ('0' ≤ c && c ≤ '9')

/-- Refuses a name that no extension may have. -/
def checkExtensionName (name : String) : Except EventError Unit :=
  if name.isEmpty || !name.toList.all isNameChar then .error (.invalidExtensionName name)
  else if name ∈ reservedNames then .error (.reservedExtensionName name)
  else .ok ()

/-! ## Drafts -/

/-- An event in the making. -/
structure Draft where
  id : Option String := none
  source : String
  type : String
  time : Option Timestamp := none
  subject : Option String := none
  contentType : Option String := none
  payload : Option Payload := none
  extensions : NameMap Extension := .empty

namespace Draft

/-- A draft with only a source and a type. -/
def new (source type : String) : Draft := { source, type }

/-- Sets the id. -/
def withId (d : Draft) (id : String) : Draft := { d with id := some id }

/-- Sets the time. -/
def withTime (d : Draft) (time : Timestamp) : Draft := { d with time := some time }

/-- Sets the subject. -/
def withSubject (d : Draft) (subject : String) : Draft := { d with subject := some subject }

/-- Sets the payload and its content type. -/
def withPayload (d : Draft) (contentType : String) (payload : Payload) : Draft :=
  { d with contentType := some contentType, payload := some payload }

/-- Sets a JSON payload with the content type `application/json`. -/
def withJson (d : Draft) (value : Json) : Draft := d.withPayload "application/json" (.json value)

/-- Sets an extension attribute. -/
def withExtension (d : Draft) (name : String) (value : Extension) : Draft :=
  { d with extensions := d.extensions.insert name value }

/-- Makes the event, if its parts pass the checks. A draft without an id takes the fresh one. -/
def build (d : Draft) (freshId : String) : Except EventError Event := do
  let id := d.id.getD freshId
  if id.isEmpty then .error (.emptyAttribute .id)
  if d.source.isEmpty then .error (.emptyAttribute .source)
  if d.type.isEmpty then .error (.emptyAttribute .type)
  d.extensions.names.forM checkExtensionName
  checkPayload d.contentType d.payload
  return { d with id }

end Draft

/-- The extension attribute of this name, if the event has one. -/
def Event.extension? (e : Event) (name : String) : Option Extension := e.extensions.get? name

end Chronicle
