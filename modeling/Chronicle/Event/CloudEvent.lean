import Chronicle.Event.Rules

/-!
# CloudEvents of other programs

A `CloudEvent` is an event as CloudEvents toolkits hold it: of one of two versions of the specification, with its time in
UTC, and with content type and payload independent of each other. `Event.toCloudEvent` keeps the instant of the time but
not its offset, and a content type only together with a payload; `CloudEvent.toEvent` checks what it takes over.
-/

namespace Chronicle

/-- A version of the CloudEvents specification. -/
inductive SpecVersion where
  | v03
  | v10
deriving DecidableEq, Repr

/-- The number of a version. -/
def SpecVersion.text : SpecVersion → String
  | .v03 => "0.3"
  | .v10 => "1.0"

/-- An event as CloudEvents toolkits hold it. -/
structure CloudEvent where
  specVersion : SpecVersion
  id : String
  source : String
  type : String
  time : Option Timestamp
  subject : Option String
  contentType : Option String
  payload : Option Payload
  extensions : NameMap Extension

/-- The content type of a payload that names none. -/
def Payload.defaultContentType : Payload → String
  | .json _ => "application/json"
  | .text _ => "text/plain"
  | .binary _ => "application/octet-stream"

/-- An event for a CloudEvents toolkit, which refuses an empty source. -/
def Event.toCloudEvent (e : Event) : Except EventError CloudEvent :=
  if e.source.isEmpty then .error .emptySource
  else .ok
    { specVersion := .v10
      id := e.id
      source := e.source
      type := e.type
      time := e.time.map Timestamp.toUtc
      subject := e.subject
      contentType := e.payload.map fun p => e.contentType.getD p.defaultContentType
      payload := e.payload
      extensions := e.extensions }

/-- A draft with the attributes and extensions of a CloudEvent. -/
def CloudEvent.draft (c : CloudEvent) : Draft :=
  { id := some c.id
    source := c.source
    type := c.type
    time := c.time.map Timestamp.toUtc
    subject := c.subject
    contentType := c.payload.map fun p => c.contentType.getD p.defaultContentType
    payload := c.payload
    extensions := c.extensions }

/-- The event of a CloudEvent. Its content type is checked only against a payload. -/
def CloudEvent.toEvent (c : CloudEvent) : Except EventError Event := do
  let e ← c.draft.build c.id
  return if e.payload.isNone then { e with contentType := c.contentType } else e

end Chronicle
