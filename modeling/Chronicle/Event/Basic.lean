import Chronicle.Json.Basic
import Chronicle.NameMap
import Chronicle.Text.Digits
import Chronicle.Time.Timestamp

/-!
# Events

An event is an envelope in the sense of CloudEvents 1.0: the required attributes `id`, `source` and `type`, some optional
ones, a payload, and scalar extension attributes under names of their own.
-/

namespace Chronicle

/-- What an event carries: JSON content, text, or bytes. -/
inductive Payload where
  | json (value : Json)
  | text (s : String)
  | binary (bytes : List UInt8)

/-- The value of an extension attribute. -/
inductive Extension where
  | string (s : String)
  | boolean (b : Bool)
  | integer (n : Int64)
deriving DecidableEq

/-- An extension attribute as text. -/
def Extension.text : Extension → String
  | .string s => s
  | .boolean true => "true"
  | .boolean false => "false"
  | .integer n => String.ofList (Text.signed n.toInt)

/-- An event. -/
structure Event where
  id : String
  source : String
  type : String
  time : Option Timestamp
  subject : Option String
  contentType : Option String
  payload : Option Payload
  extensions : NameMap Extension

/-- An event at its place in a stream. -/
structure StreamEvent where
  stream : String
  version : Nat
  event : Event

/-- Whether two payloads are of one kind and hold the same; the order of JSON members does not count. -/
def Payload.same : Payload → Payload → Bool
  | .json a, .json b => a.same b
  | .text a, .text b => a == b
  | .binary a, .binary b => a == b
  | _, _ => false

/-- Whether two optional values are both absent, or both present and the same. -/
def sameOption {α : Type} (same : α → α → Bool) : Option α → Option α → Bool
  | none, none => true
  | some a, some b => same a b
  | _, _ => false

/-- Whether two events are the same: their times as instants, their JSON payloads whatever the order of members, and all
else exactly. -/
def Event.same (a b : Event) : Bool :=
  a.id == b.id && a.source == b.source && a.type == b.type && sameOption Timestamp.sameInstant a.time b.time
    && a.subject == b.subject && a.contentType == b.contentType && sameOption Payload.same a.payload b.payload
    && a.extensions.entries == b.extensions.entries

end Chronicle
