import Chronicle.Database.EventStore
import Chronicle.Feed.Basic

/-!
# The database's feed of changes

A cursor that the database keeps open hands out a document for each change of a collection. `changeOf` reads one; its
sequence is the database's clock at that time, so that all changes of one transaction share it. A failure or a change
that cannot be read is an item of the feed like any other, and the feed goes on behind it.
-/

namespace Chronicle.Database

/-- The number that orders the readings of a clock: by the time, then by the increment. -/
def sequenceOf (time increment : UInt32) : Nat := time.toNat * 0x100000000 + increment.toNat

/-- A field whose value is left out or null, or has one form. -/
def optionalField {α : Type} (name : String) (form : Bson → Option α) (d : Document) : Except StoreError (Option α) :=
  match Fields.get? name d with
  | none | some .null => .ok none
  | some value =>
    match form value with
    | some a => .ok (some a)
    | none => .error (.database .malformedEvent)

/-- The sequence of a clock's reading. -/
def clockReading? : Bson → Option Nat
  | .timestamp time increment => some (sequenceOf time increment)
  | _ => none

/-- The fields of a document. -/
def documentFields? : Bson → Option Document
  | .document fields => some fields
  | _ => none

/-- The change that the database's account of it tells of. -/
def changeOf (d : Document) : Except StoreError Change := do
  let some token := Fields.get? "_id" d | throw (.database .missingToken)
  let some (.string _) := Fields.get? "operationType" d | throw (.database .malformedEvent)
  let sequence ← optionalField "clusterTime" clockReading? d
  let document ← optionalField "fullDocument" documentFields? d
  match document with
  | some document => return ⟨document, token, sequence.getD 0⟩
  | none => throw (.unsupported .changeWithoutDocument)

/-- An open feed: the documents of the last batch that are left, and whether there may be more of them. -/
structure ChangeCursor where
  collection : String
  batch : List Document
  more : Bool

/-- What the database is asked for, to tell of the documents inserted from some start on. -/
def changePipeline (start : Document) : List Document :=
  [[("$changeStream", .document start)], [("$match", .document [("operationType", .string "insert")])]]

/-- Opens a feed of the inserted documents. The database keeps no record of those before the first. -/
def EventStore.openFeed (s : EventStore) (start : StartPosition) : Attempt ChangeCursor := do
  let start ← match start with
    | .now => pure []
    | .beginning => throw (.unsupported .startBeforeWindow)
    | .after p => pure [("startAfter", p.token)]
  let reply ← Attempt.ask ⟨.aggregate s.collection (changePipeline start), none⟩
  Attempt.ofDatabase reply.accepted
  return ⟨s.collection.name, reply.documents, reply.more⟩

namespace ChangeCursor

/-- The next item of a batch, or none if it is empty. -/
def pop (c : ChangeCursor) : Option (Except StoreError Change) × ChangeCursor :=
  match c.batch with
  | d :: rest => (some (changeOf d), { c with batch := rest })
  | [] => (none, c)

/-- The next item by the last reply to a question for more. A failure leaves the cursor as it is. -/
def receive (c : ChangeCursor) (reply : Reply) : Option (Except StoreError Change) × ChangeCursor :=
  match reply.accepted with
  | .error e => (some (.error (.database e)), c)
  | .ok () => { c with batch := reply.documents, more := reply.more }.pop

/-- The next item of a feed, or none at its end. -/
def next (c : ChangeCursor) : Dialogue (Option (Except StoreError Change) × ChangeCursor) :=
  if c.batch.isEmpty && c.more then do
    let replies ← Dialogue.askUntil ⟨.getMore c.collection none, none⟩ Reply.settles
    return c.receive (replies.getLastD {})
  else return c.pop

/-- The next items of a feed. -/
def take (c : ChangeCursor) : Nat → Dialogue (List (Option (Except StoreError Change)) × ChangeCursor)
  | 0 => return ([], c)
  | n + 1 => do
    let (item, c) ← c.next
    let (items, c) ← c.take n
    return (item :: items, c)

end ChangeCursor

end Chronicle.Database
