import Chronicle.Database.Transaction

/-!
# Streams in a database

Each event is a document of one collection, with the id of its stream and its version there. A unique index on the two
turns away a writer that comes second; so does the database, if two transactions write at once. `EventStore.append` tells
its caller of both as a conflict.
-/

namespace Chronicle.Database

/-- A store of streams in a collection. -/
structure EventStore where
  collection : Collection
  config : StoreConfig

/-- The number of the error for two documents with equal keys in a unique index. -/
def duplicateKey : Int := 11000

/-- The number of the error for two transactions that write the same document. -/
def writeConflict : Int := 112

/-- Whether an error says that another writer came first. -/
def isConflict : DatabaseError → Bool
  | .write code => code = duplicateKey
  | .insertMany codes => codes.contains duplicateKey
  | .command code => code = duplicateKey || code = writeConflict
  | _ => false

/-- What a failed write means to one who expected the stream to be at a version. -/
def conflictOr (stream : String) (expected : ExpectedVersion) (e : DatabaseError) : StoreError :=
  if isConflict e then .conflict stream expected else .database e

namespace EventStore

/-- The codec of the documents. -/
def codec (s : EventStore) : Codec := .json s.config.times

/-- Sees to the index that keeps versions apart. -/
def setUp (s : EventStore) : Attempt Unit :=
  .createIndex s.collection [(streamIdField, .int32 1), (streamVersionField, .int32 1)]

/-- The documents of a stream. -/
def ofStream (s : EventStore) (stream : String) : Query where
  collection := s.collection
  filter := [(streamIdField, .string stream)]

/-- The question for the version of a stream's last event. -/
def latest (s : EventStore) (stream : String) : Query :=
  { s.ofStream stream with
    sort := some [(streamVersionField, .int32 (-1))]
    projection := some [(streamVersionField, .int32 1)] }

/-- The question for a part of a stream, in order of the versions. -/
def window (s : EventStore) (stream : String) (skip : Nat) (limit : Option Nat) : Query :=
  { s.ofStream stream with
    sort := some [(streamVersionField, .int32 1)]
    skip := if skip = 0 then none else some skip
    limit
    options := s.config.shapeQuery {} }

/-- The version of a stream's last event. -/
def currentVersion (s : EventStore) (stream : String) (part : Option TransactionPart) : Attempt (Option Nat) := do
  match ← Attempt.findOne (s.latest stream) part with
  | some d => ExceptT.mk (.done ((streamVersionOf d).mapError .decoding))
  | none => return none

/-- Stores the events of a batch, within a transaction. -/
def appendWithin (s : EventStore) (stream : String) (expected : ExpectedVersion) (events : List Event) :
    Attempt AppendResult := do
  let current ← s.currentVersion stream (some (.first s.config.transaction.readConcern))
  let first ← ExceptT.mk (.done (nextVersion stream expected current))
  let batch ← ExceptT.mk (.done ((s.codec.encodeAll stream first events).mapError .encoding))
  let stored ← ExceptT.lift (Attempt.insertAll s.collection (some .later) batch)
  ExceptT.mk (.done (stored.mapError (conflictOr stream expected)))
  return ⟨stream, current, lastVersion first batch.length current⟩

/-- Appends events to a stream: all of them under consecutive versions, or none. -/
def append (s : EventStore) (stream : String) (expected : ExpectedVersion) (events : List Event) :
    Attempt AppendResult := do
  ExceptT.mk (.done (checkStreamId stream))
  Attempt.inTransaction s.config.transaction (conflictOr stream expected) (s.appendWithin stream expected events)

/-- The version of a stream and a part of its documents. The first query has the one place in a transaction, the second
the other. -/
def versionAndDocuments (s : EventStore) (stream : String) (q : Query) (early late : Option TransactionPart) :
    Attempt (Option Nat × List Document) := do
  let version ← s.currentVersion stream early
  return (version, ← Attempt.findAll q late)

/-- Refuses a limit that the database would take for a negative one. -/
def checkLimit : Option Nat → Except StoreError Unit
  | some n => if n < 0x8000000000000000 then .ok () else .error (.unsupported (.limitTooLarge n))
  | none => .ok ()

/-- Reads a part of a stream. -/
def readSlice (s : EventStore) (stream : String) (skip : Nat) (limit : Option Nat) : Attempt StreamSlice := do
  ExceptT.mk (.done (checkStreamId stream))
  ExceptT.mk (.done (checkLimit limit))
  let q := s.window stream skip limit
  let (version, documents) ← match s.config.consistency with
    | .transactional =>
      let concern := s.config.transaction.readConcern.or (some .snapshot)
      Attempt.inTransaction s.config.transaction .database
        (s.versionAndDocuments stream q (some (.first concern)) (some .later))
    | .independent => s.versionAndDocuments stream q none none
  let events ← ExceptT.mk (.done ((s.codec.decodeAll documents).mapError .decoding))
  return ⟨stream, version, events⟩

/-- Whether a stream has an event. -/
def hasEvents (s : EventStore) (stream : String) : Attempt Bool := do
  ExceptT.mk (.done (checkStreamId stream))
  let found ← Attempt.findOne { s.ofStream stream with projection := some [(streamIdField, .int32 1)] } none
  return found.isSome

end EventStore

end Chronicle.Database
